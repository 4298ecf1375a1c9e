import SLanguage.Proofs.Outcomes
import SLanguage.Proofs.Text.Spelling

/-! The grammar of argument lists. A phrase is what a rule makes of a part of the text, down to the
blanks. A text is read where phrases spell it, and it is read as what they stand for. No text is
spelled in two ways, since a run of characters ends at the next comma or parenthesis. -/

namespace SLanguage

open ArgumentToken

namespace ArgumentToken

def IsCut (c : Char) : Prop :=
  c = '(' ∨ c = ')' ∨ c = ','

/-- Where a run of characters ends. -/
def AtCut (cs : List Char) : Prop :=
  ∀ c rest, cs = c :: rest → IsCut c

theorem atCut_nil : AtCut [] :=
  fun _ _ eq => nomatch eq

theorem atCut_cons {c : Char} (cut : IsCut c) (rest : List Char) : AtCut (c :: rest) := by
  rintro _ _ ⟨rfl, rfl⟩
  exact cut

theorem uncut_of_blank {cs : List Char} (blank : ∀ c ∈ cs, Text.isBlank c = true) :
    ∀ c ∈ cs, ¬ IsCut c := by
  rintro c mem (rfl | rfl | rfl)
  all_goals exact absurd (blank _ mem) (by decide)

theorem exists_run (cs : List Char) :
    ∃ run rest, cs = run ++ rest ∧ (∀ c ∈ run, ¬ IsCut c) ∧ AtCut rest := by
  induction cs with
  | nil => exact ⟨[], [], rfl, List.forall_mem_nil _, atCut_nil⟩
  | cons c cs ih =>
    by_cases cut : IsCut c
    · exact ⟨[], c :: cs, rfl, List.forall_mem_nil _, atCut_cons cut cs⟩
    · obtain ⟨run, rest, rfl, uncut, ends⟩ := ih
      exact ⟨c :: run, rest, rfl, List.forall_mem_cons.2 ⟨cut, uncut⟩, ends⟩

/-- A run ends in one place. -/
theorem run_unique {run run' rest rest' : List Char} (uncut : ∀ c ∈ run, ¬ IsCut c)
    (uncut' : ∀ c ∈ run', ¬ IsCut c) (ends : AtCut rest) (ends' : AtCut rest')
    (same : run ++ rest = run' ++ rest') : run = run' ∧ rest = rest' := by
  induction run generalizing run' with
  | nil =>
    cases run' with
    | nil => exact ⟨rfl, same⟩
    | cons c run' => exact absurd (ends c _ same) (uncut' c (List.mem_cons_self ..))
  | cons c run ih =>
    obtain ⟨own, others⟩ := List.forall_mem_cons.1 uncut
    cases run' with
    | nil => exact absurd (ends' c _ same.symm) own
    | cons c' run' =>
      obtain ⟨rfl, tails⟩ := List.cons.inj same
      obtain ⟨rfl, rest⟩ := ih others (List.forall_mem_cons.1 uncut').2 tails
      exact ⟨rfl, rest⟩

/-! How a text is cut. -/

@[simp] theorem ofRun_nil : ofRun [] = [] :=
  rfl

theorem ofRun_of_blank {run : List Char} (blank : ∀ c ∈ run, Text.isBlank c = true) :
    ofRun run.reverse = [] := by
  rw [ofRun, List.reverse_reverse]
  exact if_pos (Text.trimChars_eq_nil_iff.2 blank)

theorem ofRun_of_named {run : List Char} (named : Text.trimChars run ≠ []) :
    ofRun run.reverse = [.word (String.ofList (Text.trimChars run))] := by
  rw [ofRun, List.reverse_reverse]
  exact if_neg named

theorem scan_atCut {cs : List Char} (cut : AtCut cs) (run : List Char) :
    scan run cs = ofRun run ++ scan [] cs := by
  cases cs with
  | nil => simp [scan]
  | cons c rest =>
    obtain rfl | rfl | rfl := cut c rest rfl
    all_goals simp [scan]

theorem scan_other {c : Char} (other : ¬ IsCut c) (run cs : List Char) :
    scan run (c :: cs) = scan (c :: run) cs := by
  obtain ⟨opening, closing, comma⟩ : c ≠ '(' ∧ c ≠ ')' ∧ c ≠ ',' := by
    simpa only [IsCut, not_or] using other
  rw [scan, if_neg opening, if_neg closing, if_neg comma]

theorem scan_uncut {cs : List Char} (uncut : ∀ c ∈ cs, ¬ IsCut c) (run rest : List Char) :
    scan run (cs ++ rest) = scan (cs.reverse ++ run) rest := by
  induction cs generalizing run with
  | nil => rfl
  | cons c cs ih =>
    obtain ⟨own, others⟩ := List.forall_mem_cons.1 uncut
    rw [List.cons_append, scan_other own, ih others, List.reverse_cons, List.append_assoc,
      List.singleton_append]

theorem scan_run {run rest : List Char} (uncut : ∀ c ∈ run, ¬ IsCut c) (cut : AtCut rest) :
    scan [] (run ++ rest) = ofRun run.reverse ++ scan [] rest := by
  rw [scan_uncut uncut, List.append_nil, scan_atCut cut]

theorem scan_blank {front rest : List Char} (blank : ∀ c ∈ front, Text.isBlank c = true)
    (cut : AtCut rest) : scan [] (front ++ rest) = scan [] rest := by
  rw [scan_run (uncut_of_blank blank) cut, ofRun_of_blank blank, List.nil_append]

theorem scan_named {run rest : List Char} (uncut : ∀ c ∈ run, ¬ IsCut c)
    (named : Text.trimChars run ≠ []) (cut : AtCut rest) :
    scan [] (run ++ rest) = .word (String.ofList (Text.trimChars run)) :: scan [] rest := by
  rw [scan_run uncut cut, ofRun_of_named named, List.singleton_append]

/-- The character that a cut stands for. -/
def char? : ArgumentToken → Option Char
  | opening => some '('
  | closing => some ')'
  | comma => some ','
  | word _ => none

theorem exists_char_of_scan {cs : List Char} (cut : AtCut cs) {t : ArgumentToken}
    {ts : List ArgumentToken} (scanned : scan [] cs = t :: ts) :
    ∃ c rest, cs = c :: rest ∧ t.char? = some c ∧ scan [] rest = ts := by
  cases cs with
  | nil => cases scanned
  | cons c rest =>
    obtain rfl | rfl | rfl := cut c rest rfl
    · rw [scan, if_pos rfl] at scanned
      cases scanned
      exact ⟨_, _, rfl, rfl, rfl⟩
    · rw [scan, if_neg (by decide), if_pos rfl] at scanned
      cases scanned
      exact ⟨_, _, rfl, rfl, rfl⟩
    · rw [scan, if_neg (by decide), if_neg (by decide), if_pos rfl] at scanned
      cases scanned
      exact ⟨_, _, rfl, rfl, rfl⟩

theorem eq_nil_of_scan {cs : List Char} (cut : AtCut cs) (scanned : scan [] cs = []) : cs = [] := by
  cases cs with
  | nil => rfl
  | cons c rest =>
    obtain rfl | rfl | rfl := cut c rest rfl
    all_goals simp [scan] at scanned

/-- No word comes first. -/
def NoWord (ts : List ArgumentToken) : Prop :=
  ∀ w rest, ts ≠ .word w :: rest

theorem noWord_nil : NoWord [] := by
  intro w rest eq
  cases eq

theorem noWord_of_char? {t : ArgumentToken} {c : Char} (cut : t.char? = some c)
    (ts : List ArgumentToken) : NoWord (t :: ts) := by
  intro w rest eq
  cases eq
  cases cut

/-- A word is made by a run. -/
theorem exists_run_of_scan {cs : List Char} {w : String} {ts : List ArgumentToken}
    (scanned : scan [] cs = .word w :: ts) :
    ∃ run rest, cs = run ++ rest ∧ (∀ c ∈ run, ¬ IsCut c) ∧ AtCut rest ∧
      Text.trimChars run ≠ [] ∧ w = String.ofList (Text.trimChars run) ∧ scan [] rest = ts := by
  obtain ⟨run, rest, rfl, uncut, cut⟩ := exists_run cs
  by_cases named : Text.trimChars run = []
  · rw [scan_blank (Text.trimChars_eq_nil_iff.1 named) cut] at scanned
    obtain ⟨c, _, -, none, -⟩ := exists_char_of_scan cut scanned
    cases none
  · rw [scan_named uncut named cut] at scanned
    cases scanned
    exact ⟨run, rest, rfl, uncut, cut, named, rfl, rfl⟩

/-- Where no word comes first there are blanks up to the next cut. -/
theorem exists_blank_of_scan {cs : List Char} {ts : List ArgumentToken} (scanned : scan [] cs = ts)
    (noWord : NoWord ts) :
    ∃ front rest, cs = front ++ rest ∧ (∀ c ∈ front, Text.isBlank c = true) ∧ AtCut rest ∧
      scan [] rest = ts := by
  obtain ⟨run, rest, rfl, uncut, cut⟩ := exists_run cs
  by_cases named : Text.trimChars run = []
  · have blank := Text.trimChars_eq_nil_iff.1 named
    exact ⟨run, rest, rfl, blank, cut, (scan_blank blank cut).symm.trans scanned⟩
  · exact absurd (scanned.symm.trans (scan_named uncut named cut)) (noWord _ _)

end ArgumentToken

/-- What is read of a variable depends on the trimmed text. -/
theorem Variable.parse_trim_eq_ok_iff {text : String} {v : Variable} :
    parse (Text.trim text) = .ok v ↔ parse text = .ok v := by
  have same : read? (Text.trim text) = read? text := by rw [read?, read?, Text.trim_trim]
  unfold parse
  rw [same]
  cases read? text <;> simp

theorem Variable.named_of_parse {run : List Char} {v : Variable}
    (accepted : parse (String.ofList run) = .ok v) : Text.trimChars run ≠ [] := by
  intro empty
  have none : read? (String.ofList run) = none := by
    rw [read?, Text.toList_trim, String.toList_ofList, empty, readChars?]
  rw [parse, none] at accepted
  cases accepted

/-- A part of the text that the grammar derives from its rule for an argument. Every character of
the part is in a run or among the blanks, apart from the commas and parentheses of the rules. -/
inductive Phrase where
  | word (run : List Char)
  | call (front name : List Char) (arguments : List Phrase) (back : List Char)

namespace Phrase

mutual

def spelling : Phrase → List Char
  | word run => run
  | call front name arguments back =>
    front ++ '(' :: (name ++ (moreSpelling arguments ++ ')' :: back))

/-- Further phrases, each after a comma. -/
def moreSpelling : List Phrase → List Char
  | [] => []
  | d :: ds => ',' :: (d.spelling ++ moreSpelling ds)

end

def listSpelling : List Phrase → List Char
  | [] => []
  | d :: ds => d.spelling ++ moreSpelling ds

/-- The phrase keeps to the rules, and this is the argument that it stands for. A variable is a run
that is read as one, and a name is a run with more than blanks in it. -/
inductive Denotes : Phrase → Argument → Prop where
  | var {run : List Char} {v : Variable} (uncut : ∀ c ∈ run, ¬ IsCut c)
      (accepted : Variable.parse (String.ofList run) = .ok v) :
    Denotes (word run) (.var v)
  | call {front name back : List Char} {ds : List Phrase} {as : List Argument}
      (front_blank : ∀ c ∈ front, Text.isBlank c = true) (uncut : ∀ c ∈ name, ¬ IsCut c)
      (named : Text.trimChars name ≠ []) (back_blank : ∀ c ∈ back, Text.isBlank c = true)
      (inner : List.Forall₂ Denotes ds as) :
    Denotes (call front name ds back) (.call (String.ofList (Text.trimChars name)) as)

/-- The phrases derive the text by the rule for a list, and stand for these arguments. -/
structure Derive (ds : List Phrase) (text : String) (as : List Argument) : Prop where
  nonempty : ds ≠ []
  spelled : listSpelling ds = text.toList
  denote : List.Forall₂ Denotes ds as

theorem atCut_moreSpelling (ds : List Phrase) {rest : List Char} (cut : AtCut rest) :
    AtCut (moreSpelling ds ++ rest) := by
  cases ds with
  | nil => exact cut
  | cons d ds => exact atCut_cons (.inr (.inr rfl)) _

theorem atCut_closing (rest : List Char) : AtCut (')' :: rest) :=
  atCut_cons (.inr (.inl rfl)) rest

/-! What a phrase is cut into, and what is read of it. -/

mutual

def tokens : Phrase → List ArgumentToken
  | word run => [.word (String.ofList (Text.trimChars run))]
  | call _ name arguments _ =>
    .opening :: .word (String.ofList (Text.trimChars name)) :: (moreTokens arguments ++ [.closing])

def moreTokens : List Phrase → List ArgumentToken
  | [] => []
  | d :: ds => .comma :: (d.tokens ++ moreTokens ds)

end

mutual

theorem scan_spelling : ∀ (d : Phrase) {a : Argument}, d.Denotes a → ∀ {rest}, AtCut rest →
    scan [] (d.spelling ++ rest) = d.tokens ++ scan [] rest
  | word run, a, denotes, rest, cut => by
    cases denotes with
    | var uncut accepted => exact scan_named uncut (Variable.named_of_parse accepted) cut
  | call front name ds back, a, denotes, rest, cut => by
    cases denotes with
    | call front_blank uncut named back_blank inner =>
      have start : (call front name ds back).spelling ++ rest =
          front ++ '(' :: (name ++ (moreSpelling ds ++ ')' :: (back ++ rest))) := by
        simp [spelling]
      rw [start, scan_blank front_blank (atCut_cons (.inl rfl) _), scan, if_pos rfl, ofRun_nil,
        List.nil_append, scan_named uncut named (atCut_moreSpelling ds (atCut_closing _)),
        scan_moreSpelling ds inner (atCut_closing _), scan, if_neg (by decide), if_pos rfl,
        ofRun_nil, List.nil_append, scan_blank back_blank cut]
      simp [tokens]

theorem scan_moreSpelling : ∀ (ds : List Phrase) {as : List Argument},
    List.Forall₂ Denotes ds as → ∀ {rest}, AtCut rest →
      scan [] (moreSpelling ds ++ rest) = moreTokens ds ++ scan [] rest
  | [], _, _, _, _ => rfl
  | d :: ds, as, denote, rest, cut => by
    obtain _ | ⟨first, others⟩ := denote
    have start : moreSpelling (d :: ds) ++ rest = ',' :: (d.spelling ++ (moreSpelling ds ++ rest)) :=
      by simp [moreSpelling]
    rw [start, scan, if_neg (by decide), if_neg (by decide), if_pos rfl, ofRun_nil, List.nil_append,
      scan_spelling d first (atCut_moreSpelling ds cut), scan_moreSpelling ds others cut]
    simp [moreTokens]

end

mutual

theorem read_tokens (text : String) : ∀ (d : Phrase) {a : Argument}, d.Denotes a → ∀ rest,
    ∃ shorter, Argument.read text (d.tokens ++ rest) = .ok (a, ⟨rest, shorter⟩)
  | word run, a, denotes, rest => by
    cases denotes with
    | var uncut accepted =>
      have trimmed := Variable.parse_trim_eq_ok_iff.2 accepted
      rw [Text.trim, String.toList_ofList] at trimmed
      rw [tokens, List.singleton_append, Argument.read, trimmed]
      exact ⟨by simp, rfl⟩
  | call front name ds back, a, denotes, rest => by
    cases denotes with
    | call front_blank uncut named back_blank inner =>
      have start : (call front name ds back).tokens ++ rest = .opening ::
          .word (String.ofList (Text.trimChars name)) :: (moreTokens ds ++ .closing :: rest) := by
        simp [tokens]
      obtain ⟨short, eq⟩ := readMore_tokens text ds inner (.closing :: rest) fun _ eq => nomatch eq
      rw [start, Argument.read, eq]
      exact ⟨by simp; omega, rfl⟩

theorem readMore_tokens (text : String) : ∀ (ds : List Phrase) {as : List Argument},
    List.Forall₂ Denotes ds as → ∀ rest, (∀ more, rest ≠ .comma :: more) →
      ∃ short, Argument.readMore text (moreTokens ds ++ rest) = .ok (as, ⟨rest, short⟩)
  | [], as, denote, rest, ended => by
    cases denote
    rw [moreTokens, List.nil_append]
    unfold Argument.readMore
    split
    · exact absurd rfl (ended _)
    · exact ⟨Nat.le_refl _, rfl⟩
  | d :: ds, as, denote, rest, ended => by
    obtain _ | ⟨first, others⟩ := denote
    have start : moreTokens (d :: ds) ++ rest = .comma :: (d.tokens ++ (moreTokens ds ++ rest)) := by
      simp [moreTokens]
    obtain ⟨shorter, own⟩ := read_tokens text d first (moreTokens ds ++ rest)
    obtain ⟨short, more⟩ := readMore_tokens text ds others rest ended
    rw [start, Argument.readMore, own]
    simp only [bind, Except.bind]
    rw [more]
    exact ⟨by simp; omega, rfl⟩

end

/-- Further arguments do not begin with a word, and reading does not go past one. -/
theorem noWord_of_readMore {text : String} {ts : List ArgumentToken} {as : List Argument}
    {rest : { rest : List ArgumentToken // rest.length ≤ ts.length }}
    (h : Argument.readMore text ts = .ok (as, rest)) (noWord : NoWord rest.val) : NoWord ts := by
  rintro w tail rfl
  rw [Argument.readMore] at h
  · cases h
    exact noWord w tail rfl
  · exact fun _ => nofun

/-- What is read is what phrases stand for, up to where the next argument or the end of the text
would be. -/
theorem exists_of_reads (text : String) :
    (∀ ts a rest, Argument.read text ts = .ok (a, rest) → NoWord rest.val →
      ∀ cs, scan [] cs = ts → ∃ (d : Phrase) (left : List Char),
        d.Denotes a ∧ cs = d.spelling ++ left ∧ AtCut left ∧ scan [] left = rest.val) ∧
    ∀ ts as rest, Argument.readMore text ts = .ok (as, rest) → NoWord rest.val →
      ∀ cs, AtCut cs → scan [] cs = ts → ∃ (ds : List Phrase) (left : List Char),
        List.Forall₂ Denotes ds as ∧ cs = moreSpelling ds ++ left ∧ AtCut left ∧
          scan [] left = rest.val := by
  apply Argument.read.mutual_induct
  case case1 =>
    intro w inner a rest h _ cs scanned
    rw [Argument.read] at h
    obtain ⟨v, accepted, h⟩ := bind_eq_ok.1 h
    cases h
    obtain ⟨run, left, rfl, uncut, cut, -, rfl, remains⟩ := exists_run_of_scan scanned
    have accepted : Variable.parse (String.ofList run) = .ok v := by
      rw [← Variable.parse_trim_eq_ok_iff, Text.trim, String.toList_ofList, accepted]
    exact ⟨.word run, left, .var uncut accepted, rfl, cut, remains⟩
  case case2 =>
    intro f inner ih a rest h noWord cs scanned
    rw [Argument.read] at h
    obtain ⟨⟨as, after, short⟩, more, h⟩ := bind_eq_ok.1 h
    dsimp only at h
    split at h
    · rename_i last _
      cases h
      obtain ⟨front, _, rfl, front_blank, cut, opened⟩ :=
        exists_blank_of_scan scanned (noWord_of_char? rfl _)
      obtain ⟨_, _, rfl, ⟨⟩, inside⟩ := exists_char_of_scan cut opened
      obtain ⟨name, _, rfl, uncut, cut, named, rfl, listed⟩ := exists_run_of_scan inside
      obtain ⟨ds, _, denote, rfl, cut, closed⟩ := ih _ _ more (noWord_of_char? rfl _) _ cut listed
      obtain ⟨_, _, rfl, ⟨⟩, remains⟩ := exists_char_of_scan cut closed
      -- The blanks after a closing parenthesis belong to the phrase. As no word follows, they reach
      -- up to a cut.
      obtain ⟨back, left, rfl, back_blank, cut, remains⟩ := exists_blank_of_scan remains noWord
      refine ⟨.call front name ds back, left, .call front_blank uncut named back_blank denote, ?_,
        cut, remains⟩
      simp [spelling]
    · cases h
  case case3 =>
    intro tail unnamed a rest h
    rw [Argument.read] at h
    · cases h
    · exact unnamed
  case case4 =>
    intro ts noWord noCall noOpening a rest h
    rw [Argument.read] at h
    · cases h
    · exact noWord
    · exact noCall
    · exact noOpening
  case case5 =>
    intro inner ihRead ihMore as rest h noWord cs cut scanned
    rw [Argument.readMore] at h
    obtain ⟨⟨a, middle, shorter⟩, first, h⟩ := bind_eq_ok.1 h
    obtain ⟨⟨others, last, short⟩, more, h⟩ := bind_eq_ok.1 h
    cases h
    have between : NoWord middle := noWord_of_readMore more noWord
    obtain ⟨_, _, rfl, ⟨⟩, inside⟩ := exists_char_of_scan cut scanned
    obtain ⟨d, _, denotes, rfl, cut, listed⟩ := ihRead _ _ first between _ inside
    obtain ⟨ds, left, denote, rfl, cut, remains⟩ :=
      ihMore middle shorter _ _ more noWord _ cut listed
    refine ⟨d :: ds, left, .cons denotes denote, ?_, cut, remains⟩
    simp [moreSpelling]
  case case6 =>
    intro ts ended as rest h noWord cs cut scanned
    rw [Argument.readMore] at h
    · cases h
      exact ⟨[], cs, .nil, rfl, cut, scanned⟩
    · exact ended

/-! No text is spelled in two ways. -/

theorem word_ne_call {run front inside rest : List Char} {v : Variable}
    (uncut : ∀ c ∈ run, ¬ IsCut c) (accepted : Variable.parse (String.ofList run) = .ok v)
    (cut : AtCut rest) (blank : ∀ c ∈ front, Text.isBlank c = true) :
    run ++ rest ≠ front ++ '(' :: inside := by
  intro same
  obtain ⟨rfl, -⟩ := run_unique uncut (uncut_of_blank blank) cut (atCut_cons (.inl rfl) _) same
  exact Variable.named_of_parse accepted (Text.trimChars_eq_nil_iff.2 blank)

mutual

theorem spelling_unique : ∀ (d : Phrase) {d' : Phrase} {a a' : Argument} {rest rest' : List Char},
    d.Denotes a → d'.Denotes a' → AtCut rest → AtCut rest' →
      d.spelling ++ rest = d'.spelling ++ rest' → d = d' ∧ rest = rest'
  | word run, d', a, a', rest, rest', denotes, denotes', cut, cut', same => by
    obtain ⟨uncut, accepted⟩ := denotes
    cases denotes' with
    | var uncut' accepted' =>
      obtain ⟨rfl, ends⟩ := run_unique uncut uncut' cut cut' same
      exact ⟨rfl, ends⟩
    | call front_blank =>
      rw [spelling, spelling, List.append_assoc] at same
      exact absurd same (word_ne_call uncut accepted cut front_blank)
  | call front name ds back, d', a, a', rest, rest', denotes, denotes', cut, cut', same => by
    cases denotes with
    | call front_blank uncut named back_blank inner =>
      cases denotes' with
      | var uncut' accepted' =>
        rw [spelling, spelling, List.append_assoc] at same
        exact absurd same.symm (word_ne_call uncut' accepted' cut' front_blank)
      | @call front' name' back' ds' _ front_blank' uncut' _ back_blank' inner' =>
        simp only [spelling, List.append_assoc, List.cons_append] at same
        have ends := @atCut_moreSpelling
        obtain ⟨rfl, opened⟩ := run_unique (uncut_of_blank front_blank)
          (uncut_of_blank front_blank') (atCut_cons (.inl rfl) _) (atCut_cons (.inl rfl) _) same
        obtain ⟨rfl, listed⟩ := run_unique uncut uncut' (ends ds (atCut_closing _))
          (ends ds' (atCut_closing _)) (List.cons.inj opened).2
        obtain ⟨rfl, closed⟩ := moreSpelling_unique ds inner inner' (atCut_closing _)
          (atCut_closing _) (fun _ => nofun) (fun _ => nofun) listed
        obtain ⟨rfl, remains⟩ := run_unique (uncut_of_blank back_blank)
          (uncut_of_blank back_blank') cut cut' (List.cons.inj closed).2
        exact ⟨rfl, remains⟩

theorem moreSpelling_unique : ∀ (ds : List Phrase) {ds' : List Phrase} {as as' : List Argument}
    {rest rest' : List Char}, List.Forall₂ Denotes ds as → List.Forall₂ Denotes ds' as' →
      AtCut rest → AtCut rest' → (∀ more, rest ≠ ',' :: more) → (∀ more, rest' ≠ ',' :: more) →
        moreSpelling ds ++ rest = moreSpelling ds' ++ rest' → ds = ds' ∧ rest = rest'
  | [], ds', as, as', rest, rest', _, denote', _, _, ended, _, same => by
    cases denote' with
    | nil => exact ⟨rfl, same⟩
    | cons => exact absurd same (ended _)
  | d :: ds, ds', as, as', rest, rest', denote, denote', cut, cut', ended, ended', same => by
    obtain _ | ⟨first, others⟩ := denote
    cases denote' with
    | nil => exact absurd same.symm (ended' _)
    | @cons d' _ ds' _ first' others' =>
      have same : d.spelling ++ (moreSpelling ds ++ rest) =
          d'.spelling ++ (moreSpelling ds' ++ rest') := by
        simpa [moreSpelling] using same
      obtain ⟨rfl, tails⟩ := spelling_unique d first first' (atCut_moreSpelling ds cut)
        (atCut_moreSpelling ds' cut') same
      obtain ⟨rfl, ends⟩ := moreSpelling_unique ds others others' cut cut' ended ended' tails
      exact ⟨rfl, ends⟩

end

theorem Derive.unique {ds ds' : List Phrase} {text : String} {as as' : List Argument}
    (derive : Derive ds text as) (derive' : Derive ds' text as') : ds = ds' := by
  obtain ⟨nonempty, spelled, denote⟩ := derive
  obtain ⟨nonempty', spelled', denote'⟩ := derive'
  obtain _ | ⟨first, others⟩ := denote
  · exact absurd rfl nonempty
  obtain _ | ⟨first', others'⟩ := denote'
  · exact absurd rfl nonempty'
  have ends (ds : List Phrase) : AtCut (moreSpelling ds) := by
    simpa using atCut_moreSpelling ds atCut_nil
  obtain ⟨rfl, tails⟩ :=
    spelling_unique _ first first' (ends _) (ends _) (spelled.trans spelled'.symm)
  obtain ⟨rfl, -⟩ := moreSpelling_unique _ others others' atCut_nil atCut_nil (fun _ => nofun)
    (fun _ => nofun) (congrArg (· ++ []) tails)
  rfl

end Phrase

namespace Argument

theorem readList_of_denote {d : Phrase} {ds : List Phrase} {a : Argument} {as : List Argument}
    (first : d.Denotes a) (others : List.Forall₂ Phrase.Denotes ds as) {text : String}
    (spelled : Phrase.listSpelling (d :: ds) = text.toList) : readList text = .ok (a :: as) := by
  have scanned : scan [] text.toList = d.tokens ++ Phrase.moreTokens ds := by
    have ends := Phrase.scan_moreSpelling ds others atCut_nil
    have cut := Phrase.atCut_moreSpelling ds atCut_nil
    rw [List.append_nil] at ends cut
    rw [← spelled, Phrase.listSpelling, Phrase.scan_spelling d first cut, ends]
    simp [scan]
  obtain ⟨shorter, own⟩ := Phrase.read_tokens text d first (Phrase.moreTokens ds)
  have ended := Phrase.readMore_tokens text ds others [] fun _ eq => nomatch eq
  rw [List.append_nil] at ended
  obtain ⟨short, more⟩ := ended
  have nonempty : d.tokens ++ Phrase.moreTokens ds ≠ [] := by cases d <;> simp [Phrase.tokens]
  rw [readList, scanned]
  split
  · rename_i empty
    exact absurd empty nonempty
  · exact bind_eq_ok.2 ⟨_, own, bind_eq_ok.2 ⟨_, more, rfl⟩⟩

/-- A list is read where it is blank, and where phrases spell it. -/
theorem readList_eq_ok_iff {text : String} {as : List Argument} : readList text = .ok as ↔
    ((∀ c ∈ text.toList, Text.isBlank c = true) ∧ as = []) ∨ ∃ ds, Phrase.Derive ds text as := by
  constructor
  · intro h
    obtain ⟨onRead, onMore⟩ := Phrase.exists_of_reads text
    unfold readList at h
    split at h
    · rename_i empty
      cases h
      obtain ⟨front, rest, spelled, blank, cut, none⟩ :=
        exists_blank_of_scan empty noWord_nil
      obtain rfl := eq_nil_of_scan cut none
      rw [spelled, List.append_nil]
      exact .inl ⟨blank, rfl⟩
    · obtain ⟨⟨a, left, shorter⟩, first, h⟩ := bind_eq_ok.1 h
      obtain ⟨⟨others, last, short⟩, more, h⟩ := bind_eq_ok.1 h
      dsimp only at h
      split at h
      · rename_i ended
        cases h
        have noWord : NoWord last := ended ▸ noWord_nil
        obtain ⟨d, _, denotes, spelled, cut, scanned⟩ :=
          onRead _ _ _ first (Phrase.noWord_of_readMore more noWord) _ rfl
        obtain ⟨ds, rest, denote, rfl, cut, none⟩ := onMore _ _ _ more noWord _ cut scanned
        obtain rfl := eq_nil_of_scan cut (none.trans ended)
        rw [List.append_nil] at spelled
        exact .inr ⟨d :: ds, List.cons_ne_nil _ _, spelled.symm, .cons denotes denote⟩
      · cases h
  · rintro (⟨blank, rfl⟩ | ⟨ds, nonempty, spelled, denote⟩)
    · have scanned : scan [] text.toList = [] := by
        have scanned := scan_blank blank atCut_nil
        rwa [List.append_nil] at scanned
      rw [readList, scanned]
      rfl
    · obtain _ | ⟨first, others⟩ := denote
      · exact absurd rfl nonempty
      · exact readList_of_denote first others spelled

/-- What is not read is refused for the form of the list, or for a run that is no variable. -/
theorem refused_of_reads (text : String) :
    (∀ ts e, read text ts = .error e →
      (∃ fault, e = .malformedArguments text fault) ∨ ∃ w, Variable.parse w = .error e) ∧
    ∀ ts e, readMore text ts = .error e →
      (∃ fault, e = .malformedArguments text fault) ∨ ∃ w, Variable.parse w = .error e := by
  apply read.mutual_induct
  case case1 =>
    intro w inner e h
    rw [read] at h
    obtain refused | ⟨v, -, h⟩ := bind_eq_error.1 h
    · exact .inr ⟨w, refused⟩
    · cases h
  case case2 =>
    intro f inner ih e h
    rw [read] at h
    obtain refused | ⟨⟨as, rest, short⟩, -, h⟩ := bind_eq_error.1 h
    · exact ih e refused
    · dsimp only at h
      split at h
      · cases h
      · cases h
        exact .inl ⟨_, rfl⟩
  case case3 =>
    intro tail unnamed e h
    rw [read] at h
    · cases h
      exact .inl ⟨_, rfl⟩
    · exact unnamed
  case case4 =>
    intro ts noWord noCall noOpening e h
    rw [read] at h
    · cases h
      exact .inl ⟨_, rfl⟩
    · exact noWord
    · exact noCall
    · exact noOpening
  case case5 =>
    intro inner ihRead ihMore e h
    rw [readMore] at h
    obtain refused | ⟨⟨a, rest, shorter⟩, -, h⟩ := bind_eq_error.1 h
    · exact ihRead e refused
    · obtain refused | ⟨_, -, h⟩ := bind_eq_error.1 h
      · exact ihMore rest shorter e refused
      · cases h
  case case6 =>
    intro ts ended e h
    rw [readMore] at h
    · cases h
    · exact ended

theorem refused_of_readList {text : String} {e : Refusal} (h : readList text = .error e) :
    (∃ fault, e = .malformedArguments text fault) ∨ ∃ w, Variable.parse w = .error e := by
  obtain ⟨onRead, onMore⟩ := refused_of_reads text
  unfold readList at h
  split at h
  · cases h
  · obtain refused | ⟨_, -, h⟩ := bind_eq_error.1 h
    · exact onRead _ e refused
    · obtain refused | ⟨⟨_, last, _⟩, -, h⟩ := bind_eq_error.1 h
      · exact onMore _ e refused
      · dsimp only at h
        split at h
        · cases h
        · cases h
          exact .inl ⟨_, rfl⟩

end Argument

namespace Call

theorem parse_eq_ok_iff {function arguments : String} {c : Call} :
    parse function arguments = .ok c ↔ Text.trim function ≠ "" ∧
      c.function = Text.trim function ∧ Argument.readList arguments = .ok c.arguments := by
  unfold parse
  dsimp only
  split
  · rename_i empty
    exact iff_of_false nofun fun named => named.1 empty
  · rename_i named
    rw [bind_eq_ok]
    constructor
    · rintro ⟨as, read, h⟩
      cases h
      exact ⟨named, rfl, read⟩
    · rintro ⟨-, own, read⟩
      refine ⟨c.arguments, read, ?_⟩
      rw [← own]
      rfl

/-- The texts of calls are those of the grammar. A call is read exactly if its function has a name
and its arguments are blank or derived by phrases, and it is read as what the phrases stand for, in
the only way there is. Any other text is refused, for its form or for a run that is no variable. -/
theorem parse_accepts_grammar (function arguments : String) :
    (∀ c, parse function arguments = .ok c ↔
      Text.trim function ≠ "" ∧ c.function = Text.trim function ∧
        (((∀ ch ∈ arguments.toList, Text.isBlank ch = true) ∧ c.arguments = []) ∨
          ∃ ds, Phrase.Derive ds arguments c.arguments)) ∧
    (∀ ds ds' as as', Phrase.Derive ds arguments as → Phrase.Derive ds' arguments as' →
      ds = ds' ∧ as = as') ∧
    ∀ e, parse function arguments = .error e →
      (∃ fault, e = .malformedArguments arguments fault) ∨ ∃ w, Variable.parse w = .error e := by
  refine ⟨fun c => ?_, fun ds ds' as as' derive derive' => ⟨derive.unique derive', ?_⟩,
    fun e h => ?_⟩
  · rw [parse_eq_ok_iff, Argument.readList_eq_ok_iff]
  · have read := Argument.readList_eq_ok_iff.2 (.inr ⟨ds, derive⟩)
    rw [Argument.readList_eq_ok_iff.2 (.inr ⟨ds', derive'⟩)] at read
    exact (Except.ok.inj read).symm
  · unfold parse at h
    dsimp only at h
    split at h
    · cases h
      exact .inl ⟨_, rfl⟩
    · obtain refused | ⟨_, -, h⟩ := bind_eq_error.1 h
      · exact Argument.refused_of_readList refused
      · cases h

/-- A list of two arguments with blanks in many places. -/
theorem parse_accepts_grammar_nested :
    let arguments := [.var (.input .one), .call "aDd" [.var .result]]
    (∃ ds, Phrase.Derive ds " X1 ,( aDd, y\t) " arguments ∧
      ∀ ds' as, Phrase.Derive ds' " X1 ,( aDd, y\t) " as → ds = ds' ∧ arguments = as) ∧
    parse " F\n" " X1 ,( aDd, y\t) " = .ok ⟨"F", arguments⟩ := by
  intro arguments
  have result : (Phrase.word [' ', 'y', '\t']).Denotes (.var .result) :=
    .var (by simp [IsCut]) rfl
  have call : (Phrase.call [] [' ', 'a', 'D', 'd'] [.word [' ', 'y', '\t']] [' ']).Denotes
      (.call "aDd" [.var .result]) :=
    .call (List.forall_mem_nil _) (by simp [IsCut]) (by decide) (List.forall_mem_singleton.2 rfl)
      (.cons result .nil)
  have first : (Phrase.word [' ', 'X', '1', ' ']).Denotes (.var (.input .one)) :=
    .var (by simp [IsCut]) rfl
  have derive : Phrase.Derive _ " X1 ,( aDd, y\t) " arguments :=
    ⟨List.cons_ne_nil _ _, rfl, .cons first (.cons call .nil)⟩
  obtain ⟨accepts, unique, -⟩ := parse_accepts_grammar " F\n" " X1 ,( aDd, y\t) "
  exact ⟨⟨_, derive, fun ds' as => unique _ ds' _ as derive⟩,
    (accepts _).2 ⟨by decide, by decide, .inr ⟨_, derive⟩⟩⟩

end Call

end SLanguage
