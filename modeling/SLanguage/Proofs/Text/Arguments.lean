import SLanguage.Proofs.Text.Grammar

/-! Argument lists as text. The words of a text have no blanks around them and no cuts in
them. A list whose function names are such words is read as what it was written for, and
whatever is read is such a list. -/

namespace SLanguage

open ArgumentToken

/-- What a word of an argument list can be. -/
structure ArgumentToken.IsWord (w : String) : Prop where
  trimmed : Text.trim w = w
  nonempty : w ≠ ""
  uncut : ∀ c ∈ w.toList, ¬ IsCut c

theorem ArgumentToken.IsWord.trimChars_toList {w : String} (word : IsWord w) :
    Text.trimChars w.toList = w.toList := by
  rw [← Text.toList_trim, word.trimmed]

/-- A run of characters is trimmed to a word. -/
theorem ArgumentToken.isWord_of_run {run : List Char} (uncut : ∀ c ∈ run, ¬ IsCut c)
    (named : Text.trimChars run ≠ []) : IsWord (String.ofList (Text.trimChars run)) where
  trimmed := by rw [Text.trim, String.toList_ofList, Text.trimChars_trimChars]
  nonempty eq := by
    rw [← String.toList_inj, String.toList_ofList] at eq
    exact named eq
  uncut c mem := by
    rw [String.toList_ofList] at mem
    exact uncut c (Text.mem_of_mem_trimChars mem)

theorem Variable.isWord_toText (v : Variable) : IsWord v.toText where
  trimmed := Text.trim_of_isAlphanum v.isAlphanum_toText
  nonempty eq := by
    cases v with
    | result => exact absurd eq (by decide)
    | input n =>
      have chars := toList_toText_input n
      rw [eq] at chars
      cases chars
    | work n =>
      have chars := toList_toText_work n
      rw [eq] at chars
      cases chars
  uncut c mem cut := by
    have solid := v.isAlphanum_toText c mem
    obtain rfl | rfl | rfl := cut
    all_goals exact absurd solid (by decide)

namespace Argument

/-- The text of further arguments, each after a comma. -/
def moreText : List Argument → String
  | [] => ""
  | a :: as => "," ++ listText (a :: as)

theorem listText_cons (a : Argument) (as : List Argument) :
    listText (a :: as) = a.toText ++ moreText as := by
  cases as with
  | nil => rw [listText, moreText, String.append_empty]
  | cons b as => rw [listText, moreText, String.append_assoc]

theorem toText_call (f : String) (as : List Argument) :
    (call f as).toText = "(" ++ f ++ moreText as ++ ")" := by
  cases as with
  | nil => rw [toText, moreText, String.append_empty]
  | cons a as => simp only [toText, moreText, String.append_assoc]

mutual

/-- The phrase that the text of an argument is. -/
def phrase : Argument → Phrase
  | .var v => .word v.toText.toList
  | .call f as => .call [] f.toList (phrases as) []

def phrases : List Argument → List Phrase
  | [] => []
  | a :: as => a.phrase :: phrases as

end

mutual

theorem spelling_phrase : ∀ a : Argument, a.phrase.spelling = a.toText.toList
  | .var v => rfl
  | .call f as => by
    rw [phrase, Phrase.spelling, moreSpelling_phrases as, toText_call]
    simp

theorem moreSpelling_phrases : ∀ as : List Argument,
    Phrase.moreSpelling (phrases as) = (moreText as).toList
  | [] => rfl
  | a :: as => by
    rw [phrases, Phrase.moreSpelling, spelling_phrase a, moreSpelling_phrases as, moreText,
      listText_cons]
    simp

end

mutual

theorem denotes_phrase : ∀ a : Argument, (∀ f ∈ a.functions, IsWord f) → a.phrase.Denotes a
  | .var v, _ => by
    refine .var v.isWord_toText.uncut ?_
    rw [String.ofList_toList, Variable.parse_toText]
  | .call f as, words => by
    obtain ⟨own, others⟩ := List.forall_mem_cons.1 words
    have name := own.trimChars_toList
    have named : Text.trimChars f.toList ≠ [] := fun eq =>
      own.nonempty (String.toList_inj.1 (name.symm.trans eq))
    have denotes : (Phrase.call [] f.toList (phrases as) []).Denotes
        (.call (String.ofList (Text.trimChars f.toList)) as) :=
      .call (List.forall_mem_nil _) own.uncut named (List.forall_mem_nil _)
        (denote_phrases as others)
    rwa [name, String.ofList_toList] at denotes

theorem denote_phrases : ∀ as : List Argument, (∀ f ∈ functionsOf as, IsWord f) →
    List.Forall₂ Phrase.Denotes (phrases as) as
  | [], _ => .nil
  | a :: as, words => by
    obtain ⟨own, others⟩ := List.forall_mem_append.1 words
    exact .cons (denotes_phrase a own) (denote_phrases as others)

end

/-- The text of a list is read as the list. -/
theorem readList_listText {as : List Argument} (words : ∀ f ∈ functionsOf as, IsWord f) :
    readList (listText as) = .ok as := by
  cases as with
  | nil => rfl
  | cons a as =>
    obtain ⟨first, others⟩ := List.forall₂_cons.1 (denote_phrases (a :: as) words)
    refine readList_of_denote first others ?_
    rw [Phrase.listSpelling, spelling_phrase, moreSpelling_phrases, listText_cons,
      String.toList_append]

mutual

/-- The names in what a phrase stands for are words. -/
theorem words_of_denotes : ∀ (d : Phrase) {a : Argument}, d.Denotes a →
    ∀ f ∈ a.functions, IsWord f
  | .word run, a, denotes => by
    cases denotes
    exact List.forall_mem_nil _
  | .call front name ds back, a, denotes => by
    cases denotes with
    | call _ uncut named _ inner =>
      exact List.forall_mem_cons.2 ⟨isWord_of_run uncut named, words_of_denote ds inner⟩

theorem words_of_denote : ∀ (ds : List Phrase) {as : List Argument},
    List.Forall₂ Phrase.Denotes ds as → ∀ f ∈ functionsOf as, IsWord f
  | [], as, denote => by
    cases denote
    exact List.forall_mem_nil _
  | d :: ds, as, denote => by
    obtain _ | ⟨first, others⟩ := denote
    exact List.forall_mem_append.2 ⟨words_of_denotes d first, words_of_denote ds others⟩

end

/-- Whatever is read is a list whose function names are words. -/
theorem words_of_readList {text : String} {as : List Argument} (h : readList text = .ok as) :
    ∀ f ∈ functionsOf as, IsWord f := by
  obtain ⟨-, rfl⟩ | ⟨ds, -, -, denote⟩ := readList_eq_ok_iff.1 h
  · exact List.forall_mem_nil _
  · exact words_of_denote ds denote

end Argument

/-- A call whose text is read as the call. The name of the outer function is not part of a
list, so it may have cuts in it. -/
structure Call.Readable (c : Call) : Prop where
  trimmed : Text.trim c.function = c.function
  named : c.function ≠ ""
  inner : ∀ f ∈ Argument.functionsOf c.arguments, IsWord f

theorem Call.parse_argumentList {c : Call} (readable : c.Readable) :
    parse c.function c.argumentList = .ok c := by
  refine parse_eq_ok_iff.2 ⟨?_, readable.trimmed.symm, Argument.readList_listText readable.inner⟩
  rw [readable.trimmed]
  exact readable.named

theorem Call.readable_of_parse {function arguments : String} {c : Call}
    (h : parse function arguments = .ok c) : c.Readable := by
  obtain ⟨named, own, read⟩ := parse_eq_ok_iff.1 h
  exact ⟨by rw [own, Text.trim_trim], own ▸ named, Argument.words_of_readList read⟩

theorem Call.parse_trim (function arguments : String) :
    parse (Text.trim function) arguments = parse function arguments := by
  rw [parse, parse, Text.trim_trim]

/-- Printing and reading are inverse on the calls that can be read: such a call is read from what
is printed for it, nothing else is ever read, and what is printed for an accepted text is read and
printed as itself. -/
theorem Call.parse_argumentList_inverse :
    (∀ c : Call, c.Readable → parse c.function c.argumentList = .ok c) ∧
    (∀ function arguments c, parse function arguments = .ok c →
      c.Readable ∧ parse function c.argumentList = .ok c) ∧
    ∀ function arguments printed, (parse function arguments).map argumentList = .ok printed →
      (parse function printed).map argumentList = .ok printed := by
  have again {function arguments : String} {c : Call} (read : parse function arguments = .ok c) :
      parse function c.argumentList = .ok c := by
    have printed := parse_argumentList (readable_of_parse read)
    rwa [(parse_eq_ok_iff.1 read).2.1, parse_trim] at printed
  refine ⟨fun c => parse_argumentList, fun function arguments c read =>
    ⟨readable_of_parse read, again read⟩, fun function arguments printed h => ?_⟩
  cases read : parse function arguments with
  | error e =>
    rw [read] at h
    cases h
  | ok c =>
    rw [read] at h
    cases h
    rw [again read]
    rfl

/-- A display name outside, and inside names with a blank or a letter beyond Z. -/
theorem Call.parse_argumentList_inverse_display :
    let arguments := [.var (.input .one), .call "Const 7" [], .call "Ä" [.var .result]]
    parse "S(x)" "x1,(Const 7),(Ä,y)" = .ok ⟨"S(x)", arguments⟩ ∧
      parse " S(x)" "( Const 7 )" = .ok ⟨"S(x)", [.call "Const 7" []]⟩ ∧
      parse " S(x)" "(Const 7)" = .ok ⟨"S(x)", [.call "Const 7" []]⟩ ∧
      (parse " S(x)" "(Const 7)").map argumentList = .ok "(Const 7)" := by
  intro arguments
  obtain ⟨inverse, accepted, fixed⟩ := parse_argumentList_inverse
  have const : IsWord "Const 7" := ⟨by decide, by decide, by simp [IsCut]⟩
  have umlaut : IsWord "Ä" := ⟨by decide, by decide, by simp [IsCut]⟩
  have readable : (Call.mk "S(x)" arguments).Readable :=
    ⟨by decide, by decide, List.forall_mem_cons.2 ⟨const, List.forall_mem_singleton.2 umlaut⟩⟩
  have spaced : parse " S(x)" "( Const 7 )" = .ok ⟨"S(x)", [.call "Const 7" []]⟩ := by
    have denotes : (Phrase.call [] " Const 7 ".toList [] []).Denotes (.call "Const 7" []) :=
      .call (List.forall_mem_nil _) (by simp [IsCut]) (by decide) (List.forall_mem_nil _) .nil
    refine parse_eq_ok_iff.2 ⟨by decide, by decide, ?_⟩
    exact Argument.readList_eq_ok_iff.2 (.inr ⟨_, List.cons_ne_nil _ _, rfl, .cons denotes .nil⟩)
  have text : (Call.mk "S(x)" arguments).argumentList = "x1,(Const 7),(Ä,y)" := by decide +kernel
  have whole := inverse _ readable
  rw [text] at whole
  have printed := fixed " S(x)" "( Const 7 )" "(Const 7)" (by rw [spaced]; rfl)
  exact ⟨whole, spaced, (accepted _ _ _ spaced).2, printed⟩

end SLanguage
