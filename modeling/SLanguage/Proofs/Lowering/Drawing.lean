import Mathlib.Data.List.Nodup
import SLanguage.Lowering.Frame
import SLanguage.Proofs.Assembly

/-! Drawing names. As long as the serials last, names are drawn in order, so what a piece
of work draws is known from how many names it asks for. Work that gets all its names is
described by one equation, and work that succeeds has got them. -/

namespace SLanguage

/-- The work variable of a number. -/
def Variable.workAt (n : Nat) : Variable :=
  ((Serial.ofNat? n).map .work).getD .result

/-- The label of a number. -/
def Label.numberedAt (n : Nat) : Label :=
  ((Serial.ofNat? n).map .numbered).getD .empty

namespace Serial

theorem exists_ofNat? {n : Nat} (pos : 0 < n) (le : n ≤ last) :
    ∃ s : Serial, s.val = n ∧ ofNat? n = some s :=
  ⟨⟨n, pos, le⟩, rfl, ofNat?_eq_some_iff.2 rfl⟩

theorem ofNat?_eq_none {n : Nat} (gt : last < n) : ofNat? n = none := by
  unfold ofNat?
  rw [dif_neg]
  omega

end Serial

theorem Variable.workAt_eq {n : Nat} (pos : 0 < n) (le : n ≤ Serial.last) :
    ∃ s : Serial, s.val = n ∧ workAt n = .work s := by
  obtain ⟨s, val, some⟩ := Serial.exists_ofNat? pos le
  exact ⟨s, val, by simp [workAt, some]⟩

theorem Variable.workAt_val (n : Serial) : workAt n.val = .work n := by
  rw [workAt, Serial.ofNat?_val]
  rfl

theorem Variable.workAt_injOn {a b : Nat} (ha : 0 < a) (ha' : a ≤ Serial.last) (hb : 0 < b)
    (hb' : b ≤ Serial.last) (eq : workAt a = workAt b) : a = b := by
  obtain ⟨s, rfl, at_a⟩ := workAt_eq ha ha'
  obtain ⟨t, rfl, at_b⟩ := workAt_eq hb hb'
  rw [at_a, at_b] at eq
  cases eq
  rfl

theorem Label.numberedAt_eq {n : Nat} (pos : 0 < n) (le : n ≤ Serial.last) :
    ∃ s : Serial, s.val = n ∧ numberedAt n = .numbered s := by
  obtain ⟨s, val, some⟩ := Serial.exists_ofNat? pos le
  exact ⟨s, val, by simp [numberedAt, some]⟩

theorem Label.numberedAt_val (n : Serial) : numberedAt n.val = .numbered n := by
  rw [numberedAt, Serial.ofNat?_val]
  rfl

theorem Label.numberedAt_injOn {a b : Nat} (ha : 0 < a) (ha' : a ≤ Serial.last) (hb : 0 < b)
    (hb' : b ≤ Serial.last) (eq : numberedAt a = numberedAt b) : a = b := by
  obtain ⟨s, rfl, at_a⟩ := numberedAt_eq ha ha'
  obtain ⟨t, rfl, at_b⟩ := numberedAt_eq hb hb'
  rw [at_a, at_b] at eq
  cases eq
  rfl

namespace Drafting

variable {α β : Type}

/-- The outcome of work that starts with a supply of names, and the supply after it. -/
def drawn (x : Drafting α) (names : Names) : Except LoweringError α × Names :=
  x.run names

theorem drawn_bind (x : Drafting α) (f : α → Drafting β) (names : Names) :
    (x >>= f).drawn names =
      match x.drawn names with
      | (.ok a, names) => (f a).drawn names
      | (.error e, names) => (.error e, names) := by
  change (ExceptT.bind x f).run names = _
  simp only [ExceptT.bind, ExceptT.run, ExceptT.mk, bind, StateT.bind, drawn]
  cases x names with
  | mk outcome names => cases outcome <;> rfl

theorem drawn_bind_eq_ok {x : Drafting α} {f : α → Drafting β} {names after : Names} {b : β} :
    (x >>= f).drawn names = (.ok b, after) ↔
      ∃ a mid, x.drawn names = (.ok a, mid) ∧ (f a).drawn mid = (.ok b, after) := by
  rw [drawn_bind]
  obtain ⟨outcome, mid⟩ := x.drawn names
  cases outcome with
  | error e => simp
  | ok a =>
    constructor
    · intro h
      exact ⟨a, mid, rfl, h⟩
    · rintro ⟨a', mid', eq, h⟩
      cases eq
      exact h

@[simp] theorem drawn_pure (a : α) (names : Names) :
    (pure a : Drafting α).drawn names = (.ok a, names) := rfl

@[simp] theorem drawn_throw (e : LoweringError) (names : Names) :
    (throw e : Drafting α).drawn names = (.error e, names) := rfl

@[simp] theorem drawn_get (names : Names) :
    (get : Drafting Names).drawn names = (.ok names, names) := rfl

theorem drawn_work (names : Names) :
    Drafting.work.drawn names =
      if names.highestWork < Serial.last then
        (.ok (.workAt (names.highestWork + 1)),
          { names with highestWork := names.highestWork + 1 })
      else (.error (.names .workVariables), names) := by
  unfold Drafting.work Drawing.work
  rw [drawn_bind, drawn_get]
  simp only [Names.drawWork, Names.nextWork]
  by_cases lt : names.highestWork < Serial.last
  · obtain ⟨n, val, some⟩ := Serial.exists_ofNat? (Nat.succ_pos _) (Nat.succ_le_of_lt lt)
    simp only [if_pos lt, Variable.workAt, some]
    change (Except.ok (Variable.work n), { names with highestWork := n.val }) = _
    rw [val]
    rfl
  · rw [if_neg lt, Serial.ofNat?_eq_none (by omega)]
    rfl

theorem drawn_label (names : Names) :
    Drafting.label.drawn names =
      if names.highestLabel < Serial.last then
        (.ok (.numberedAt (names.highestLabel + 1)),
          { names with highestLabel := names.highestLabel + 1 })
      else (.error (.names .labels), names) := by
  unfold Drafting.label Drawing.label
  rw [drawn_bind, drawn_get]
  simp only [Names.drawLabel, Names.nextLabel]
  by_cases lt : names.highestLabel < Serial.last
  · obtain ⟨n, val, some⟩ := Serial.exists_ofNat? (Nat.succ_pos _) (Nat.succ_le_of_lt lt)
    simp only [if_pos lt, Label.numberedAt, some]
    change (Except.ok (Label.numbered n), { names with highestLabel := n.val }) = _
    rw [val]
    rfl
  · rw [if_neg lt, Serial.ofNat?_eq_none (by omega)]
    rfl

theorem work_eq_ok {names after : Names} {v : Variable}
    (h : Drafting.work.drawn names = (.ok v, after)) :
    names.highestWork < Serial.last ∧ v = .workAt (names.highestWork + 1) ∧
      after = { names with highestWork := names.highestWork + 1 } := by
  rw [drawn_work] at h
  split at h
  · rename_i lt
    cases h
    exact ⟨lt, rfl, rfl⟩
  · cases h

theorem label_eq_ok {names after : Names} {l : Label}
    (h : Drafting.label.drawn names = (.ok l, after)) :
    names.highestLabel < Serial.last ∧ l = .numberedAt (names.highestLabel + 1) ∧
      after = { names with highestLabel := names.highestLabel + 1 } := by
  rw [drawn_label] at h
  split at h
  · rename_i lt
    cases h
    exact ⟨lt, rfl, rfl⟩
  · cases h

/-- The work variables that follow a number. -/
def worksAfter (highest n : Nat) : List Variable :=
  (List.range' (highest + 1) n).map .workAt

/-- The labels that follow a number. -/
def labelsAfter (highest n : Nat) : List Label :=
  (List.range' (highest + 1) n).map .numberedAt

@[simp] theorem length_worksAfter (highest n : Nat) : (worksAfter highest n).length = n := by
  simp [worksAfter]

@[simp] theorem length_labelsAfter (highest n : Nat) : (labelsAfter highest n).length = n := by
  simp [labelsAfter]

theorem mem_worksAfter {highest n : Nat} {v : Variable} :
    v ∈ worksAfter highest n ↔ ∃ k, highest < k ∧ k ≤ highest + n ∧ v = .workAt k := by
  simp only [worksAfter, List.mem_map, List.mem_range'_1]
  constructor
  · rintro ⟨k, ⟨ge, lt⟩, rfl⟩
    exact ⟨k, by omega, by omega, rfl⟩
  · rintro ⟨k, gt, le, rfl⟩
    exact ⟨k, ⟨by omega, by omega⟩, rfl⟩

theorem mem_labelsAfter {highest n : Nat} {l : Label} :
    l ∈ labelsAfter highest n ↔ ∃ k, highest < k ∧ k ≤ highest + n ∧ l = .numberedAt k := by
  simp only [labelsAfter, List.mem_map, List.mem_range'_1]
  constructor
  · rintro ⟨k, ⟨ge, lt⟩, rfl⟩
    exact ⟨k, by omega, by omega, rfl⟩
  · rintro ⟨k, gt, le, rfl⟩
    exact ⟨k, ⟨by omega, by omega⟩, rfl⟩

/-- What follows a number has serials of its own, as long as these last. -/
theorem mem_worksAfter_iff {highest n : Nat} (last : n = 0 ∨ highest + n ≤ Serial.last)
    {v : Variable} : v ∈ worksAfter highest n ↔
      ∃ s : Serial, v = .work s ∧ highest < s.val ∧ s.val ≤ highest + n := by
  rw [mem_worksAfter]
  constructor
  · rintro ⟨k, gt, le, rfl⟩
    obtain ⟨s, rfl, eq⟩ := Variable.workAt_eq (n := k) (by omega) (by omega)
    exact ⟨s, eq, gt, le⟩
  · rintro ⟨s, rfl, gt, le⟩
    exact ⟨s.val, gt, le, (Variable.workAt_val s).symm⟩

theorem mem_labelsAfter_iff {highest n : Nat} (last : n = 0 ∨ highest + n ≤ Serial.last)
    {l : Label} : l ∈ labelsAfter highest n ↔
      ∃ s : Serial, l = .numbered s ∧ highest < s.val ∧ s.val ≤ highest + n := by
  rw [mem_labelsAfter]
  constructor
  · rintro ⟨k, gt, le, rfl⟩
    obtain ⟨s, rfl, eq⟩ := Label.numberedAt_eq (n := k) (by omega) (by omega)
    exact ⟨s, eq, gt, le⟩
  · rintro ⟨s, rfl, gt, le⟩
    exact ⟨s.val, gt, le, (Label.numberedAt_val s).symm⟩

theorem nodup_worksAfter {highest n : Nat} (le : highest + n ≤ Serial.last) :
    (worksAfter highest n).Nodup := by
  refine List.Nodup.map_on ?_ List.nodup_range'
  intro a mem_a b mem_b eq
  rw [List.mem_range'_1] at mem_a mem_b
  exact Variable.workAt_injOn (by omega) (by omega) (by omega) (by omega) eq

theorem nodup_labelsAfter {highest n : Nat} (last : n = 0 ∨ highest + n ≤ Serial.last) :
    (labelsAfter highest n).Nodup := by
  refine List.Nodup.map_on ?_ List.nodup_range'
  intro a mem_a b mem_b eq
  rw [List.mem_range'_1] at mem_a mem_b
  exact Label.numberedAt_injOn (by omega) (by omega) (by omega) (by omega) eq

theorem worksAfter_add (highest a b : Nat) :
    worksAfter highest (a + b) = worksAfter highest a ++ worksAfter (highest + a) b := by
  rw [worksAfter, worksAfter, worksAfter, ← List.map_append, Nat.add_right_comm,
    List.range'_append_1]

theorem worksAfter_one (highest : Nat) : worksAfter highest 1 = [.workAt (highest + 1)] := rfl

theorem drawn_works {n : Nat} {names : Names} (enough : names.highestWork + n ≤ Serial.last) :
    (Drafting.works n).drawn names =
      (.ok (worksAfter names.highestWork n),
        { names with highestWork := names.highestWork + n }) := by
  induction n generalizing names with
  | zero => rfl
  | succ n ih =>
    have lt : names.highestWork < Serial.last := by omega
    rw [Drafting.works, drawn_bind, drawn_work, if_pos lt]
    simp only [drawn_bind]
    rw [ih (by simp only; omega)]
    simp only [drawn_pure, worksAfter, List.range'_succ, List.map_cons]
    rw [Nat.add_assoc names.highestWork 1 n, Nat.add_comm 1 n]

/-- Drawing in a row succeeds only if there are enough serials. -/
theorem works_eq_ok {n : Nat} {names after : Names} {slots : List Variable}
    (h : (Drafting.works n).drawn names = (.ok slots, after)) :
    (n = 0 ∨ names.highestWork + n ≤ Serial.last) ∧ slots = worksAfter names.highestWork n ∧
      after = { names with highestWork := names.highestWork + n } := by
  have enough : n = 0 ∨ names.highestWork + n ≤ Serial.last := by
    induction n generalizing names slots after with
    | zero => exact .inl rfl
    | succ n ih =>
      obtain ⟨v, mid, first, h⟩ := drawn_bind_eq_ok.1 h
      obtain ⟨lt, -, rfl⟩ := work_eq_ok first
      obtain ⟨rest, last, h, -⟩ := drawn_bind_eq_ok.1 h
      obtain rfl | le := ih h
      · exact .inr lt
      · simp only at le
        exact .inr (by omega)
  refine ⟨enough, ?_⟩
  obtain rfl | enough := enough
  · cases h
    exact ⟨rfl, rfl⟩
  · rw [drawn_works enough] at h
    cases h
    exact ⟨rfl, rfl⟩

end Drafting

end SLanguage
