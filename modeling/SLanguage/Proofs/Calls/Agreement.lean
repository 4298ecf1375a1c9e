import SLanguage.Proofs.Machine.Steps

/-! Two attempts at the same work. They agree if they end alike, with values that a
relation ties together. A cut names the ends at which the first may be stopped short:
for want of steps, or with an error of its own. There the second is left open. -/

namespace SLanguage.Attempt

variable {ε α β α' β' : Type}

/-- How an attempt stops without a value: for a reason, or because its steps are used up. -/
def stop : Option ε → Attempt ε α
  | none => unfinished
  | some e => throw e

/-- The first attempt is cut short, or both end alike. -/
def Agrees (cut : Option ε → Prop) (R : α → β → Prop) (x : Attempt ε α) (y : Attempt ε β) :
    Prop :=
  (∃ why, cut why ∧ x = stop why) ∨
    (∃ why, x = stop why ∧ y = stop why) ∨ ∃ a b, x = pure a ∧ y = pure b ∧ R a b

/-- Every attempt stops or has a value. -/
theorem exists_end (x : Attempt ε α) : (∃ why, x = stop why) ∨ ∃ a, x = pure a :=
  match x with
  | none => .inl ⟨none, rfl⟩
  | some (.error e) => .inl ⟨some e, rfl⟩
  | some (.ok a) => .inr ⟨a, rfl⟩

theorem stop_bind (why : Option ε) (f : α → Attempt ε β) : (stop why >>= f) = stop why := by
  cases why <;> rfl

theorem run_stop (why : Option ε) : (stop why : Attempt ε α).run = why.map .error := by
  cases why <;> rfl

theorem pure_ne_stop (a : α) (why : Option ε) : (pure a : Attempt ε α) ≠ stop why := by
  intro eq
  have run := congrArg ExceptT.run eq
  rw [run_pure, run_stop] at run
  cases why <;> simp at run

theorem stop_injective (why why' : Option ε)
    (eq : (stop why : Attempt ε α) = stop why') : why = why' := by
  have run := congrArg ExceptT.run eq
  rw [run_stop, run_stop] at run
  cases why <;> cases why' <;> simp_all

theorem pure_injective {a b : α} (eq : (pure a : Attempt ε α) = pure b) : a = b := by
  have run := congrArg ExceptT.run eq
  simpa using run

/-- Work in two parts stops in the first of them or in the second. -/
theorem stop_of_bind {x : Attempt ε α} {f : α → Attempt ε β} (why : Option ε)
    (h : (x >>= f) = stop why) : x = stop why ∨ ∃ a, x = pure a ∧ f a = stop why := by
  obtain ⟨why', rfl⟩ | ⟨a, rfl⟩ := exists_end x
  · rw [stop_bind] at h
    exact .inl (congrArg stop (stop_injective why' why h))
  · rw [pure_bind] at h
    exact .inr ⟨a, rfl, h⟩

/-- What stops before a last computation on its value has stopped itself. -/
theorem eq_stop_of_bind_pure {x : Attempt ε α} {f : α → β} (why : Option ε)
    (h : (x >>= fun a => pure (f a)) = stop why) : x = stop why := by
  obtain stopped | ⟨a, -, ended⟩ := stop_of_bind why h
  · exact stopped
  · exact absurd ended (pure_ne_stop _ why)

namespace Agrees

variable {cut : Option ε → Prop} {R : α → β → Prop} {x : Attempt ε α} {y : Attempt ε β}

theorem of_cut {why : Option ε} (short : cut why) (y : Attempt ε β) :
    Agrees cut R (stop why) y :=
  .inl ⟨why, short, rfl⟩

theorem of_stop (why : Option ε) : Agrees cut R (stop why) (stop why) :=
  .inr (.inl ⟨why, rfl, rfl⟩)

theorem of_pure {a : α} {b : β} (related : R a b) : Agrees cut R (pure a) (pure b) :=
  .inr (.inr ⟨a, b, rfl, rfl, related⟩)

theorem refl (x : Attempt ε α) : Agrees cut Eq x x := by
  obtain ⟨why, rfl⟩ | ⟨a, rfl⟩ := exists_end x
  · exact of_stop why
  · exact of_pure rfl

/-- What is tied together are the values of the attempts. -/
theorem with_values (h : Agrees cut R x y) :
    Agrees cut (fun a b => R a b ∧ x = pure a ∧ y = pure b) x y := by
  obtain short | stopped | ⟨a, b, first, second, related⟩ := h
  · exact .inl short
  · exact .inr (.inl stopped)
  · exact .inr (.inr ⟨a, b, first, second, related, first, second⟩)

/-- Agreement is kept by whatever is done next with the values. -/
theorem bind {S : α' → β' → Prop} {f : α → Attempt ε α'} {g : β → Attempt ε β'}
    (h : Agrees cut R x y) (next : ∀ a b, R a b → Agrees cut S (f a) (g b)) :
    Agrees cut S (x >>= f) (y >>= g) := by
  obtain ⟨why, short, rfl⟩ | ⟨why, rfl, rfl⟩ | ⟨a, b, rfl, rfl, related⟩ := h
  · rw [stop_bind]
    exact of_cut short _
  · rw [stop_bind, stop_bind]
    exact of_stop why
  · exact next a b related

/-- A value of the first attempt comes with one of the second. -/
theorem exists_pure (h : Agrees cut R x y) {a : α} (given : x = pure a) :
    ∃ b, y = pure b ∧ R a b := by
  obtain ⟨why, -, short⟩ | ⟨why, stopped, -⟩ | ⟨a', b, first, second, related⟩ := h
  · exact absurd (given.symm.trans short) (pure_ne_stop a why)
  · exact absurd (given.symm.trans stopped) (pure_ne_stop a why)
  · obtain rfl := pure_injective (given.symm.trans first)
    exact ⟨b, second, related⟩

/-- Where the first attempt stops without being cut short, the second stops alike. -/
theorem stops (h : Agrees cut R x y) {why : Option ε} (stopped : x = stop why)
    (whole : ¬ cut why) : y = stop why := by
  obtain ⟨why', short, stopped'⟩ | ⟨why', first, second⟩ | ⟨a, _, first, -, -⟩ := h
  · rw [stop_injective why why' (stopped.symm.trans stopped')] at whole
    exact absurd short whole
  · rwa [stop_injective why why' (stopped.symm.trans first)]
  · exact absurd (first.symm.trans stopped) (pure_ne_stop a why)

/-- Where nothing is cut short and values are the same, the attempts are the same. -/
theorem eq {x y : Attempt ε α} (h : Agrees (fun _ => False) Eq x y) : x = y := by
  obtain ⟨_, short, _⟩ | ⟨why, first, second⟩ | ⟨a, _, first, second, rfl⟩ := h
  · exact absurd short id
  · exact first.trans second.symm
  · exact first.trans second.symm

/-- An end at which the first attempt is not cut short is the end of both. -/
theorem run_of_whole {x y : Attempt ε α} (h : Agrees cut Eq x y) {r : Except ε α}
    (ended : x.run = some r) (whole : ∀ e, r = .error e → ¬ cut (some e)) : y.run = some r := by
  obtain ⟨why, short, rfl⟩ | ⟨why, rfl, rfl⟩ | ⟨a, _, rfl, rfl, rfl⟩ := h
  · cases why with
    | none => cases ended
    | some e =>
      cases ended
      exact absurd short (whole e rfl)
  · exact ended
  · exact ended

/-- Where only the want of steps cuts short, an end that is reached is the end of both. -/
theorem run_eq {x y : Attempt ε α} (h : Agrees (· = none) Eq x y) {r : Except ε α}
    (ended : x.run = some r) : y.run = some r :=
  h.run_of_whole ended fun e _ => Option.some_ne_none e

end Agrees

/-- Whatever reason the attempt fails for, it is one of these. -/
def FailsWith (P : ε → Prop) (x : Attempt ε α) : Prop :=
  ∀ e, x = throw e → P e

namespace FailsWith

variable {P : ε → Prop}

theorem of_pure (a : α) : FailsWith P (pure a : Attempt ε α) :=
  fun e eq => absurd eq (pure_ne_stop a (some e))

theorem of_unfinished : FailsWith P (unfinished : Attempt ε α) :=
  fun e eq => nomatch stop_injective none (some e) eq

theorem of_throw {e : ε} (holds : P e) : FailsWith P (throw e : Attempt ε α) := by
  intro e' eq
  cases stop_injective (some e) (some e') eq
  exact holds

theorem bind {x : Attempt ε α} {f : α → Attempt ε β} (first : x.FailsWith P)
    (next : ∀ a, x = pure a → (f a).FailsWith P) : (x >>= f).FailsWith P := by
  intro e failed
  obtain ⟨why, rfl⟩ | ⟨a, rfl⟩ := exists_end x
  · rw [stop_bind] at failed
    cases stop_injective why (some e) failed
    exact first e rfl
  · exact next a rfl e failed

end FailsWith

end SLanguage.Attempt
