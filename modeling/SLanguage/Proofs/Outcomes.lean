/-! Outcomes that may be an error. Work of several parts gives a result exactly if the first
part does and the rest does with what it gave. -/

namespace SLanguage

variable {ε ε' α β : Type} {b : β}

theorem bind_eq_ok {x : Except ε α} {f : α → Except ε β} :
    (x >>= f) = .ok b ↔ ∃ a, x = .ok a ∧ f a = .ok b := by
  cases x <;> simp [bind, Except.bind]

theorem bind_eq_error {x : Except ε α} {f : α → Except ε β} {e : ε} :
    (x >>= f) = .error e ↔ x = .error e ∨ ∃ a, x = .ok a ∧ f a = .error e := by
  cases x <;> simp [bind, Except.bind]

theorem ok_bind {a : α} {f : α → Except ε β} : ((.ok a : Except ε α) >>= f) = f a :=
  rfl

theorem map_eq_ok {x : Except ε α} {f : α → β} :
    f <$> x = .ok b ↔ ∃ a, x = .ok a ∧ f a = b := by
  cases x <;> simp [Functor.map, Except.map]

theorem mapError_eq_ok {x : Except ε β} {f : ε → ε'} : x.mapError f = .ok b ↔ x = .ok b := by
  cases x with
  | error e => constructor <;> (intro h; cases h)
  | ok a => constructor <;> (intro h; cases h; rfl)

end SLanguage
