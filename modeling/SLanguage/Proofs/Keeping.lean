/-! Work on a state that is kept, also where the work fails. What holds in the end follows from
the parts of the work: of a value and the state that comes with it, or of a reason and the state
that is left behind. Nothing is said of work that does not end. -/

namespace SLanguage

abbrev Keeping (σ ε α : Type) := ExceptT ε (StateT σ Option) α

namespace Keeping

variable {σ ε α β : Type}

theorem run_bind (x : Keeping σ ε α) (f : α → Keeping σ ε β) (s : σ) :
    (x >>= f).run s =
      match x.run s with
      | none => none
      | some (.error e, s) => some (.error e, s)
      | some (.ok a, s) => (f a).run s := by
  change (ExceptT.bind x f).run s = _
  simp only [ExceptT.bind, ExceptT.run, ExceptT.mk, bind, StateT.bind]
  cases x s with
  | none => rfl
  | some r =>
    obtain ⟨e | a, s⟩ := r <;> rfl

theorem run_tryCatch (x : Keeping σ ε α) (f : ε → Keeping σ ε α) (s : σ) :
    (tryCatch x f).run s =
      match x.run s with
      | some (.error e, s) => (f e).run s
      | outcome => outcome := by
  change (ExceptT.tryCatch x f).run s = _
  simp only [ExceptT.tryCatch, ExceptT.run, ExceptT.mk, bind, StateT.bind]
  cases x s with
  | none => rfl
  | some r =>
    obtain ⟨e | a, s⟩ := r <;> rfl

theorem throw_bind (e : ε) (f : α → Keeping σ ε β) :
    ((throw e : Keeping σ ε α) >>= f) = throw e := rfl

theorem run_liftM (x : StateT σ Option α) (s : σ) :
    (liftM x : Keeping σ ε α).run s = (x.run s).map fun (a, s) => (.ok a, s) := by
  change (x.run s).bind _ = _
  cases x.run s with
  | none => rfl
  | some r => rfl

/-- From this state the work comes to a value and a state of the first kind, or to a reason and
a state of the second, if it comes to an end. -/
structure Ensures (x : Keeping σ ε α) (s : σ) (value : α → σ → Prop) (reason : ε → σ → Prop) :
    Prop where
  ok : ∀ a s', x.run s = some (.ok a, s') → value a s'
  error : ∀ e s', x.run s = some (.error e, s') → reason e s'

namespace Ensures

variable {s : σ} {value : α → σ → Prop} {reason : ε → σ → Prop}

theorem of_run {x : Keeping σ ε α} {r : Except ε α} {s' : σ} (ran : x.run s = some (r, s'))
    (ok : ∀ a, r = .ok a → value a s') (error : ∀ e, r = .error e → reason e s') :
    Ensures x s value reason := by
  constructor
  · rintro a _ given
    cases ran.symm.trans given
    exact ok a rfl
  · rintro e _ given
    cases ran.symm.trans given
    exact error e rfl

theorem of_pure {a : α} (holds : value a s) :
    Ensures (pure a : Keeping σ ε α) s value reason := by
  refine of_run (r := .ok a) rfl (fun a' same => ?_) fun e same => nomatch same
  cases same
  exact holds

theorem of_throw {e : ε} (holds : reason e s) :
    Ensures (throw e : Keeping σ ε α) s value reason := by
  refine of_run (r := .error e) rfl (fun a same => nomatch same) fun e' same => ?_
  cases same
  exact holds

theorem lift {x : StateT σ Option α} (holds : ∀ a s', x.run s = some (a, s') → value a s') :
    Ensures (liftM x : Keeping σ ε α) s value reason := by
  constructor
  · intro a s' ran
    rw [run_liftM] at ran
    obtain ⟨_, made, same⟩ := Option.map_eq_some_iff.1 ran
    cases same
    exact holds _ _ made
  · intro e s' ran
    rw [run_liftM] at ran
    obtain ⟨_, -, same⟩ := Option.map_eq_some_iff.1 ran
    cases same

theorem bind {x : Keeping σ ε α} {f : α → Keeping σ ε β} {value' : β → σ → Prop}
    (first : Ensures x s value reason)
    (next : ∀ a s', value a s' → Ensures (f a) s' value' reason) :
    Ensures (x >>= f) s value' reason := by
  have parts (r : Except ε β) (s' : σ) (ran : (x >>= f).run s = some (r, s')) :
      (∃ e, r = .error e ∧ reason e s') ∨ ∃ a mid, value a mid ∧ (f a).run mid = some (r, s') := by
    rw [run_bind] at ran
    cases start : x.run s with
    | none =>
      rw [start] at ran
      cases ran
    | some made =>
      obtain ⟨e | a, mid⟩ := made
      · rw [start] at ran
        cases ran
        exact .inl ⟨e, rfl, first.error e _ start⟩
      · rw [start] at ran
        exact .inr ⟨a, mid, first.ok a mid start, ran⟩
  constructor
  · intro b s' ran
    obtain ⟨e, failed, -⟩ | ⟨a, mid, holds, ran⟩ := parts (.ok b) s' ran
    · cases failed
    · exact (next a mid holds).ok b s' ran
  · intro e s' ran
    obtain ⟨e', failed, left⟩ | ⟨a, mid, holds, ran⟩ := parts (.error e) s' ran
    · cases failed
      exact left
    · exact (next a mid holds).error e s' ran

theorem mono {x : Keeping σ ε α} {value' : α → σ → Prop} {reason' : ε → σ → Prop}
    (h : Ensures x s value reason) (ok : ∀ a s', value a s' → value' a s')
    (error : ∀ e s', reason e s' → reason' e s') : Ensures x s value' reason' :=
  ⟨fun a s' ran => ok a s' (h.ok a s' ran), fun e s' ran => error e s' (h.error e s' ran)⟩

end Ensures

end Keeping

end SLanguage
