import SLanguage.Proofs.Session.Cursor

/-! Sessions at a breakpoint. A session is shown to be at a breakpoint where a resumption has come
to rest, and there one of its breakpoints runs next. This lasts until it moves on or gets other
breakpoints. It gets others when it is resumed, also if the resumption then fails before it has
made a step, and then it may be shown to be at a breakpoint where it has none. -/

namespace SLanguage.Session

variable {s t u : Session} {before after : Ledger} {breakpoints : List Nat}
  {failure? : Option RunError}

/-- If the session is shown to be at a breakpoint, one of its breakpoints runs next. -/
def Marked (s : Session) : Prop :=
  s.state = .atBreakpoint → ∃ k, s.machine.next? = some k ∧ k ∈ s.breakpoints

theorem state_arrived (s : Session) : s.arrived.state ≠ .atBreakpoint := by
  unfold arrived
  dsimp only
  split <;> exact SessionState.noConfusion

theorem Forward.state (moved : Forward s before t after) : t.state ≠ .atBreakpoint := by
  cases moved with
  | replayed => exact state_arrived _
  | halted => exact SessionState.noConfusion
  | executed => exact state_arrived _

theorem Marked.back (marked : s.Marked) (ledger : Ledger) : (s.back ledger).1.Marked := by
  unfold Session.back
  split
  · exact marked
  · exact fun rests => absurd rests (state_arrived _)

/-- A session comes to rest at a breakpoint if it has one there. -/
theorem marked_rested (rests : s.rests = true) : s.rested.Marked := by
  intro state
  cases running : s.machine.isRunning with
  | false =>
    have finished : s.rested.state = .finished := if_neg (by simp [running])
    cases finished.symm.trans state
  | true =>
    rw [Session.rests, running, Bool.not_true, Bool.false_or, atBreakpoint] at rests
    obtain ⟨k, next, mark⟩ := (Option.any_eq_true _ _).1 rests
    exact ⟨k, next, Std.TreeSet.contains_iff_mem.1 mark⟩

theorem marked_of_advance {n : Nat} (state : s.state ≠ .atBreakpoint)
    (ran : advance n s before = some ((t, failure?), after)) : t.Marked := by
  induction n generalizing s before with
  | zero => cases ran
  | succ n ih =>
    rw [advance_succ] at ran
    split at ran
    · cases ran
      exact fun rests => absurd rests state
    · split at ran
      · cases ran
      · cases ran
        exact fun rests => absurd rests state
      · rename_i u between moved
        split at ran
        · rename_i rests
          cases ran
          exact marked_rested rests
        · exact ih (forward_of_run moved).state ran

/-- From the first step on, no matter how it ends, a resumed session is shown to be at a breakpoint
only where it has one. Without a step it fails and stays as it is. -/
theorem marked_or_still_of_advance {n : Nat}
    (ran : advance n s before = some ((t, failure?), after)) :
    t.Marked ∨ t = s ∧ ∃ e, failure? = some e := by
  cases n with
  | zero => cases ran
  | succ n =>
    rw [advance_succ] at ran
    split at ran
    · cases ran
      exact .inr ⟨rfl, _, rfl⟩
    · split at ran
      · cases ran
      · cases ran
        exact .inr ⟨rfl, _, rfl⟩
      · rename_i u between moved
        split at ran
        · rename_i rests
          cases ran
          exact .inl (marked_rested rests)
        · exact .inl (marked_of_advance (forward_of_run moved).state ran)

/-- The session that a resumption leaves which fails before its first step. Nothing has moved, but
the breakpoints are the new ones. -/
def unmoved (s : Session) (breakpoints : List Nat) (after : Ledger) : Session :=
  { s with
    breakpoints := .ofList breakpoints
    signal := s.signal.clear after.charges }

theorem marked_or_unmoved_of_resume
    (ran : s.resume breakpoints before = some ((t, failure?), after)) :
    t.Marked ∨ t = s.unmoved breakpoints after ∧ ∃ e, failure? = some e := by
  obtain ⟨u, advanced, rfl⟩ := resume_eq_some ran
  obtain marked | ⟨rfl, failed⟩ := marked_or_still_of_advance advanced
  · exact .inl marked
  · exact .inr ⟨rfl, failed⟩

theorem Marked.perform (marked : s.Marked) {move : Move}
    (moved : s.perform move before = some ((t, failure?), after)) :
    t.Marked ∨ ∃ breakpoints e, move = .resume breakpoints ∧ failure? = some e ∧
      t = s.unmoved breakpoints after := by
  cases move with
  | forward =>
    obtain ⟨⟨outcome, ledger⟩, ran, eq⟩ := Option.map_eq_some_iff.1 moved
    obtain e | u := outcome
    · cases eq
      exact .inl marked
    · cases eq
      exact .inl fun rests => absurd rests (forward_of_run ran).state
  | back =>
    cases moved
    exact .inl (marked.back before)
  | resume breakpoints =>
    obtain marked | ⟨still, e, failed⟩ := marked_or_unmoved_of_resume moved
    · exact .inl marked
    · exact .inr ⟨breakpoints, e, rfl, failed, still⟩
  | stop =>
    cases moved
    exact .inl fun rests => nomatch rests
  | signal signal =>
    cases moved
    exact .inl marked

/-- The sessions that moves lead to, if no resumption among them fails where it started. -/
inductive ReachesSteadily (s : Session) : Session → Prop
  | refl : ReachesSteadily s s
  | move {t u : Session} {m : Move} {failure? : Option RunError} {before after : Ledger}
    (reached : ReachesSteadily s t)
    (moved : t.perform m before = some ((u, failure?), after))
    (steady : ∀ breakpoints, m = .resume breakpoints → failure? = none ∨
      u.past.length ≠ t.past.length) : ReachesSteadily s u

theorem ReachesSteadily.marked {r : Run} {p : Program} {inputs : List Int64}
    (reached : (start r p inputs).ReachesSteadily s) : s.Marked := by
  induction reached with
  | refl => exact fun rests => nomatch rests
  | move _ moved steady ih =>
    obtain marked | ⟨breakpoints, e, rfl, rfl, rfl⟩ := ih.perform moved
    · exact marked
    -- A resumption that left the session where it was is not among the moves.
    · obtain ended | further := steady breakpoints rfl
      · cases ended
      · exact absurd rfl further

theorem next?_current (s : Session) : s.current.next? = s.machine.next?.map UInt64.ofNat := by
  unfold current machine
  cases s.past <;> rfl

/-- A session that is shown to be at a breakpoint has one of its breakpoints before it, as long as
no resumption has failed where it started. All other moves keep to this, failing ones among them.
A resumption that fails before its first step replaces the breakpoints and leaves all else. -/
theorem rests_at_breakpoint (r : Run) (p : Program) (inputs : List Int64) :
    (∀ s, (start r p inputs).ReachesSteadily s → s.state = .atBreakpoint →
      ∃ k, s.current.next? = some (UInt64.ofNat k) ∧ s.machine.next? = some k ∧
        k ∈ s.breakpoints) ∧
    ∀ s : Session, s.Marked →
      ∀ move t failure? before after, s.perform move before = some ((t, failure?), after) →
        t.Marked ∨ ∃ breakpoints e, move = .resume breakpoints ∧ failure? = some e ∧
          t = s.unmoved breakpoints after := by
  refine ⟨fun s reached rests => ?_, fun _ marked _ _ _ _ _ => marked.perform⟩
  obtain ⟨k, next, mark⟩ := reached.marked rests
  refine ⟨k, ?_, next, mark⟩
  rw [next?_current, next, Option.map_some]

/-- A session that is resumed on `moving` up to the first instruction, which is its breakpoint. -/
theorem rests_at_breakpoint_moving :
    let r : Run := { evaluator := { functions := ∅, stepLimit := 10 } }
    ∃ s, (start r moving [2]).ReachesSteadily s ∧ s.state = .atBreakpoint ∧
      ∃ k, s.current.next? = some (UInt64.ofNat k) ∧ s.machine.next? = some k ∧
        k ∈ s.breakpoints := by
  intro r
  have ended : ((start r moving [2]).perform (.resume [0]) Ledger.empty).map
      (fun t => (t.1.1.state, t.1.2)) = some (.atBreakpoint, none) := by
    decide +kernel
  obtain ⟨⟨⟨t, failure?⟩, after⟩, ran, eq⟩ := Option.map_eq_some_iff.1 ended
  obtain ⟨rests, whole⟩ := Prod.mk.inj eq
  have reached : (start r moving [2]).ReachesSteadily t := .move .refl ran fun _ _ => .inl whole
  exact ⟨t, reached, rests, (rests_at_breakpoint r moving [2]).1 t reached rests⟩

/-- The same session is resumed once more, without breakpoints and with its signal raised. It is
interrupted at once, and is still shown to be at a breakpoint, though it has none left. -/
theorem breakpoint_gone_moving :
    let r : Run := { evaluator := { functions := ∅, stepLimit := 10 } }
    ∃ s, (start r moving [2]).Reaches s ∧ s.state = .atBreakpoint ∧
      s.current.next? = some 0 ∧ ∀ k, k ∉ s.breakpoints := by
  intro r
  let again (t : Session) (after : Ledger) : Option ((Session × Option RunError) × Ledger) :=
    Session.perform { t with signal := { raised := true } } (.resume []) after
  have ended : ((start r moving [2]).perform (.resume [0]) Ledger.empty).bind (fun t =>
      (again t.1.1 t.2).map fun u => (u.1.1.state, u.1.1.current.next?, u.1.1.breakpoints.toList)) =
        some (.atBreakpoint, some 0, []) := by
    decide +kernel
  obtain ⟨⟨⟨t, failure?⟩, between⟩, ran, ended⟩ := Option.bind_eq_some_iff.1 ended
  obtain ⟨⟨⟨u, failure?'⟩, after⟩, ran', eq⟩ := Option.map_eq_some_iff.1 ended
  obtain ⟨rests, eq⟩ := Prod.mk.inj eq
  obtain ⟨next, cleared⟩ := Prod.mk.inj eq
  have raised : t.perform (.signal { raised := true }) between =
      some (({ t with signal := { raised := true } }, none), between) := rfl
  have reached : (start r moving [2]).Reaches u := .move (.move (.move .refl ran) raised) ran'
  refine ⟨u, reached, rests, next, fun k mark => ?_⟩
  have listed := Std.TreeSet.mem_toList.2 mark
  rw [cleared] at listed
  cases listed

end SLanguage.Session
