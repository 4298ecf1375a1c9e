import SLanguage.Proofs.Session.Rounds
import SLanguage.Proofs.Session.Running

/-! Resuming from anywhere. A resumed session goes forward step by step, be the steps known or
new, and comes to rest at the first halt or breakpoint after the place where it stood, unless a
step on the way there fails. -/

namespace SLanguage.Session

variable {r : Run} {p : Program} {first : Machine} {s t u : Session}
  {before between after : Ledger} {breakpoints : List Nat} {failure? : Option RunError}

/-- So many steps forward succeed one after the other. -/
inductive StepsOver : Nat → Session → Ledger → Session → Ledger → Prop where
  | refl (s : Session) (ledger : Ledger) : StepsOver 0 s ledger s ledger
  | step {k : Nat} {s t u : Session} {before between after : Ledger}
      (moved : s.forward.run before = some (.ok t, between))
      (rest : StepsOver k t between u after) : StepsOver (k + 1) s before u after

/-- What becomes of a session that is resumed with these breakpoints. A session at the halt stays
there. Otherwise it steps to the first place to stop at, or as far as it gets. -/
inductive Resumption (answering : Answering) (p : Program) (first : Machine)
    (breakpoints : List Nat) (s : Session) (before : Ledger) :
    Session → Option RunError → Ledger → Prop where
  | halted (stopped : s.current.isRunning = false) :
    Resumption answering p first breakpoints s before
      { s with breakpoints := .ofList breakpoints, state := .finished } none before
  | stopped {k : Nat} {u : Session} {after : Ledger}
      (stop : first.FirstStop answering p breakpoints s.past.length (s.past.length + k))
      (steps : s.StepsOver k before u after) (position : u.past.length = s.past.length + k)
      (shown : first.shown? answering p (s.past.length + k) = some u.current) :
    Resumption answering p first breakpoints s before
      { u with
        breakpoints := .ofList breakpoints
        state := if u.current.isRunning then .atBreakpoint else .finished } none after
  | failed {k : Nat} {u : Session} {between after : Ledger} {e : RunError}
      (running : s.current.isRunning = true)
      (passes : ∀ j m, s.past.length < j → j ≤ s.past.length + k →
        first.after? answering p j = some m → ¬ m.StopsAt breakpoints)
      (steps : s.StepsOver k before u between) (position : u.past.length = s.past.length + k)
      (fails : u.forward.run between = some (.error e, after)) :
    Resumption answering p first breakpoints s before
      { u with breakpoints := .ofList breakpoints } (some e) after

/-- A session whose program is running moves when it steps. -/
theorem OnRun.moved (h : s.OnRun r p first) (running : s.machine.isRunning = true)
    (assembled : p.Assembled) (inRange : first.InRange p)
    (ran : s.forward.run before = some (.ok t, between)) :
    t.OnRun r p first ∧ t.past.length = s.past.length + 1 ∧ t.signal = s.signal := by
  have moved := forward_of_run ran
  refine ⟨h.forward moved, ?_⟩
  cases moved with
  | replayed => exact ⟨rfl, rfl⟩
  | halted unknown next =>
    rw [nextStep, h.evaluator, h.program] at next
    have halted := (h.machine_inRange assembled inRange).halted next
    cases running.symm.trans halted
  | executed => exact ⟨rfl, rfl⟩

namespace Resumption

variable (h : s.OnRun r p first) (running : s.machine.isRunning = true)
  (assembled : p.Assembled) (inRange : first.InRange p)
  (ran : s.forward.run before = some (.ok t, between))

include h running assembled inRange ran

/-- The step leads to the first place to stop at. -/
theorem of_stop (stops : t.machine.StopsAt breakpoints) :
    Resumption (r.evaluator.answerAt 0) p first breakpoints s before
      (t.marked (.ofList breakpoints)).rested none between := by
  obtain ⟨onRun, position, -⟩ := h.moved running assembled inRange ran
  have there := onRun.after?_position
  have shown := onRun.shown?_position
  rw [position] at there shown
  have rested : (t.marked (.ofList breakpoints)).rested =
      { t with
        breakpoints := .ofList breakpoints
        state := if t.current.isRunning then .atBreakpoint else .finished } := by
    rw [isRunning_current]
    rfl
  rw [rested]
  exact .stopped ⟨Nat.lt_succ_self _, ⟨_, there, stops⟩, fun j _ gt lt => by omega⟩
    (.step ran (.refl t between)) position shown

/-- The step leads to a place that is passed by. -/
theorem later (passes : ¬ t.machine.StopsAt breakpoints)
    (rest : Resumption (r.evaluator.answerAt 0) p first breakpoints t between u failure? after) :
    Resumption (r.evaluator.answerAt 0) p first breakpoints s before u failure? after := by
  obtain ⟨onRun, position, -⟩ := h.moved running assembled inRange ran
  have there := onRun.after?_position
  have passed : ∀ m, first.after? (r.evaluator.answerAt 0) p (s.past.length + 1) = some m →
      ¬ m.StopsAt breakpoints := fun m at_m => by
    rw [← position, there] at at_m
    cases at_m
    exact passes
  cases rest with
  | halted stopped => exact absurd (.inl ((isRunning_current t).symm.trans stopped)) passes
  | @stopped k u _ stop steps at_u shown =>
    have further : t.past.length + k = s.past.length + (k + 1) := by omega
    rw [further] at stop at_u shown
    refine .stopped ⟨by omega, stop.stops, fun j m gt lt => ?_⟩ (.step ran steps) at_u shown
    by_cases next : j = s.past.length + 1
    · exact next ▸ passed m
    · exact stop.least j m (by omega) lt
  | @failed k u mid _ e _ others steps at_u fails =>
    have further : t.past.length + k = s.past.length + (k + 1) := by omega
    rw [further] at others at_u
    refine .failed ((isRunning_current s).trans running) (fun j m gt le => ?_) (.step ran steps)
      at_u fails
    by_cases next : j = s.past.length + 1
    · exact next ▸ passed m
    · exact others j m (by omega) le

end Resumption

/-- Before a place to stop at there is a step to make. -/
theorem OnRun.exists_visit (h : s.OnRun r p first) {q : Nat}
    (stop : first.FirstStop (r.evaluator.answerAt 0) p breakpoints s.past.length q) :
    ∃ v, s.machine.visit? (r.evaluator.answerAt 0) p = some v := by
  obtain ⟨_, reached, -⟩ := stop.stops
  obtain ⟨mid, next⟩ := Machine.exists_after?_of_le stop.later reached
  rw [Machine.after?_succ, h.after?_position] at next
  obtain ⟨v, made, -⟩ := Option.map_eq_some_iff.1 next
  exact ⟨v, made⟩

theorem Resumption.position (h : s.OnRun r p first) {q : Nat}
    (stop : first.FirstStop (r.evaluator.answerAt 0) p breakpoints s.past.length q)
    (resumption : Resumption (r.evaluator.answerAt 0) p first breakpoints s before t none after) :
    t.past.length = q := by
  cases resumption with
  | halted stopped =>
    obtain ⟨v, made⟩ := h.exists_visit stop
    cases ((isRunning_current s).symm.trans stopped).symm.trans (Machine.isRunning_of_visit? made)
  | stopped stop' _ position => exact position.trans (stop'.unique stop)

theorem OnRun.advance_of_halted (h : s.OnRun r p first) (signal : s.signal = {})
    (halted : s.machine.isRunning = false) (breakpoints : Std.TreeSet Nat) (n : Nat)
    (ledger : Ledger) : advance (n + 1) (s.marked breakpoints) ledger =
      some (({ s with breakpoints, state := .finished }, none), ledger) := by
  have rests : (Session.marked { s with state := .finished } breakpoints).rests = true := by
    change (!s.machine.isRunning || _) = true
    rw [halted]
    rfl
  have rested : (Session.marked { s with state := .finished } breakpoints).rested =
      { s with breakpoints, state := .finished } := by
    change ({ s with
      breakpoints
      state := if s.machine.isRunning then .atBreakpoint else .finished } : Session) = _
    rw [halted]
    rfl
  rw [advance_marked signal, h.forward_of_halted halted]
  exact (if_pos rests).trans (by rw [rested])

section Rounds

variable (assembled : p.Assembled) (inRange : first.InRange p)

include assembled inRange

theorem resumption_of_advance (h : s.OnRun r p first) (signal : s.signal = {}) {n : Nat}
    (ran : advance n (s.marked (.ofList breakpoints)) before = some ((t, failure?), after)) :
    Resumption (r.evaluator.answerAt 0) p first breakpoints s before t failure? after := by
  induction n generalizing s before with
  | zero => cases ran
  | succ n ih =>
    cases running : s.machine.isRunning with
    | false =>
      rw [h.advance_of_halted signal running] at ran
      cases ran
      exact .halted ((isRunning_current s).trans running)
    | true =>
      rw [advance_marked signal] at ran
      split at ran
      · cases ran
      · rename_i fails
        cases ran
        exact .failed (k := 0) ((isRunning_current s).trans running) (fun j _ gt le => by omega)
          (.refl s _) rfl fails
      · rename_i u between moved
        obtain ⟨onRun, -, same⟩ := h.moved running assembled inRange moved
        split at ran
        · rename_i rests
          cases ran
          exact .of_stop h running assembled inRange moved (rests_marked_iff.1 rests)
        · rename_i passes
          exact .later h running assembled inRange moved
            (fun stops => passes (rests_marked_iff.2 stops)) (ih onRun (same.trans signal) ran)

/-- Steps up to the first place to stop at are the rounds of a resumed session. -/
theorem advance_of_stop (h : s.OnRun r p first) (signal : s.signal = {}) {k : Nat}
    (stop : first.FirstStop (r.evaluator.answerAt 0) p breakpoints s.past.length
      (s.past.length + k)) (steps : s.StepsOver k before u after) :
    ∃ n, advance n (s.marked (.ofList breakpoints)) before =
      some (((u.marked (.ofList breakpoints)).rested, none), after) := by
  induction steps with
  | refl => exact absurd stop.later (Nat.lt_irrefl _)
  | @step k s t u before between after moved rest ih =>
    obtain ⟨_, reached, atLast⟩ := stop.stops
    obtain ⟨v, made⟩ := h.exists_visit stop
    have running := Machine.isRunning_of_visit? made
    obtain ⟨onRun, position, same⟩ := h.moved running assembled inRange moved
    have there := onRun.after?_position
    -- The first of the steps that leads to a place to stop at is the last one.
    by_cases stops : t.machine.StopsAt breakpoints
    · have last : k = 0 := by
        by_contra more
        exact stop.least _ _ (by omega) (by omega) there stops
      subst last
      cases rest with
      | refl =>
        refine ⟨1, ?_⟩
        rw [advance_marked signal, moved]
        exact if_pos (rests_marked_iff.2 stops)
    · have further : s.past.length + (k + 1) = t.past.length + k := by omega
      have more : k ≠ 0 := by
        rintro rfl
        rw [further, Nat.add_zero, there] at reached
        cases reached
        exact stops atLast
      obtain ⟨n, ran⟩ := ih onRun (same.trans signal)
        ⟨by omega, further ▸ stop.stops, fun j m gt lt => stop.least j m (by omega) (by omega)⟩
      refine ⟨n + 1, ?_⟩
      rw [advance_marked signal, moved]
      exact (if_neg fun rests => stops (rests_marked_iff.1 rests)).trans ran

/-- Steps that pass by every place, up to one that fails, are the rounds of a resumed session. -/
theorem advance_of_failure (h : s.OnRun r p first) (signal : s.signal = {}) {k : Nat}
    (running : s.machine.isRunning = true)
    (passes : ∀ j m, s.past.length < j → j ≤ s.past.length + k →
      first.after? (r.evaluator.answerAt 0) p j = some m → ¬ m.StopsAt breakpoints)
    (steps : s.StepsOver k before u between) {e : RunError}
    (fails : u.forward.run between = some (.error e, after)) :
    ∃ n, advance n (s.marked (.ofList breakpoints)) before =
      some ((u.marked (.ofList breakpoints), some e), after) := by
  induction steps with
  | refl s ledger =>
    refine ⟨1, ?_⟩
    rw [advance_marked signal, fails]
  | @step k s t u before between after moved rest ih =>
    obtain ⟨onRun, position, same⟩ := h.moved running assembled inRange moved
    have passed := passes _ _ (by omega) (by omega) onRun.after?_position
    have further : t.machine.isRunning = true := by
      by_contra halted
      exact passed (.inl (by simpa using halted))
    obtain ⟨n, ran⟩ := ih onRun (same.trans signal) further
      (fun j m gt le => passes j m (by omega) (by omega)) fails
    refine ⟨n + 1, ?_⟩
    rw [advance_marked signal, moved]
    exact (if_neg fun rests => passed (rests_marked_iff.1 rests)).trans ran

/-- With rounds enough, a resumed session comes to the end of its resumption. -/
theorem advance_of_resumption (h : s.OnRun r p first) (signal : s.signal = {})
    (resumption :
      Resumption (r.evaluator.answerAt 0) p first breakpoints s before t failure? after) :
    ∃ n, advance n (s.marked (.ofList breakpoints)) before = some ((t, failure?), after) := by
  cases resumption with
  | halted stopped =>
    have halted := (isRunning_current s).symm.trans stopped
    exact ⟨1, h.advance_of_halted signal halted _ 0 before⟩
  | @stopped k u _ stop steps =>
    rw [isRunning_current]
    exact advance_of_stop assembled inRange h signal stop steps
  | failed running passes steps _ fails =>
    exact advance_of_failure assembled inRange h signal ((isRunning_current s).symm.trans running)
      passes steps fails

/-- A session ahead of which there is a place to stop at gets there, or a step fails before. -/
theorem exists_resumption (h : s.OnRun r p first) {k : Nat}
    (stop : first.FirstStop (r.evaluator.answerAt 0) p breakpoints s.past.length
      (s.past.length + k)) (before : Ledger) :
    ∃ t failure? after,
      Resumption (r.evaluator.answerAt 0) p first breakpoints s before t failure? after := by
  induction k generalizing s before with
  | zero => exact absurd stop.later (Nat.lt_irrefl _)
  | succ k ih =>
    obtain ⟨_, reached, atLast⟩ := stop.stops
    obtain ⟨v, made⟩ := h.exists_visit stop
    have running := Machine.isRunning_of_visit? made
    have step : s.nextStep = some (.ok (some v)) := by
      rw [nextStep, h.evaluator, h.program]
      exact Machine.visit?_eq_some_iff.1 made
    have ran : s.forward.run before = some (s.payFor v (s.passed v) before) := by
      rw [h.run_forward, step]
    cases moved : s.payFor v (s.passed v) before with
    | mk x between =>
      rw [moved] at ran
      obtain e | t := x
      · exact ⟨_, _, _, .failed (k := 0) ((isRunning_current s).trans running)
          (fun j _ gt le => by omega) (.refl s before) rfl ran⟩
      · obtain ⟨onRun, position, -⟩ := h.moved running assembled inRange ran
        by_cases stops : t.machine.StopsAt breakpoints
        · exact ⟨_, _, _, .of_stop h running assembled inRange ran stops⟩
        · have further : s.past.length + (k + 1) = t.past.length + k := by omega
          have later : t.past.length < s.past.length + (k + 1) := by
            by_contra last
            rw [show s.past.length + (k + 1) = t.past.length by
              have := stop.later
              omega, onRun.after?_position] at reached
            cases reached
            exact stops atLast
          obtain ⟨u, failure?, after, rest⟩ := ih onRun
            ⟨further ▸ later, further ▸ stop.stops,
              fun j m gt lt => stop.least j m (by omega) (by omega)⟩ between
          exact ⟨u, failure?, after, .later h running assembled inRange ran stops rest⟩

end Rounds

theorem within_of_evaluator {limit : Nat} (same : t.evaluator = (s.within limit).evaluator) :
    t.within limit = t := by
  have limited : { t.evaluator with stepLimit := limit } = t.evaluator := by
    rw [same]
    rfl
  exact congrArg (fun evaluator => { t with evaluator }) limited

/-- Resuming the session leaves it like the second one, with this reason if it fails. Machines may
take as many steps as they need, so the step limits of the two do not matter. -/
def ResumesTo (s : Session) (breakpoints : List Nat) (before : Ledger) (t : Session)
    (failure? : Option RunError) (after : Ledger) : Prop :=
  ∃ limit, s.evaluator.stepLimit ≤ limit ∧
    (s.within limit).resume breakpoints before = some ((t.within limit, failure?), after)

theorem resume_eq_some_iff : s.resume breakpoints before = some ((t, failure?), after) ↔
    ∃ u, advance s.evaluator.stepLimit (s.marked (.ofList breakpoints)) before =
        some ((u, failure?), after) ∧
      t = { u with signal := u.signal.clear after.charges } := by
  constructor
  · exact resume_eq_some
  · rintro ⟨u, ran, rfl⟩
    exact resume_of_advance ran

theorem resume_within {limit : Nat} (le : s.evaluator.stepLimit ≤ limit)
    (ran : s.resume breakpoints before = some ((t, failure?), after)) :
    (s.within limit).resume breakpoints before = some ((t.within limit, failure?), after) := by
  obtain ⟨u, moved, rfl⟩ := resume_eq_some_iff.1 ran
  have more := advance_within (s := s.marked (.ofList breakpoints)) le le moved
  exact resume_eq_some_iff.2 ⟨u.within limit, more, rfl⟩

theorem ResumesTo.unique {t' : Session} {failure?' : Option RunError} {after' : Ledger}
    (one : s.ResumesTo breakpoints before t failure? after)
    (other : s.ResumesTo breakpoints before t' failure?' after') :
    (∀ limit, t'.within limit = t.within limit) ∧ failure?' = failure? ∧ after' = after := by
  obtain ⟨limit, -, one⟩ := one
  obtain ⟨limit', -, other⟩ := other
  have first := resume_within (s := s.within limit) (Nat.le_max_left limit limit') one
  have second := resume_within (s := s.within limit') (Nat.le_max_right limit limit') other
  obtain ⟨⟨same, rfl⟩, rfl⟩ : ((t.within limit).within (max limit limit') =
      (t'.within limit').within (max limit limit') ∧ failure? = failure?') ∧ after = after' := by
    simpa using first.symm.trans second
  refine ⟨fun limit => ?_, rfl, rfl⟩
  have alike := congrArg (fun t => t.within limit) same
  exact alike.symm

/-- A signal that is raised stops a session before its first step. -/
theorem resumesTo_of_raised (raised : s.signal.isRaised before.charges = true) :
    s.ResumesTo breakpoints before
      { s with
        breakpoints := .ofList breakpoints
        signal := s.signal.clear before.charges } (some (.interrupted s.current)) before := by
  refine ⟨s.evaluator.stepLimit + 1, Nat.le_succ _, resume_eq_some_iff.2
    ⟨(s.within (s.evaluator.stepLimit + 1)).marked (.ofList breakpoints), ?_, rfl⟩⟩
  exact (advance_succ ..).trans (if_pos raised)

theorem resumesTo_iff_advance (signal : s.signal = {}) :
    s.ResumesTo breakpoints before t failure? after ↔
    ∃ limit n, s.evaluator.stepLimit ≤ limit ∧
      advance n ((s.within limit).marked (.ofList breakpoints)) before =
        some ((t.within limit, failure?), after) := by
  have clear (u : Session) (kept : u.signal = {}) :
      { u with signal := u.signal.clear after.charges } = u := by
    rw [kept]
    exact congrArg (fun signal => { u with signal }) kept.symm
  constructor
  · rintro ⟨limit, le, ran⟩
    obtain ⟨u, moved, same⟩ := resume_eq_some_iff.1 ran
    rw [clear u ((advance_keeps moved).1.trans signal)] at same
    exact ⟨limit, limit, le, same ▸ moved⟩
  · rintro ⟨limit, n, le, moved⟩
    have kept : t.signal = {} := (advance_keeps moved).1.trans signal
    -- One limit bounds the rounds and the steps of machines.
    refine ⟨max limit n, Nat.le_trans le (Nat.le_max_left ..), resume_eq_some_iff.2
      ⟨t.within (max limit n), ?_, (clear (t.within (max limit n)) kept).symm⟩⟩
    exact advance_within (Nat.le_max_right ..) (Nat.le_max_left ..) moved

/-- A session that stands at the same place of the run, however much of it is known to it, is
resumed in the same way. -/
theorem resumesTo_alongside (h : s.OnRun r p first) (signal : s.signal = {})
    (h' : u.OnRun r p first) (signal' : u.signal = {}) (position : u.past.length = s.past.length)
    (resumes : s.ResumesTo breakpoints before t failure? after) :
    ∃ t', u.ResumesTo breakpoints before t' failure? after ∧ t'.past = t.past ∧
      t'.current = t.current ∧ (failure? = none → t'.state = t.state) := by
  obtain ⟨limit, n, le, ran⟩ := (resumesTo_iff_advance signal).1 resumes
  have le : r.evaluator.stepLimit ≤ limit := h.evaluator ▸ le
  have past := h.past_eq h' position
  have along : ((s.within limit).marked (.ofList breakpoints)).Alongside
      ((u.within limit).marked (.ofList breakpoints)) (r.within limit) p first :=
    ⟨(h.within le).marked _, (h'.within le).marked _, past, signal'.trans signal.symm, rfl⟩
  obtain ⟨t', ran', beside, state⟩ := along.advance ran
  have same : t'.within limit = t' := within_of_evaluator (advance_keeps ran').2
  exact ⟨t', (resumesTo_iff_advance signal').2 ⟨limit, n, h'.evaluator ▸ le, same.symm ▸ ran'⟩,
    beside.past, beside.current, state⟩

section ResumesTo

variable (assembled : p.Assembled) (inRange : first.InRange p) (h : s.OnRun r p first)
  (signal : s.signal = {})

include assembled inRange h signal

/-- Resuming is what the resumption of the session says, at any limit that goes far enough. -/
theorem resumesTo_iff : s.ResumesTo breakpoints before t failure? after ↔
    ∃ limit, s.evaluator.stepLimit ≤ limit ∧
      Resumption ((r.within limit).evaluator.answerAt 0) p first breakpoints (s.within limit) before
        (t.within limit) failure? after := by
  rw [resumesTo_iff_advance signal]
  have within {limit : Nat} (le : s.evaluator.stepLimit ≤ limit) :
      (s.within limit).OnRun (r.within limit) p first := h.within (h.evaluator ▸ le)
  constructor
  · rintro ⟨limit, n, le, ran⟩
    exact ⟨limit, le, resumption_of_advance assembled inRange (within le) signal ran⟩
  · rintro ⟨limit, le, resumption⟩
    obtain ⟨n, ran⟩ := advance_of_resumption assembled inRange (within le) signal resumption
    exact ⟨limit, n, le, ran⟩

/-- If there is a place to stop at ahead, resuming comes to an end: there or before. -/
theorem exists_resumesTo {limit q : Nat}
    (stop : first.FirstStop ((r.within limit).evaluator.answerAt 0) p breakpoints s.past.length q)
    (before : Ledger) : ∃ t failure? after, s.ResumesTo breakpoints before t failure? after ∧
      (failure? = none → t.past.length = q) := by
  let ample := max s.evaluator.stepLimit limit
  have le : s.evaluator.stepLimit ≤ ample := Nat.le_max_left ..
  have stop := stop.of_extends (r.extends_of_le (Nat.le_max_right s.evaluator.stepLimit limit))
  have onRun : (s.within ample).OnRun (r.within ample) p first := h.within (h.evaluator ▸ le)
  obtain ⟨k, rfl⟩ := Nat.exists_eq_add_of_le (Nat.le_of_lt stop.later)
  obtain ⟨t, failure?, after, resumption⟩ :=
    exists_resumption (s := s.within ample) assembled inRange onRun stop before
  obtain ⟨n, ran⟩ := advance_of_resumption assembled inRange onRun signal resumption
  have same : t.within ample = t := within_of_evaluator (advance_keeps ran).2
  refine ⟨t, failure?, after, (resumesTo_iff assembled inRange h signal).2
    ⟨ample, le, same.symm ▸ resumption⟩, ?_⟩
  rintro rfl
  exact resumption.position onRun stop

end ResumesTo

/-- A session that moves have led to, at a place of the run of its program. If its signal is
raised, resuming moves nothing and shows this place, and the signal is cleared. If it has no
signal, resuming goes to the first place after it where the program has halted or one of the
breakpoints runs next, unless a step on the way fails: then the session is left where the steps
before have brought it. A halted session stays where it is. How much of the way the session knows
from before makes no difference, and there is one way only in which resuming ends. -/
theorem resume_stops_first (r : Run) {p : Program} (assembled : p.Assembled)
    (inputs : List Int64) {s : Session} (reached : (start r p inputs).Reaches s)
    (breakpoints : List Nat) (before : Ledger) :
    (s.signal.isRaised before.charges = true →
      s.ResumesTo breakpoints before
        { s with
          breakpoints := .ofList breakpoints
          signal := s.signal.clear before.charges } (some (.interrupted s.current)) before ∧
      (s.signal.clear before.charges).isRaised before.charges = false) ∧
    (s.signal = {} →
      (∀ t failure? after, s.ResumesTo breakpoints before t failure? after ↔
        ∃ limit, s.evaluator.stepLimit ≤ limit ∧
          Resumption ((r.within limit).evaluator.answerAt 0) p (.ofInputs p inputs) breakpoints
            (s.within limit) before (t.within limit) failure? after) ∧
      (∀ limit q, (Machine.ofInputs p inputs).FirstStop ((r.within limit).evaluator.answerAt 0) p
          breakpoints s.past.length q →
        ∃ t failure? after, s.ResumesTo breakpoints before t failure? after ∧
          (failure? = none → t.past.length = q)) ∧
      ∀ u, (start r p inputs).Reaches u → u.signal = {} → u.past.length = s.past.length →
        ∀ t failure? after, s.ResumesTo breakpoints before t failure? after →
          ∃ t', u.ResumesTo breakpoints before t' failure? after ∧ t'.past = t.past ∧
            t'.current = t.current ∧ (failure? = none → t'.state = t.state)) ∧
    ∀ t failure? after t' failure?' after', s.ResumesTo breakpoints before t failure? after →
      s.ResumesTo breakpoints before t' failure?' after' →
        (∀ limit, t'.within limit = t.within limit) ∧ failure?' = failure? ∧ after' = after := by
  obtain ⟨onRun, -⟩ := reached.onRun
  have inRange : (Machine.ofInputs p inputs).InRange p := Machine.inRange_start _ _
  refine ⟨fun raised => ⟨resumesTo_of_raised raised, Signal.isRaised_clear _ _⟩, fun signal =>
    ⟨fun _ _ _ => resumesTo_iff assembled inRange onRun signal,
      fun _ _ stop => exists_resumesTo assembled inRange onRun signal stop before,
      fun u reached' signal' position _ _ _ => ?_⟩,
    fun _ _ _ _ _ _ => ResumesTo.unique⟩
  exact resumesTo_alongside onRun signal reached'.onRun.1 signal' position

/-- A session on `moving` that is back at the start and knows two steps. With a breakpoint at the
first instruction it makes these two and a third one. -/
theorem resume_stops_first_moving :
    let r : Run := { evaluator := { functions := ∅, stepLimit := 10 } }
    ∃ s, (start r moving [2]).Reaches s ∧ s.signal = {} ∧ s.past.length = 0 ∧
      s.future.length = 2 ∧ ∃ t failure? after,
        s.ResumesTo [0] Ledger.empty t failure? after ∧ (failure? = none → t.past.length = 3) := by
  intro r
  have ended : ((start r moving [2]).perform (.resume [2]) Ledger.empty).map (fun t =>
      let u := ((t.1.1.back t.2).1.back t.2).1
      (u.past.length, u.future.length, u.signal.raised, u.signal.due?)) =
        some (0, 2, false, none) := by
    decide +kernel
  obtain ⟨⟨⟨t, failure?⟩, after⟩, ran, eq⟩ := Option.map_eq_some_iff.1 ended
  obtain ⟨position, eq⟩ := Prod.mk.inj eq
  obtain ⟨ahead, eq⟩ := Prod.mk.inj eq
  obtain ⟨raised, due⟩ := Prod.mk.inj eq
  let u := ((t.back after).1.back after).1
  have reached : (start r moving [2]).Reaches u :=
    .move (m := .back) (.move (m := .back) (.move .refl ran) rfl) rfl
  have signal : u.signal = {} := congrArg₂ Signal.mk raised due
  let next? (k : Nat) : Option (Option Nat) :=
    ((Machine.ofInputs moving [2]).after? (r.evaluator.answerAt 0) moving k).map Machine.next?
  have nexts : next? 1 = some (some 1) ∧ next? 2 = some (some 2) ∧ next? 3 = some (some 0) := by
    decide +kernel
  have stop : (Machine.ofInputs moving [2]).FirstStop (r.evaluator.answerAt 0) moving [0]
      u.past.length 3 := by
    rw [show u.past.length = 0 from position]
    obtain ⟨m, made, next⟩ := Option.map_eq_some_iff.1 nexts.2.2
    refine ⟨by decide, ⟨m, made, .inr ⟨0, List.mem_singleton.2 rfl, next⟩⟩,
      fun j m gt lt at_j => ?_⟩
    have passes : ∃ k, m.next? = some (k + 1) := by
      have next : next? j = some m.next? := Option.map_eq_some_iff.2 ⟨m, at_j, rfl⟩
      obtain rfl | rfl : j = 1 ∨ j = 2 := by omega
      · exact ⟨0, Option.some.inj (next.symm.trans nexts.1)⟩
      · exact ⟨1, Option.some.inj (next.symm.trans nexts.2.1)⟩
    obtain ⟨k, passes⟩ := passes
    simp [Machine.StopsAt, Machine.isRunning, passes]
  refine ⟨u, reached, signal, position, ahead, ?_⟩
  obtain ⟨-, quiet, -⟩ := resume_stops_first r assembled_moving [2] reached [0] Ledger.empty
  exact (quiet signal).2.1 10 3 stop

end SLanguage.Session
