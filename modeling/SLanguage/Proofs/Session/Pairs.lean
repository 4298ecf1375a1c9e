import Mathlib.Data.List.Forall2
import SLanguage.Proofs.Session.Moves

/-! Two sessions side by side, each on its own ledger. A relation between them that the steps keep,
forward and back, is kept by all that may happen, and meanwhile both sessions answer alike. -/

namespace SLanguage.Session

/-- What may happen around a session. -/
inductive Event where
  | move (move : Move)
  | deposit (user : String) (amount : Nat)

/-- The answers of the moves among some events, in order, and the ledger after them. -/
def play : List Event → Session → Ledger → Option (List (Session × Option RunError) × Ledger)
  | [], _, ledger => some ([], ledger)
  | .move m :: rest, s, ledger =>
    (s.perform m ledger).bind fun (answer, ledger) =>
      (play rest answer.1 ledger).map fun (answers, ledger) => (answer :: answers, ledger)
  | .deposit user amount :: rest, s, ledger => play rest s (ledger.deposit user amount)

/-- What may tie a session and its ledger to another session and its ledger. -/
abbrev Pairing := Session → Ledger → Session → Ledger → Prop

namespace Pairing

/-- What becomes of a step forward of both: the same failure, or two sessions that have moved. -/
inductive Outcomes (R : Pairing) (s s' : Session) :
    Except RunError Session × Ledger → Except RunError Session × Ledger → Prop
  | failed {l l' : Ledger} (e : RunError) (left : R s l s' l') :
    Outcomes R s s' (.error e, l) (.error e, l')
  | moved {t t' : Session} {l l' : Ledger} (left : R t l t' l') :
    Outcomes R s s' (.ok t, l) (.ok t', l')

/-- Answers to a move: the same failure, if any, and what is left is tied as before. -/
def Answers (R : Pairing) (a b : (Session × Option RunError) × Ledger) : Prop :=
  b.1.2 = a.1.2 ∧ R a.1.1 a.2 b.1.1 b.2

end Pairing

/-- What happens without a choice of the sessions leaves them tied. -/
def Event.KeptBy (R : Pairing) : Event → Prop
  | .move (.signal signal) => ∀ s l s' l', R s l s' l' → R { s with signal } l { s' with signal } l'
  | .move _ => True
  | .deposit user amount => ∀ s l s' l', R s l s' l' →
    R s (l.deposit user amount) s' (l'.deposit user amount)

/-- What is tied together looks the same wherever a move depends on it, and stays tied in every
part of a move. -/
structure Paired (R : Pairing) : Prop where
  limit : ∀ {s l s' l'}, R s l s' l' → s'.evaluator.stepLimit = s.evaluator.stepLimit
  raised : ∀ {s l s' l'}, R s l s' l' →
    s'.signal.isRaised l'.charges = s.signal.isRaised l.charges
  current : ∀ {s l s' l'}, R s l s' l' → s'.current = s.current
  running : ∀ {s l s' l'}, R s l s' l' → s'.machine.isRunning = s.machine.isRunning
  atBreakpoint : ∀ {s l s' l'}, R s l s' l' → s'.atBreakpoint = s.atBreakpoint
  state : ∀ {s l s' l'} state, R s l s' l' → R { s with state } l { s' with state } l'
  marks : ∀ {s l s' l'} breakpoints, R s l s' l' →
    R { s with breakpoints } l { s' with breakpoints } l'
  clear : ∀ {s l s' l'}, R s l s' l' →
    R { s with signal := s.signal.clear l.charges } l
      { s' with signal := s'.signal.clear l'.charges } l'
  forward : ∀ {s l s' l'}, R s l s' l' →
    Option.Rel (R.Outcomes s s') (s.forward.run l) (s'.forward.run l')
  back : ∀ {s l s' l'}, R s l s' l' → R (s.back l).1 (s.back l).2 (s'.back l').1 (s'.back l').2

namespace Paired

variable {R : Pairing} {s s' : Session} {l l' : Ledger}

theorem advance (paired : Paired R) (tied : R s l s' l') (n : Nat) :
    Option.Rel R.Answers (Session.advance n s l) (Session.advance n s' l') := by
  induction n generalizing s s' l l' with
  | zero => exact .none
  | succ n ih =>
    rw [advance_succ, advance_succ, paired.raised tied, paired.current tied]
    split
    · exact .some ⟨rfl, tied⟩
    · have moved := paired.forward tied
      generalize s.forward.run l = first at moved ⊢
      generalize s'.forward.run l' = second at moved ⊢
      cases moved with
      | none => exact .none
      | some outcomes =>
        cases outcomes with
        | failed e left => exact .some ⟨rfl, left⟩
        | @moved t t' _ _ left =>
          have rests : t'.rests = t.rests := by
            rw [Session.rests, Session.rests, paired.running left, paired.atBreakpoint left]
          simp only [rests]
          split
          · refine .some ⟨rfl, ?_⟩
            simp only [Session.rested, paired.running left]
            exact paired.state _ left
          · exact ih left

theorem resume (paired : Paired R) (tied : R s l s' l') (breakpoints : List Nat) :
    Option.Rel R.Answers (s.resume breakpoints l) (s'.resume breakpoints l') := by
  have ran := paired.advance (paired.marks (.ofList breakpoints) tied) s.evaluator.stepLimit
  change Option.Rel _ ((Session.advance s.evaluator.stepLimit _ l).bind _)
    ((Session.advance s'.evaluator.stepLimit _ l').bind _)
  rw [paired.limit tied]
  generalize Session.advance _ _ l = first at ran ⊢
  generalize Session.advance _ _ l' = second at ran ⊢
  cases ran with
  | none => exact .none
  | @some a b answers =>
    obtain ⟨⟨t, _⟩, ledger⟩ := a
    obtain ⟨⟨t', failure?⟩, ledger'⟩ := b
    obtain ⟨rfl, left⟩ := answers
    exact .some ⟨rfl, paired.clear left⟩

theorem perform (paired : Paired R) (tied : R s l s' l') {move : Move}
    (kept : (Event.move move).KeptBy R) :
    Option.Rel R.Answers (s.perform move l) (s'.perform move l') := by
  cases move with
  | forward =>
    have moved := paired.forward tied
    change Option.Rel _ ((s.forward.run l).map _) ((s'.forward.run l').map _)
    generalize s.forward.run l = first at moved ⊢
    generalize s'.forward.run l' = second at moved ⊢
    cases moved with
    | none => exact .none
    | some outcomes =>
      cases outcomes with
      | failed e left => exact .some ⟨rfl, left⟩
      | moved left => exact .some ⟨rfl, left⟩
  | back => exact .some ⟨rfl, paired.back tied⟩
  | resume breakpoints => exact paired.resume tied breakpoints
  | stop => exact .some ⟨rfl, paired.state _ tied⟩
  | signal signal => exact .some ⟨rfl, kept _ _ _ _ tied⟩

/-- Whatever happens, the sessions answer alike, and what they have in common can be seen after
every move. -/
theorem play (paired : Paired R) {P : Session → Session → Prop} {Q : Ledger → Ledger → Prop}
    (shows : ∀ {s l s' l'}, R s l s' l' → P s s') (leaves : ∀ {s l s' l'}, R s l s' l' → Q l l')
    {events : List Event} (kept : ∀ e ∈ events, e.KeptBy R) (tied : R s l s' l') :
    Option.Rel (fun a b => List.Forall₂ (fun x y => P x.1 y.1 ∧ y.2 = x.2) a.1 b.1 ∧ Q a.2 b.2)
      (play events s l) (Session.play events s' l') := by
  induction events generalizing s s' l l' with
  | nil => exact .some ⟨.nil, leaves tied⟩
  | cons event rest ih =>
    obtain ⟨now, later⟩ := List.forall_mem_cons.1 kept
    cases event with
    | deposit user amount => exact ih later (now _ _ _ _ tied)
    | move move =>
      have moved := paired.perform tied now
      unfold Session.play
      generalize s.perform move l = first at moved ⊢
      generalize s'.perform move l' = second at moved ⊢
      cases moved with
      | none => exact .none
      | @some a b answers =>
        obtain ⟨⟨t, _⟩, ledger⟩ := a
        obtain ⟨⟨t', failure?⟩, ledger'⟩ := b
        obtain ⟨rfl, left⟩ := answers
        have played := ih later left
        change Option.Rel _ ((Session.play rest t ledger).map _)
          ((Session.play rest t' ledger').map _)
        generalize Session.play rest t ledger = first at played ⊢
        generalize Session.play rest t' ledger' = second at played ⊢
        cases played with
        | none => exact .none
        | some same => exact .some ⟨.cons ⟨shows left, rfl⟩ same.1, same.2⟩

end Paired

end SLanguage.Session
