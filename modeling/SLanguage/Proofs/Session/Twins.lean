import SLanguage.Proofs.Payment
import SLanguage.Proofs.Session.Pairs

/-! One session or run on two ledgers. Of a ledger it learns whether charges are paid, and how
many were tried, which only a signal asks for. So ledgers that answer the payer's charges alike
make no difference where no signal waits for a count. -/

namespace SLanguage

/-- Ledgers that are alike answer the charges of a payer alike, and are alike after charges and
refunds. -/
structure Metered.Congruent (payer? : Option String) (alike : Ledger → Ledger → Prop) : Prop where
  bill : ∀ {l l' : Ledger} (amount : Nat), alike l l' →
    (bill payer? amount l).1 = (bill payer? amount l').1 ∧
      alike (bill payer? amount l).2 (bill payer? amount l').2
  refund : ∀ {l l' : Ledger} (amount : Nat), alike l l' →
    alike (refund payer? amount l) (refund payer? amount l')

open Metered (Congruent)

variable {payer? : Option String} {alike : Ledger → Ledger → Prop} {l l' : Ledger}

/-- Work that goes alike from alike states gives the same answer and leaves alike states, or does
not end in either. -/
theorem exists_of_twins {α σ : Type} {R : σ → σ → Prop} {first second : Option (α × σ)}
    (twins : Option.Rel (fun a b => a.1 = b.1 ∧ R a.2 b.2) first second) :
    (first = none ∧ second = none) ∨ ∃ answer left left',
      first = some (answer, left) ∧ second = some (answer, left') ∧ R left left' := by
  cases twins with
  | none => exact .inl ⟨rfl, rfl⟩
  | @some a b given =>
    obtain ⟨answer, left⟩ := a
    obtain ⟨answer', left'⟩ := b
    obtain ⟨rfl, alike⟩ := given
    exact .inr ⟨answer, left, left', rfl, rfl, alike⟩

theorem Run.toEnd_twins (congruent : Congruent payer? alike) {r : Run} (signal : r.signal = {})
    (payer : r.payer? = payer?) (p : Program) (n : Nat) (m : Machine) (same : alike l l') :
    Option.Rel (fun a b => a.1 = b.1 ∧ alike a.2 b.2)
      ((r.toEnd p n m).run l) ((r.toEnd p n m).run l') := by
  induction n generalizing m l l' with
  | zero => exact .none
  | succ n ih =>
    rw [run_toEnd_succ signal, run_toEnd_succ signal]
    cases (m.step (r.evaluator.answerAt 0) p).run with
    | none => exact .none
    | some x =>
      obtain e | v? := x
      · exact .some ⟨rfl, same⟩
      · cases v? with
        | none => exact .some ⟨rfl, same⟩
        | some v =>
          obtain ⟨paid, same⟩ := congruent.bill v.cost same
          simp only [payer]
          generalize Metered.bill payer? v.cost l = billed at paid same ⊢
          generalize Metered.bill payer? v.cost l' = billed' at paid same ⊢
          obtain ⟨outcome, left⟩ := billed
          obtain ⟨outcome', left'⟩ := billed'
          obtain rfl : outcome = outcome' := paid
          cases outcome with
          | error c => exact .some ⟨rfl, same⟩
          | ok => exact ih v.after same

theorem Run.perform_twins (congruent : Congruent payer? alike) {r : Run} (signal : r.signal = {})
    (payer : r.payer? = payer?) (p : Program) (inputs : List Int64) (same : alike l l') :
    Option.Rel (fun a b => a.1 = b.1 ∧ alike a.2 b.2)
      ((r.perform p inputs).run l) ((r.perform p inputs).run l') := by
  obtain ⟨ended, ended'⟩ | ⟨outcome, left, left', ended, ended', same⟩ := exists_of_twins
    (toEnd_twins congruent signal payer p r.evaluator.stepLimit (.ofInputs p inputs) same)
  · rw [run_perform, run_perform, ended, ended']
    exact .none
  · rw [run_perform, run_perform, ended, ended']
    exact .some ⟨rfl, same⟩

namespace Session

/-- The session charges this payer, and its signal waits for no count of charges. -/
structure Prompt (payer? : Option String) (s : Session) : Prop where
  payer : s.payer? = payer?
  due : s.signal.due? = none

variable {s t : Session}

theorem Prompt.forward {before after : Ledger} (prompt : s.Prompt payer?)
    (moved : Forward s before t after) : t.Prompt payer? := by
  cases moved with
  | replayed => exact ⟨prompt.payer, prompt.due⟩
  | halted => exact ⟨prompt.payer, prompt.due⟩
  | executed => exact ⟨prompt.payer, prompt.due⟩

theorem Prompt.isRaised (prompt : s.Prompt payer?) (charges : Nat) :
    s.signal.isRaised charges = s.signal.raised := by
  simp [Signal.isRaised, prompt.due]

theorem payFor_twins (congruent : Congruent payer? alike) (payer : s.payer? = payer?)
    (same : alike l l') (v : Visit) (t : Session) :
    (s.payFor v t l).1 = (s.payFor v t l').1 ∧ alike (s.payFor v t l).2 (s.payFor v t l').2 := by
  obtain ⟨paid, same⟩ := congruent.bill v.cost same
  simp only [payFor, payer]
  exact ⟨by rw [paid], same⟩

theorem forward_twins (congruent : Congruent payer? alike) (payer : s.payer? = payer?)
    (same : alike l l') :
    Option.Rel (fun a b => a.1 = b.1 ∧ alike a.2 b.2) (s.forward.run l) (s.forward.run l') := by
  cases future : s.future with
  | cons v rest =>
    rw [run_forward_replay future, run_forward_replay future]
    exact .some (payFor_twins congruent payer same v _)
  | nil =>
    rw [run_forward_fresh future, run_forward_fresh future]
    cases s.nextStep with
    | none => exact .none
    | some r =>
      obtain e | visit? := r
      · exact .some ⟨rfl, same⟩
      · cases visit? with
        | none => exact .some ⟨rfl, same⟩
        | some v => exact .some (payFor_twins congruent payer same v _)

theorem back_twins (congruent : Congruent payer? alike) (payer : s.payer? = payer?)
    (same : alike l l') : (s.back l).1 = (s.back l').1 ∧ alike (s.back l).2 (s.back l').2 := by
  unfold back
  split
  · exact ⟨rfl, same⟩
  · rw [payer]
    exact ⟨rfl, congruent.refund _ same⟩

/-- Without an appointment, sessions that are the same do the same on ledgers that are alike. -/
theorem paired_twins (congruent : Congruent payer? alike) :
    Paired fun s l s' l' => s = s' ∧ alike l l' ∧ s.Prompt payer? where
  limit := by
    rintro s l _ l' ⟨rfl, -⟩
    rfl
  raised := by
    rintro s l _ l' ⟨rfl, -, prompt⟩
    rw [prompt.isRaised, prompt.isRaised]
  current := by
    rintro s l _ l' ⟨rfl, -⟩
    rfl
  running := by
    rintro s l _ l' ⟨rfl, -⟩
    rfl
  atBreakpoint := by
    rintro s l _ l' ⟨rfl, -⟩
    rfl
  state := by
    rintro s l _ l' state ⟨rfl, same, prompt⟩
    exact ⟨rfl, same, prompt.payer, prompt.due⟩
  marks := by
    rintro s l _ l' breakpoints ⟨rfl, same, prompt⟩
    exact ⟨rfl, same, prompt.payer, prompt.due⟩
  clear := by
    rintro s l _ l' ⟨rfl, same, prompt⟩
    have cleared (charges : Nat) : s.signal.clear charges = {} := by
      simp [Signal.clear, prompt.due]
    rw [cleared, cleared]
    exact ⟨rfl, same, prompt.payer, rfl⟩
  forward := by
    rintro s l _ l' ⟨rfl, same, prompt⟩
    obtain ⟨ran, ran'⟩ | ⟨outcome, ledger, ledger', ran, ran', same⟩ :=
      exists_of_twins (forward_twins congruent prompt.payer same)
    · rw [ran, ran']
      exact .none
    · rw [ran, ran']
      obtain e | t := outcome
      · exact .some (.failed e ⟨rfl, same, prompt⟩)
      · exact .some (.moved ⟨rfl, same, prompt.forward (forward_of_run ran)⟩)
  back := by
    rintro s l _ l' ⟨rfl, same, prompt⟩
    obtain ⟨first, second⟩ := back_twins congruent prompt.payer same
    refine ⟨first, second, ?_⟩
    unfold back
    split
    · exact prompt
    · exact ⟨prompt.payer, prompt.due⟩

theorem resume_twins (congruent : Congruent payer? alike) (prompt : s.Prompt payer?)
    (same : alike l l') (breakpoints : List Nat) :
    Option.Rel (fun a b => (a.1 = b.1 ∧ alike a.2 b.2) ∧ a.1.1.Prompt payer?)
      (s.resume breakpoints l) (s.resume breakpoints l') := by
  have ran := (paired_twins congruent).resume ⟨rfl, same, prompt⟩ breakpoints
  generalize s.resume breakpoints l = first at ran ⊢
  generalize s.resume breakpoints l' = second at ran ⊢
  cases ran with
  | none => exact .none
  | some answers =>
    obtain ⟨failure, left, same, prompt⟩ := answers
    exact .some ⟨⟨Prod.ext left failure.symm, same⟩, prompt⟩

end Session

end SLanguage
