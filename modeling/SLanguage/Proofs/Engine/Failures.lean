import SLanguage.Proofs.Expansion.Generations
import SLanguage.Proofs.Session.Moves

/-! Why runs of ready programs fail. All functions that such a program comes to call are known,
and none of its jumps goes nowhere. So a call fails only for want of room or of names, and a run
for want of credits besides, or because it is stopped from outside. It does not matter either
whether more functions are known by then. -/

namespace SLanguage

/-- What may stop a run whose calls all lead to functions. -/
inductive RunError.Expected : RunError → Prop where
  | credits (cause : Shortfall) : Expected (.credits cause)
  | cancelled : Expected .cancelled
  | interrupted (last : Snapshot) : Expected (.interrupted last)
  | callDepth (function : String) (limit : Nat) : Expected (.callDepthExceeded function limit)
  | names (cause : OutOfNames) : Expected (.expand (.names cause))

namespace Call

/-- All functions that the call names resolve. -/
def Resolves (functions : Functions) (c : Call) : Prop :=
  ∀ name ∈ c.functions, functions.Resolves name

variable {functions : Functions} {c inner : Call} {callee : Program} {i : Instruction}

theorem Resolves.argument (resolves : c.Resolves functions)
    (inside : .call inner.function inner.arguments ∈ c.arguments) : inner.Resolves functions :=
  fun name named => resolves name
    (List.mem_cons_of_mem _ (Argument.functions_subset inside named))

theorem Resolves.body (resolves : c.Resolves functions)
    (found : functions.find? c.function = some callee) (mem : i ∈ callee.instructions.toList)
    (calls : i.op.call? = some inner) : inner.Resolves functions :=
  fun name named => (resolves c.function (List.mem_cons_self ..)).of_found found name
    (Program.mem_callees.2 ⟨i, mem, inner, calls, named⟩)

theorem Resolves.rename (resolves : c.Resolves functions) (var : Variable → Variable) :
    (c.rename var).Resolves functions := by
  intro name named
  rw [Call.functions, Call.rename, Argument.functionsOf_rename] at named
  exact resolves name named

theorem Resolves.exists_find? (resolves : c.Resolves functions) :
    ∃ f, functions.find? c.function = some f :=
  (resolves c.function (List.mem_cons_self ..)).exists_find?

/-- A call of functions that resolve fails only for want of room or of names. -/
theorem Resolves.failsWith {ev : Evaluator} (assembled : ∀ f ∈ ev.functions.items, f.Assembled)
    (resolves : c.Resolves ev.functions) (room : Nat) (s : Store) :
    (ev.answer room c s).FailsWith RunError.Expected := by
  refine Evaluator.answer_failsWith_of (fun _ => Resolves ev.functions) assembled ?_ ?_ ?_ ?_ ?_
    room resolves s
  · exact fun c _ => .callDepth c.function _
  · intro room c resolves unknown
    obtain ⟨f, found⟩ := resolves.exists_find?
    cases unknown.symm.trans found
  · exact fun _ out => .names out
  · exact fun room c inner resolves inside => resolves.argument inside
  · intro room c callee i inner var resolves found mem calls
    exact (resolves.body found mem calls).rename var

end Call

namespace Evaluator

variable {ev : Evaluator} {larger : Functions} {c : Call}

theorem entry_congr (same : larger.find? c.function = ev.functions.find? c.function)
    (values : List Nat) :
    ({ ev with functions := larger } : Evaluator).entry c values = ev.entry c values := by
  simp only [entry, direct, spliced, Frame.splice, same]

/-- A call is answered alike if more functions are known than it comes to. -/
theorem answer_agrees_of_extends (assembled : ∀ f ∈ ev.functions.items, f.Assembled)
    (grown : ev.functions.Extends larger) (room : Nat) (resolves : c.Resolves ev.functions)
    (s : Store) :
    Attempt.Agrees (fun _ => False) Eq (ev.answer room c s)
      (({ ev with functions := larger } : Evaluator).answer room c s) := by
  induction room generalizing c s with
  | zero => exact .of_stop (some _)
  | succ room ih =>
    have read : Attempt.Agrees (fun _ => False) Eq (arguments (ev.answer room) s c.arguments)
        (arguments (({ ev with functions := larger } : Evaluator).answer room) s
          (Argument.renameAll id c.arguments)) := by
      refine arguments_agree (fun _ _ => rfl) fun before inner after _ parts _ _ => ?_
      rw [Call.rename_id]
      refine ih (resolves.argument ?_) s
      rw [parts]
      exact List.mem_append_right _ (List.mem_cons_self ..)
    rw [Argument.renameAll_id] at read
    obtain ⟨callee, found⟩ := resolves.exists_find?
    rw [answer, answer]
    refine read.bind ?_
    rintro yields _ rfl
    rw [entry_congr ((grown _ callee found).trans found.symm)]
    cases entered : ev.entry c (yields.map Yield.value) with
    | error cause => exact .of_stop (some cause)
    | ok e =>
      obtain ⟨callee', found', runs⟩ := runs_of_entry assembled entered
      refine (Attempt.Agrees.refl (Attempt.ofExcept (.ok e))).with_values.bind ?_
      rintro e' _ ⟨rfl, given, -⟩
      obtain rfl : e = e' := Attempt.pure_injective given
      refine (Machine.toHalt_agrees (fun j mem inner calls s => ?_) (Nat.le_refl _)
        (fun lt => absurd lt (Nat.lt_irrefl _)) _).bind ?_
      · obtain ⟨i, occurs, own, var, made, rfl⟩ := runs.calls j mem inner calls
        exact ih ((resolves.body found' occurs made).rename var) s
      · rintro m _ rfl
        exact .of_pure rfl

theorem answer_eq_of_extends (assembled : ∀ f ∈ ev.functions.items, f.Assembled)
    (grown : ev.functions.Extends larger) (room : Nat) (resolves : c.Resolves ev.functions)
    (s : Store) :
    ({ ev with functions := larger } : Evaluator).answer room c s = ev.answer room c s :=
  (answer_agrees_of_extends assembled grown room resolves s).eq.symm

end Evaluator

namespace Expansion.Ready

variable {functions : Functions} {p : Program} {i : Instruction} {c : Call}

theorem call_resolves (ready : Ready functions p) (mem : i ∈ p.instructions.toList)
    (calls : i.op.call? = some c) : c.Resolves functions :=
  fun name named => ready.resolves name (Program.mem_callees.2 ⟨i, mem, c, calls, named⟩)

theorem step_failsWith {ev : Evaluator} (ready : Ready ev.functions p) (room : Nat)
    (m : Machine) : (m.step (ev.answer room) p).FailsWith RunError.Expected :=
  Machine.step_failsWith ready.lowerable.assembled
    (fun _ mem _ calls s => (ready.call_resolves mem calls).failsWith ready.assembled room s) m

/-- A program that is ready goes on alike where more functions are known. -/
theorem step_eq_of_extends {ev : Evaluator} (ready : Ready ev.functions p) {larger : Functions}
    (grown : ev.functions.Extends larger) (room : Nat) (m : Machine) :
    m.step (({ ev with functions := larger } : Evaluator).answer room) p =
      m.step (ev.answer room) p := by
  refine Machine.step_congr fun k i c _ at_k calls => ?_
  have mem := List.mem_of_getElem? (Array.getElem?_toList.trans at_k)
  exact Evaluator.answer_eq_of_extends ready.assembled grown room (ready.call_resolves mem calls)
    m.store

end Expansion.Ready

namespace Metered

/-- Paid work fails, if it does, for one of these reasons, whatever the ledger is. -/
def FailsWith {ε α : Type} (P : ε → Prop) (x : Metered ε α) : Prop :=
  ∀ ledger, Keeping.Ensures x ledger (fun _ _ => True) fun e _ => P e

namespace FailsWith

variable {ε α β : Type} {P : ε → Prop}

theorem of_pure (a : α) : FailsWith P (pure a : Metered ε α) :=
  fun _ => .of_pure trivial

theorem of_throw {e : ε} (holds : P e) : FailsWith P (throw e : Metered ε α) :=
  fun _ => .of_throw holds

theorem bind {x : Metered ε α} {f : α → Metered ε β} (first : x.FailsWith P)
    (next : ∀ a, (f a).FailsWith P) : (x >>= f).FailsWith P :=
  fun ledger => (first ledger).bind fun a ledger _ => next a ledger

theorem ofAttempt {x : Attempt ε α} (fails : x.FailsWith P) :
    (Metered.ofAttempt x).FailsWith P := by
  refine fun ledger => ⟨fun _ _ _ => trivial, fun e after ran => ?_⟩
  obtain ⟨outcome, ended, same⟩ := Option.map_eq_some_iff.1 ran
  cases same
  exact fails e ended

theorem unfinished : (Metered.unfinished : Metered ε α).FailsWith P :=
  fun _ => ⟨fun _ _ _ => trivial, fun _ _ ran => nomatch ran⟩

theorem charges : (Metered.charges : Metered ε Nat).FailsWith P :=
  fun _ => .of_run rfl (fun _ _ => trivial) fun _ same => nomatch same

theorem pay {P : RunError → Prop} (short : ∀ cause, P (.credits cause)) (payer? : Option String)
    (amount : Nat) : FailsWith P ((Metered.pay payer? amount).adapt RunError.credits) := by
  intro ledger
  refine .of_run (r := (Metered.bill payer? amount ledger).1.mapError .credits)
    (by rw [run_adapt, run_pay]; rfl) (fun _ _ => trivial) fun e failed => ?_
  cases paid : (Metered.bill payer? amount ledger).1 with
  | ok a =>
    rw [paid] at failed
    cases failed
  | error cause =>
    rw [paid] at failed
    cases failed
    exact short cause

end FailsWith

end Metered

open Expansion (Ready)

theorem Run.toEnd_failsWith {r : Run} {p : Program} (ready : Ready r.evaluator.functions p)
    (limit : Nat) (m : Machine) : (r.toEnd p limit m).FailsWith RunError.Expected := by
  induction limit generalizing m with
  | zero => exact .unfinished
  | succ limit ih =>
    rw [toEnd]
    split
    · exact .of_pure m
    · refine .bind .charges fun charges => ?_
      split
      · rw [Keeping.throw_bind]
        exact .of_throw .cancelled
      · refine .bind (.ofAttempt (ready.step_failsWith _ m)) fun v? => ?_
        cases v? with
        | none => exact .of_pure m
        | some v => exact .bind (.pay .credits _ _) fun _ => ih v.after

theorem Run.perform_failsWith {r : Run} {p : Program} (ready : Ready r.evaluator.functions p)
    (inputs : List Int64) : (r.perform p inputs).FailsWith RunError.Expected :=
  .bind (toEnd_failsWith ready _ _) fun _ => .of_pure _

namespace Session

variable {s t : Session} {failure? : Option RunError} {before after : Ledger}

/-- One program is run, and its calls are answered alike. -/
def SameCode (s t : Session) : Prop :=
  t.evaluator = s.evaluator ∧ t.program = s.program

theorem SameCode.trans {u : Session} (first : s.SameCode t) (second : t.SameCode u) :
    s.SameCode u :=
  ⟨second.1.trans first.1, second.2.trans first.2⟩

theorem SameCode.ready (same : s.SameCode t)
    (ready : Ready s.evaluator.functions s.program) :
    Ready t.evaluator.functions t.program := by
  rwa [same.1, same.2]

theorem sameCode_back (s : Session) (ledger : Ledger) : s.SameCode (s.back ledger).1 := by
  unfold back
  split
  · exact ⟨rfl, rfl⟩
  · exact ⟨rfl, rfl⟩

theorem forward_ensures (ready : Ready s.evaluator.functions s.program) (ledger : Ledger) :
    Keeping.Ensures s.forward ledger (fun t _ => s.SameCode t) fun e _ => e.Expected := by
  have paid (amount : Nat) : Metered.FailsWith RunError.Expected (s.pay amount) :=
    .pay .credits _ _
  unfold forward
  split
  · exact (paid _ ledger).bind fun _ _ _ => .of_pure ⟨rfl, rfl⟩
  · refine (Metered.FailsWith.ofAttempt (ready.step_failsWith _ _) ledger).bind
      fun v? ledger _ => ?_
    cases v? with
    | none => exact .of_pure ⟨rfl, rfl⟩
    | some v => exact (paid _ ledger).bind fun _ _ _ => .of_pure ⟨rfl, rfl⟩

theorem advance_ensures (ready : Ready s.evaluator.functions s.program) {rounds : Nat}
    (ran : advance rounds s before = some ((t, failure?), after)) :
    s.SameCode t ∧ ∀ cause, failure? = some cause → cause.Expected := by
  induction rounds generalizing s before with
  | zero => cases ran
  | succ rounds ih =>
    have forward := forward_ensures ready before
    unfold advance at ran
    split at ran
    · cases ran
      refine ⟨⟨rfl, rfl⟩, fun cause same => ?_⟩
      cases same
      exact .interrupted _
    · split at ran
      · cases ran
      · rename_i failed
        cases ran
        refine ⟨⟨rfl, rfl⟩, fun cause same => ?_⟩
        cases same
        exact forward.error _ _ failed
      · rename_i u ledger moved
        have same : s.SameCode u := forward.ok u ledger moved
        split at ran
        · cases ran
          exact ⟨same, fun _ none => nomatch none⟩
        · split at ran
          · cases ran
            exact ⟨same, fun _ none => nomatch none⟩
          · obtain ⟨rest, fails⟩ := ih (same.ready ready) ran
            exact ⟨same.trans rest, fails⟩

theorem resume_ensures (ready : Ready s.evaluator.functions s.program) (breakpoints : List Nat)
    (ledger : Ledger) :
    Keeping.Ensures (liftM (s.resume breakpoints) : Metered RunError _) ledger
      (fun answer _ => s.SameCode answer.1 ∧ ∀ cause, answer.2 = some cause → cause.Expected)
      fun e _ => e.Expected := by
  refine .lift fun answer after ran => ?_
  obtain ⟨u, advanced, same⟩ := resume_eq_some ran
  rw [same]
  have marked := advance_ensures (s := { s with breakpoints := .ofList breakpoints }) ready advanced
  exact ⟨⟨marked.1.1, marked.1.2⟩, marked.2⟩

end Session

end SLanguage
