import SLanguage.Proofs.Engine.Launches
import SLanguage.Proofs.Expansion.Architectures
import SLanguage.Proofs.Expansion.Declared

/-! Fees of higher degrees. A program that is not refused at a degree for its architecture is not
refused at a higher one, and where the architecture is left open the fee is no higher there. -/

namespace SLanguage

theorem Ledger.requested_of_charge_error {l after : Ledger} {user : String} {amount : Nat}
    {s : Shortfall} (charged : l.charge user amount = (.error s, after)) :
    s.requested = amount := by
  unfold charge at charged
  simp only at charged
  split at charged
  · cases charged
  · split at charged
    · cases charged
    · split at charged
      · cases charged
        rfl
      · cases charged

namespace Engine

open Expansion (Ready)

variable {engine left : Engine} {user name : String} {r : Request} {fee : Nat} {p q : Program}

/-- The request is refused since its architecture does not run the program. -/
def Unsupported (engine : Engine) (user : String) (r : Request) : Prop :=
  ∃ given required left, (launch user r).run engine =
    some (.error (.unsupportedArchitecture given required), left)

/-- The fee that a launch has come to, be it paid or not. -/
inductive Fee : Except ActionError (Program × Architecture) → Nat → Prop where
  | paid (p : Program) (a : Architecture) : Fee (.ok (p, a)) a.runCost
  | short (s : Shortfall) : Fee (.error (.run (.credits s))) s.requested

/-- The launch of the request comes to the fee. -/
def Asks (engine : Engine) (user : String) (r : Request) (fee : Nat) : Prop :=
  ∃ answer left, (launch user r).run engine = some (answer, left) ∧ Fee answer fee

/-- The architecture that a program is run on. -/
def architectureFor (engine : Engine) (r : Request) (p : Program) : Architecture :=
  (r.architecture? <|> engine.config.architecture?).getD p.requiredArchitecture

theorem cause_of_generation {degree : Nat} {cause : ActionError}
    (ran : (generation name degree).run engine = some (.error cause, left)) :
    cause = .programNotFound name ∨ ∃ e, cause = .expand e := by
  rw [run_generation] at ran
  split at ran
  · cases ran
  · rename_i expanded
    cases ran
    rw [run_expansion] at expanded
    split at expanded
    · cases expanded
      exact .inl rfl
    · obtain ⟨e | made, -, same⟩ := Option.map_eq_some_iff.1 expanded
      · cases same
        exact .inr ⟨e, rfl⟩
      · cases same
  · rename_i made _ _
    cases at_d : made.generation degree with
    | error e =>
      rw [at_d] at ran
      cases ran
      exact .inr ⟨e, rfl⟩
    | ok p =>
      rw [at_d] at ran
      cases ran

theorem run_launch_of_generation (user : String)
    (made : (generation r.program r.degree.toNat).run engine = some (.ok p, left)) :
    (launch user r).run engine =
      if p.requiredArchitecture ≤ engine.architectureFor r p then
        let (paid, ledger) := left.ledger.charge user (engine.architectureFor r p).runCost
        some ((paid.mapError fun short => .run (.credits short)).map
          fun _ => (p, engine.architectureFor r p), { left with ledger })
      else some (.error (.unsupportedArchitecture (engine.architectureFor r p)
        p.requiredArchitecture), left) := by
  rw [run_launch, made, architectureFor, ← (settings_of_generation user made).1]

/-- A launch that comes to the architecture or to the fee has found the program. -/
theorem exists_generation_of_launch {answer : Except ActionError (Program × Architecture)}
    {last : Engine} (ran : (launch user r).run engine = some (answer, last))
    (found : answer ≠ .error (.programNotFound r.program))
    (expanded : ∀ e, answer ≠ .error (.expand e)) :
    ∃ p left, (generation r.program r.degree.toNat).run engine = some (.ok p, left) := by
  cases made : (generation r.program r.degree.toNat).run engine with
  | none =>
    rw [run_launch, made] at ran
    cases ran
  | some ended =>
    obtain ⟨cause | p, left⟩ := ended
    · rw [run_launch, made] at ran
      cases ran
      obtain rfl | ⟨e, rfl⟩ := cause_of_generation made
      · exact absurd rfl found
      · exact absurd rfl (expanded e)
    · exact ⟨p, left, rfl⟩

theorem unsupported_iff : Unsupported engine user r ↔
    ∃ p left, (generation r.program r.degree.toNat).run engine = some (.ok p, left) ∧
      ¬p.requiredArchitecture ≤ engine.architectureFor r p := by
  constructor
  · rintro ⟨given, required, last, ran⟩
    obtain ⟨p, left, made⟩ := exists_generation_of_launch ran nofun nofun
    refine ⟨p, left, made, fun enough => ?_⟩
    rw [run_launch_of_generation user made, if_pos enough] at ran
    generalize left.ledger.charge user _ = billed at ran
    obtain ⟨paid | paid, after⟩ := billed <;> cases ran
  · rintro ⟨p, left, made, weak⟩
    exact ⟨_, _, left, (run_launch_of_generation user made).trans (if_neg weak)⟩

theorem asks_iff : Asks engine user r fee ↔
    ∃ p left, (generation r.program r.degree.toNat).run engine = some (.ok p, left) ∧
      p.requiredArchitecture ≤ engine.architectureFor r p ∧
        fee = (engine.architectureFor r p).runCost := by
  constructor
  · rintro ⟨answer, last, ran, asked⟩
    obtain ⟨p, left, made⟩ := exists_generation_of_launch ran (by rintro rfl; cases asked)
      (by rintro e rfl; cases asked)
    refine ⟨p, left, made, ?_⟩
    rw [run_launch_of_generation user made] at ran
    split at ran
    · rename_i enough
      refine ⟨enough, ?_⟩
      generalize charged : left.ledger.charge user _ = billed at ran
      obtain ⟨short | paid, after⟩ := billed
      · cases ran
        cases asked
        exact Ledger.requested_of_charge_error charged
      · cases ran
        cases asked
        rfl
    · cases ran
      cases asked
  · rintro ⟨p, left, made, enough, rfl⟩
    have ran := (run_launch_of_generation user made).trans (if_pos enough)
    generalize charged : left.ledger.charge user _ = billed at ran
    obtain ⟨short | paid, after⟩ := billed
    · refine ⟨_, _, ran, ?_⟩
      rw [← Ledger.requested_of_charge_error charged]
      exact .short short
    · exact ⟨_, _, ran, .paid _ _⟩

/-- A program that has a degree has every lower one. -/
theorem exists_generation_of_le {low high : Nat} (le : low ≤ high)
    (ran : (generation name high).run engine = some (.ok q, left)) :
    ∃ p, (generation name low).run engine = some (.ok p, left) := by
  rw [run_generation] at ran
  rw [run_generation]
  split at ran
  · cases ran
  · cases ran
  · rename_i e _ expanded
    cases at_high : e.generation high with
    | error cause =>
      rw [at_high] at ran
      cases ran
    | ok q' =>
      rw [at_high] at ran
      cases ran
      have top := Expansion.le_topDegree_of_generation? (Expansion.generation_eq_ok_iff.1 at_high)
      obtain ⟨p, at_low⟩ := Expansion.exists_generation? (Nat.le_trans le top)
      rw [Expansion.generation_eq_ok_iff.2 at_low]
      exact ⟨p, rfl⟩

theorem requiredArchitecture_le (sound : engine.registry.Sound) {low high : Nat} (le : low ≤ high)
    {left' : Engine} (ran : (generation name low).run engine = some (.ok p, left))
    (ran' : (generation name high).run engine = some (.ok q, left')) :
    q.requiredArchitecture ≤ p.requiredArchitecture := by
  obtain ⟨c, e, found, expanded, at_low, -⟩ := generation_eq_ok sound ran
  obtain ⟨c', e', found', expanded', at_high, -⟩ := generation_eq_ok sound ran'
  cases found.symm.trans found'
  cases expanded.symm.trans expanded'
  obtain ⟨chained, loaded, -⟩ := Expansion.chained_of_ofProgram expanded
  have ready : Ready engine.registry.functions e.loaded :=
    loaded ▸ sound.ready c (Catalog.mem_items_of_findKey? found)
  exact ready.requiredArchitecture_le chained le at_low at_high

section Falling

variable {degree : UInt64} (falls : q.requiredArchitecture ≤ p.requiredArchitecture)

include falls

theorem architectureFor_le :
    engine.architectureFor { r with degree } q ≤ engine.architectureFor r p := by
  unfold architectureFor
  dsimp only
  cases (r.architecture? <|> engine.config.architecture?) with
  | some given => exact Architecture.le_refl given
  | none => exact falls

/-- An architecture that runs a program runs one that needs no more. -/
theorem le_architectureFor (enough : p.requiredArchitecture ≤ engine.architectureFor r p) :
    q.requiredArchitecture ≤ engine.architectureFor { r with degree } q := by
  unfold architectureFor at enough ⊢
  dsimp only
  cases given : (r.architecture? <|> engine.config.architecture?) with
  | some a =>
    rw [given] at enough
    exact Architecture.le_trans falls enough
  | none => exact Architecture.le_refl _

end Falling

theorem supported_of_le (sound : engine.registry.Sound) {degree : UInt64} (le : r.degree ≤ degree)
    (supported : ¬Unsupported engine user r) : ¬Unsupported engine user { r with degree } := by
  intro unsupported
  obtain ⟨q, left, made, weak⟩ := unsupported_iff.1 unsupported
  obtain ⟨p, made'⟩ := exists_generation_of_le (UInt64.le_iff_toNat_le.1 le) made
  have falls := requiredArchitecture_le sound (UInt64.le_iff_toNat_le.1 le) made' made
  refine supported (unsupported_iff.2 ⟨p, left, made', fun enough => ?_⟩)
  exact weak (le_architectureFor falls enough)

theorem fee_le_of_le (sound : engine.registry.Sound) {degree : UInt64} (le : r.degree ≤ degree)
    {fee' : Nat} (asks : Asks engine user r fee) (asks' : Asks engine user { r with degree } fee') :
    fee' ≤ fee := by
  obtain ⟨p, left, made, -, rfl⟩ := asks_iff.1 asks
  obtain ⟨q, left', made', -, rfl⟩ := asks_iff.1 asks'
  have falls := requiredArchitecture_le sound (UInt64.le_iff_toNat_le.1 le) made made'
  exact Architecture.runCost_mono (architectureFor_le falls)

/-- Where no architecture is asked for, the fee is that of the architecture that is needed. -/
theorem asks_required {degree : UInt64} (request : r.architecture? = none)
    (config : engine.config.architecture? = none)
    (made : (generation r.program degree.toNat).run engine = some (.ok q, left)) :
    Asks engine user { r with degree } q.requiredArchitecture.runCost := by
  have needed : engine.architectureFor { r with degree } q = q.requiredArchitecture := by
    rw [architectureFor, request, config]
    rfl
  refine asks_iff.2 ⟨q, left, made, ?_, ?_⟩
  · rw [needed]
    exact Architecture.le_refl _
  · rw [needed]

/-- Expanding asks for no stronger architecture. A program whose calls have been checked can be
expanded unless names run out; then no generation needs a stronger architecture than an earlier
one, and the last needs the weakest. So on an engine, whatever has happened to it, a request that
is not refused for its architecture is not refused for it at a higher degree either, and the fee
for the start is no higher there, whether an architecture is asked for or not. -/
theorem higher_degrees_need_no_more :
    (∀ (functions : Functions) (programs : List Program) (d : Definition) (role : Role)
      (p : Program), functions = .ofPrograms programs → (∀ f ∈ programs, f.Lowerable) →
      Program.ofDefinition d role = .ok p → CallGraph.check functions [p] = .ok () →
      (∃ cause, (Expansion.ofProgram functions p).run = some (.error (.names cause))) ∨
        ∃ e, (Expansion.ofProgram functions p).run = some (.ok e) ∧
          (∀ low high q q', low ≤ high → e.generation low = .ok q → e.generation high = .ok q' →
            q'.requiredArchitecture ≤ q.requiredArchitecture) ∧
          ∃ last, e.generation e.topDegree = .ok last ∧ last.requiredArchitecture = .i) ∧
    ∀ (config : Config) (stepLimit : Nat) (ledger : Ledger) (events : List Event),
      let engine := events.foldl Engine.after { config, stepLimit, ledger }
      ∀ (user : String) (r : Request) (degree : UInt64), r.degree ≤ degree →
        (¬Unsupported engine user r → ¬Unsupported engine user { r with degree }) ∧
        (∀ fee fee', Asks engine user r fee → Asks engine user { r with degree } fee' →
          fee' ≤ fee) ∧
        (r.architecture? = none → engine.config.architecture? = none → ∀ q left,
          (generation r.program degree.toNat).run engine = some (.ok q, left) →
            Asks engine user { r with degree } q.requiredArchitecture.runCost) := by
  constructor
  · intro functions programs d role p table lowerable loaded checked
    have ready := Expansion.ready_of_check table lowerable loaded checked
    refine ready.expands.imp_right ?_
    rintro ⟨e, expanded, -⟩
    obtain ⟨chained, rfl, basic⟩ := Expansion.chained_of_ofProgram expanded
    refine ⟨e, expanded, fun low high q q' le at_low at_high => ?_, e.latest, ?_, ?_⟩
    · exact ready.requiredArchitecture_le chained le (Expansion.generation_eq_ok_iff.1 at_low)
        (Expansion.generation_eq_ok_iff.1 at_high)
    · exact Expansion.generation_eq_ok_iff.2 e.generation?_topDegree
    · exact Program.requiredArchitecture_eq_i_iff.2 basic
  · intro config stepLimit ledger events engine user r degree le
    have sound := ((sound_start config stepLimit ledger).foldl events).registry
    exact ⟨supported_of_le sound le, fun fee fee' => fee_le_of_le sound le,
      fun request config q left => asks_required request config⟩

/-- A registry with a program that leaves at once. -/
def parked : Registry := ⟨⟨[(["p"], { program := Expansion.jumpingOut })]⟩, ∅⟩

theorem check_jumpingOut : CallGraph.check ∅ [Expansion.jumpingOut] = .ok () := by
  have callees : Expansion.jumpingOut.callees = [] := by decide +kernel
  rw [CallGraph.check, CallGraph.checkFrom, if_neg List.not_mem_nil, callees, CallGraph.walk]
  rfl

theorem enterMain_leaving :
    Registry.enterMain {} Expansion.leaving = .ok (Expansion.jumpingOut, parked) := by
  have checked : Registry.check ∅ [Expansion.jumpingOut] = .ok () :=
    mapError_eq_ok.2 check_jumpingOut
  exact bind_eq_ok.2 ⟨_, rfl, bind_eq_ok.2 ⟨_, rfl, bind_eq_ok.2 ⟨_, checked, rfl⟩⟩⟩

/-- The jump needs the second architecture, and what it is lowered to needs the first. -/
theorem exists_generation_jumpingOut :
    ∃ e q, (Expansion.ofProgram ∅ Expansion.jumpingOut).run = some (.ok e) ∧
      e.generation? 0 = some Expansion.jumpingOut ∧ e.generation? 1 = some q ∧
      q.requiredArchitecture = .i := by
  have required : ((Expansion.ofProgram ∅ Expansion.jumpingOut).run.bind Except.toOption).bind
      (fun e => (e.generation? 1).map Program.requiredArchitecture) = some .i := by
    have rounds : Expansion.roundLimit Expansion.jumpingOut = 4294967297 + 1 := by decide
    have basic : (Expansion.base Expansion.jumpingOut).latest.isBasic = false := by
      decide +kernel
    rw [Expansion.ofProgram, rounds, Expansion.grow, basic]
    decide +kernel
  obtain ⟨e, expanded, required⟩ := Option.bind_eq_some_iff.1 required
  obtain ⟨q, first, required⟩ := Option.map_eq_some_iff.1 required
  have expanded := Expansion.run_eq_of_toOption expanded
  obtain ⟨-, loaded, -⟩ := Expansion.chained_of_ofProgram expanded
  exact ⟨e, q, expanded, congrArg some loaded, first, required⟩

theorem run_generation_parked {e : Expansion} {degree : Nat}
    (expanded : (Expansion.ofProgram ∅ Expansion.jumpingOut).run = some (.ok e))
    (at_degree : e.generation? degree = some p) (registry : engine.registry = parked) :
    ∃ left, (generation "p" degree).run engine = some (.ok p, left) := by
  have sound : engine.registry.Sound := by
    rw [registry]
    exact (Registry.sound_empty.enterMain enterMain_leaving).1
  have found : (parked.find? "p").map Cached.program = some Expansion.jumpingOut := rfl
  have functions : parked.functions = ∅ := rfl
  rw [run_generation, run_expansion_of_sound sound, registry, found, functions]
  simp only [expanded, Option.map_some]
  exact ⟨_, congrArg (fun given => some (given, _)) (congrArg (Except.mapError ActionError.expand)
    (Expansion.generation_eq_ok_iff.2 at_degree))⟩

/-- The fee falls from 100 to 5 in the first degree, and on the second architecture both degrees
can be started, on the first one only the later. -/
theorem higher_degrees_need_no_more_jumpingOut :
    let engine := [Event.main Expansion.leaving].foldl Engine.after
      { stepLimit := 1, ledger := .unlimited }
    let r : Request := { program := "p" }
    let r' : Request := { program := "p", architecture? := some .ii }
    ∃ e q, (Expansion.ofProgram ∅ Expansion.jumpingOut).run = some (.ok e) ∧
      e.generation 1 = .ok q ∧
      q.requiredArchitecture ≤ Expansion.jumpingOut.requiredArchitecture ∧
      Asks engine "u" r 100 ∧ Asks engine "u" { r with degree := 1 } 5 ∧ 5 ≤ 100 ∧
      Unsupported engine "u" { r with architecture? := some .i } ∧
      ¬Unsupported engine "u" r' ∧ ¬Unsupported engine "u" { r' with degree := 1 } := by
  intro engine r r'
  obtain ⟨e, q, expanded, loaded, first, weakest⟩ := exists_generation_jumpingOut
  have registry : engine.registry = parked := by
    simp only [engine, List.foldl_cons, List.foldl_nil, after, left, run_register]
    change Registry.settle {} (Registry.enterMain {} Expansion.leaving) = parked
    rw [enterMain_leaving]
    rfl
  have config : engine.config.architecture? = none := by
    simp only [engine, List.foldl_cons, List.foldl_nil, after, left, run_register]
    rfl
  have second : Expansion.jumpingOut.requiredArchitecture = .ii := by decide +kernel
  obtain ⟨_, made⟩ := run_generation_parked expanded loaded registry
  obtain ⟨_, made'⟩ := run_generation_parked expanded first registry
  obtain ⟨expansions, requests⟩ := higher_degrees_need_no_more
  obtain ⟨cause, failed⟩ | ⟨e', expanded', falls, -⟩ := expansions ∅ [] Expansion.leaving .main
    Expansion.jumpingOut rfl (List.forall_mem_nil _) Expansion.ofDefinition_leaving check_jumpingOut
  · cases expanded.symm.trans failed
  cases expanded.symm.trans expanded'
  have at_zero := Expansion.generation_eq_ok_iff.2 loaded
  have at_one := Expansion.generation_eq_ok_iff.2 first
  have request := requests {} 1 .unlimited [.main Expansion.leaving] "u"
  have asks : Asks engine "u" r 100 := by
    have asks := (request r 0 (UInt64.le_refl 0)).2.2 rfl config _ _ made
    rwa [second] at asks
  have asks' : Asks engine "u" { r with degree := 1 } 5 := by
    have asks := (request r 1 (by decide)).2.2 rfl config _ _ made'
    rwa [weakest] at asks
  have weak : Unsupported engine "u" { r with architecture? := some .i } :=
    unsupported_iff.2 ⟨_, _, made, by rw [second]; decide⟩
  have supported : ¬Unsupported engine "u" r' := by
    rintro unsupported
    obtain ⟨p, _, again, other⟩ := unsupported_iff.1 unsupported
    cases made.symm.trans again
    exact other (by rw [second]; decide)
  exact ⟨e, q, expanded, at_one, falls 0 1 _ q (Nat.zero_le 1) at_zero at_one, asks, asks',
    (request r 1 (by decide)).2.1 _ _ asks asks', weak, supported,
    (request r' 1 (by decide)).1 supported⟩

end Engine

end SLanguage
