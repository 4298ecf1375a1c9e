import SLanguage.Proofs.Engine.Commands
import SLanguage.Proofs.Engine.Soundness

/-! What the users of one engine see of it. They share its programs, and each of them has
sessions, credits and past runs besides. What is done for a user leaves the view of every other
user as it was. -/

namespace SLanguage

namespace Ledger

theorem balance?_charge_of_ne (l : Ledger) {user other : String} (amount : Nat)
    (ne : user ≠ other) : (l.charge user amount).2.balance? other = l.balance? other := by
  have same : ({ l with charges := l.charges + 1 } : Ledger).balance? other =
    l.balance? other := rfl
  unfold charge
  simp only
  split
  · exact same
  · split
    · exact same
    · split
      · exact same
      · rw [balance?_setBalance, if_neg ne, same]

theorem balance?_setBalance_self (l : Ledger) (user : String) (amount : Nat) :
    (l.setBalance user amount).balance? user = (l.balance? user).map fun _ => amount := by
  rw [balance?_setBalance, if_pos rfl, balance?, Option.map_map]
  rfl

/-- Whether a user can pay depends on the user's own credits. -/
theorem charge_congr {l l' : Ledger} {user : String} (amount : Nat)
    (same : l.balance? user = l'.balance? user) :
    (l.charge user amount).1 = (l'.charge user amount).1 ∧
      (l.charge user amount).2.balance? user = (l'.charge user amount).2.balance? user := by
  have counted : ({ l with charges := l.charges + 1 } : Ledger).balance? user =
    ({ l' with charges := l'.charges + 1 } : Ledger).balance? user := same
  unfold charge
  simp only [counted]
  split
  · exact ⟨rfl, counted⟩
  · split
    · exact ⟨rfl, counted⟩
    · split
      · exact ⟨rfl, counted⟩
      · exact ⟨rfl, by rw [balance?_setBalance_self, balance?_setBalance_self, counted]⟩

theorem deposit_congr {l l' : Ledger} {user : String} (amount : Nat)
    (same : l.balance? user = l'.balance? user) :
    (l.deposit user amount).balance? user = (l'.deposit user amount).balance? user := by
  rw [balance?_deposit_self, balance?_deposit_self, same]

theorem balance?_refund_of_ne (l : Ledger) {user other : String} (amount : Nat)
    (ne : user ≠ other) : (l.refund user amount).balance? other = l.balance? other := by
  unfold refund
  split
  · rfl
  · exact balance?_deposit_of_ne l amount ne

end Ledger

/-- What holds of a ledger still holds after charges and refunds of the payer. -/
structure Metered.Closed (payer? : Option String) (P : Ledger → Prop) : Prop where
  bill : ∀ l amount, P l → P (bill payer? amount l).2
  refund : ∀ l amount, P l → P (refund payer? amount l)

/-- Nobody else's credits change. -/
theorem Metered.closed_of_ne {user other : String} (ne : user ≠ other) (credits? : Option Nat) :
    Closed (some user) fun l => l.balance? other = credits? where
  bill l amount holds := (l.balance?_charge_of_ne amount ne).trans holds
  refund l amount holds := (l.balance?_refund_of_ne amount ne).trans holds

/-- Ledgers on which the payer has the same credits answer the payer's charges alike. -/
theorem Metered.congruent_of_balance (user : String) :
    Congruent (some user) fun l l' => l.balance? user = l'.balance? user where
  bill amount same := Ledger.charge_congr amount same
  refund amount same := by
    simp only [refund, Ledger.refund]
    split
    · exact same
    · exact Ledger.deposit_congr amount same

section Closed

variable {payer? : Option String} {P : Ledger → Prop} (closed : Metered.Closed payer? P)
  {before after : Ledger}

include closed

theorem Run.toEnd_closed {r : Run} (signal : r.signal = {}) (payer : r.payer? = payer?)
    {p : Program} {n : Nat} {m : Machine} {outcome : Except RunError Machine} (holds : P before)
    (ran : (r.toEnd p n m).run before = some (outcome, after)) : P after := by
  induction n generalizing m before with
  | zero => cases ran
  | succ n ih =>
    rw [run_toEnd_succ signal, payer] at ran
    split at ran
    · cases ran
    · cases ran
      exact holds
    · cases ran
      exact holds
    · rename_i v _
      have billed := closed.bill before v.cost holds
      split at ran
      · rename_i bill
        rw [bill] at billed
        cases ran
        exact billed
      · rename_i bill
        rw [bill] at billed
        exact ih billed ran

theorem Run.perform_closed {r : Run} (signal : r.signal = {}) (payer : r.payer? = payer?)
    {p : Program} {inputs : List Int64} {outcome : Except RunError Outcome} (holds : P before)
    (ran : (r.perform p inputs).run before = some (outcome, after)) : P after := by
  rw [run_perform] at ran
  obtain ⟨⟨ended, left⟩, ran, same⟩ := Option.map_eq_some_iff.1 ran
  cases same
  exact toEnd_closed closed signal payer holds ran

theorem Session.kept_of_closed : Session.Kept fun s ledger => s.payer? = payer? ∧ P ledger where
  marks _ _ holds := holds
  rest _ _ holds := holds
  forward {s t before after} holds moved := by
    obtain ⟨payer, holds⟩ := holds
    have billed (v : Visit) (paid : Metered.bill s.payer? v.cost before = (.ok (), after)) :
        P after := by
      have := closed.bill before v.cost holds
      rwa [← payer, paid] at this
    cases moved with
    | replayed _ paid => exact ⟨payer, billed _ paid⟩
    | halted => exact ⟨payer, holds⟩
    | executed _ _ paid => exact ⟨payer, billed _ paid⟩
  failed {s before after e} holds failed := by
    obtain ⟨payer, holds⟩ := holds
    obtain rfl | ⟨amount, c, billed⟩ := Session.bill_of_forward_error failed
    · exact ⟨payer, holds⟩
    · have := closed.bill before amount holds
      rw [← payer, billed] at this
      exact ⟨payer, this⟩

theorem Session.back_closed {s : Session} (payer : s.payer? = payer?) (holds : P before) :
    P (s.back before).2 := by
  unfold Session.back
  split
  · exact holds
  · rw [payer]
    exact closed.refund _ _ holds

end Closed

/-- A key of a user leads nowhere but to an entry of the user. -/
theorem lookup_filter_user {α : Type} (entries : List (SessionId × α)) (user program : String) :
    (entries.filter (·.1.user == user)).lookup ⟨user, program⟩ =
      entries.lookup ⟨user, program⟩ := by
  induction entries with
  | nil => rfl
  | cons entry rest ih =>
    obtain ⟨key, a⟩ := entry
    by_cases own : key.user = user
    · rw [List.filter_cons_of_pos (by simpa using own), List.lookup_cons, List.lookup_cons, ih]
    · have ne : (⟨user, program⟩ : SessionId) ≠ key := by
        rintro rfl
        exact own rfl
      rw [List.filter_cons_of_neg (by simpa using own), ih, List.lookup_cons, beq_false_of_ne ne]

theorem mem_of_lookup {κ α : Type} [BEq κ] [LawfulBEq κ] {entries : List (κ × α)} {key : κ} {a : α}
    (found : entries.lookup key = some a) : (key, a) ∈ entries := by
  obtain ⟨before, after, rfl, -⟩ := List.lookup_eq_some_iff.1 found
  exact List.mem_append_right _ (List.mem_cons_self ..)

namespace Engine

/-- What a user sees of an engine. -/
structure View where
  config : Config
  stepLimit : Nat
  functions : Functions
  program? : String → Option Program
  sessions : List (SessionId × OpenSession)
  credits? : Option Nat
  runs : List PastRun

def view (engine : Engine) (user : String) : View where
  config := engine.config
  stepLimit := engine.stepLimit
  functions := engine.registry.functions
  program? name := (engine.registry.find? name).map Cached.program
  sessions := engine.sessions.filter (·.1.user == user)
  credits? := engine.ledger.balance? user
  runs := engine.history.runs user

/-- The programs are in order, and every session is paid for by the user whose it is. -/
structure Proper (engine : Engine) : Prop where
  registry : engine.registry.Sound
  payer : ∀ entry ∈ engine.sessions, entry.2.session.payer? = some entry.1.user

/-- What is done for a user leaves such an engine. -/
structure Beside (user : String) (engine left : Engine) : Prop where
  proper : left.Proper
  alarm : left.alarm? = engine.alarm?
  others : ∀ other, user ≠ other → left.view other = engine.view other

variable {engine left : Engine} {user : String} {α : Type}

theorem Beside.refl (proper : engine.Proper) : Beside user engine engine :=
  ⟨proper, rfl, fun _ _ => rfl⟩

theorem Beside.trans {last : Engine} (first : Beside user engine left)
    (second : Beside user left last) : Beside user engine last :=
  ⟨second.proper, second.alarm.trans first.alarm,
    fun other ne => (second.others other ne).trans (first.others other ne)⟩

/-! The parts of an engine, as they are seen. -/

theorem view_withLedger (engine : Engine) (user : String) (ledger : Ledger) :
    ({ engine with ledger } : Engine).view user =
      { engine.view user with credits? := ledger.balance? user } := rfl

theorem view_withHistory (engine : Engine) (user : String) (history : History) :
    ({ engine with history } : Engine).view user =
      { engine.view user with runs := history.runs user } := rfl

theorem view_withoutSession (engine : Engine) (user : String) (key : SessionId) :
    (engine.withoutSession key).view user = { engine.view user with
      sessions := (engine.view user).sessions.filter (·.1 != key) } := by
  have sessions : ((engine.withoutSession key).view user).sessions =
      (engine.view user).sessions.filter (·.1 != key) := List.filter_comm ..
  rw [← sessions]
  rfl

theorem view_withSession (engine : Engine) (user : String) (key : SessionId) (s : OpenSession) :
    (engine.withSession key s).view user = { engine.view user with
      sessions := [(key, s)].filter (·.1.user == user) ++
        (engine.view user).sessions.filter (·.1 != key) } := by
  have sessions : ((engine.withSession key s).view user).sessions =
      [(key, s)].filter (·.1.user == user) ++ (engine.view user).sessions.filter (·.1 != key) := by
    simp only [view, withSession]
    rw [← List.singleton_append, List.filter_append, List.filter_comm]
  rw [← sessions]
  rfl

theorem sessions_filter_of_ne (engine : Engine) {user : String} {key : SessionId}
    (ne : key.user ≠ user) :
    (engine.view user).sessions.filter (·.1 != key) = (engine.view user).sessions := by
  refine List.filter_eq_self.2 fun entry mem => ?_
  have own := (List.mem_filter.1 mem).2
  simp only [bne_iff_ne, ne_eq]
  rintro rfl
  exact ne (by simpa using own)

section Congr

variable {engine' : Engine}

theorem view_withLedger_congr {ledger ledger' : Ledger}
    (same : engine.view user = engine'.view user)
    (credits : ledger.balance? user = ledger'.balance? user) :
    ({ engine with ledger } : Engine).view user =
      ({ engine' with ledger := ledger' } : Engine).view user := by
  rw [view_withLedger engine, view_withLedger engine', same, credits]

theorem view_recorded_congr (same : engine.view user = engine'.view user) (r : PastRun) :
    (engine.history.record user r).1 = (engine'.history.record user r).1 ∧
      ({ engine with history := (engine.history.record user r).2 } : Engine).view user =
        ({ engine' with history := (engine'.history.record user r).2 } : Engine).view user := by
  have runs : engine.history.runs user = engine'.history.runs user := congrArg View.runs same
  have number : (engine.history.record user r).1 = (engine'.history.record user r).1 := by
    rw [History.record, History.record, runs]
  have recorded : (engine.history.record user r).2.runs user =
      (engine'.history.record user r).2.runs user := by
    rw [History.runs_record, History.runs_record, if_pos rfl, if_pos rfl, runs, number]
  refine ⟨number, ?_⟩
  rw [view_withHistory engine, view_withHistory engine', same, recorded]

theorem view_withSession_congr (same : engine.view user = engine'.view user) (key : SessionId)
    (s : OpenSession) :
    (engine.withSession key s).view user = (engine'.withSession key s).view user := by
  rw [view_withSession, view_withSession, same]

theorem view_withoutSession_congr (same : engine.view user = engine'.view user)
    (key : SessionId) :
    (engine.withoutSession key).view user = (engine'.withoutSession key).view user := by
  rw [view_withoutSession, view_withoutSession, same]

end Congr

/-- Nobody sees whether the degrees of a program have been worked out. -/
theorem view_after_degrees (engine : Engine) (sound : engine.registry.Sound) (user asked : String) :
    ({ engine with registry := engine.registry.after (.degrees asked) } : Engine).view user =
      engine.view user := by
  have functions := Registry.functions_after_degrees engine.registry asked
  have programs : (fun name => ((engine.registry.after (.degrees asked)).find? name).map
      Cached.program) = fun name => (engine.registry.find? name).map Cached.program :=
    funext fun name => sound.programs_after_degrees asked name
  simp only [view, functions, programs]

theorem credits_congr {engine' : Engine} (same : engine.view user = engine'.view user) :
    engine.ledger.balance? user = engine'.ledger.balance? user :=
  congrArg View.credits? same

theorem keyFor_congr {engine' : Engine} (same : engine.view user = engine'.view user)
    (program : String) : engine.keyFor user program = engine'.keyFor user program := by
  have leads : ((engine.registry.find? program).map Cached.program).map
      (fun p => Text.fold p.name) =
        ((engine'.registry.find? program).map Cached.program).map fun p => Text.fold p.name :=
    congrArg (Option.map _) (congrFun (congrArg View.program? same) program)
  rw [Option.map_map, Option.map_map] at leads
  have keys := congrArg (Option.map fun folded => (⟨user, folded⟩ : SessionId)) leads
  rwa [Option.map_map, Option.map_map] at keys

/-- A user's sessions are found in what the user sees. -/
theorem opened_congr {engine' : Engine} (same : engine.view user = engine'.view user)
    (program : String) : engine.opened user program = engine'.opened user program := by
  unfold opened
  rw [← keyFor_congr same]
  cases leads : engine.keyFor user program with
  | none => rfl
  | some key =>
    obtain ⟨c, -, rfl⟩ := Option.map_eq_some_iff.1 leads
    have lookup := congrArg (List.lookup ⟨user, Text.fold c.program.name⟩)
      (congrArg View.sessions same)
    simp only [view, lookup_filter_user] at lookup
    simp only [lookup]

theorem runFor_congr {engine' : Engine} (same : engine.view user = engine'.view user)
    (strategy : Strategy) : engine.runFor user strategy = engine'.runFor user strategy := by
  have config : engine.config = engine'.config := congrArg View.config same
  have functions : engine.registry.functions = engine'.registry.functions :=
    congrArg View.functions same
  have stepLimit : engine.stepLimit = engine'.stepLimit := congrArg View.stepLimit same
  rw [runFor, runFor, config, functions, stepLimit]

namespace Proper

variable (proper : engine.Proper)

include proper

theorem degrees (asked : String) :
    Beside user engine { engine with registry := engine.registry.after (.degrees asked) } :=
  ⟨⟨(proper.registry.after (.degrees asked)).1, proper.payer⟩, rfl,
    fun other _ => view_after_degrees engine proper.registry other asked⟩

theorem ledger {ledger : Ledger}
    (others : ∀ other, user ≠ other → ledger.balance? other = engine.ledger.balance? other) :
    Beside user engine { engine with ledger } := by
  refine ⟨⟨proper.registry, proper.payer⟩, rfl, fun other ne => ?_⟩
  rw [view_withLedger, others other ne]
  rfl

theorem recorded (r : PastRun) :
    Beside user engine { engine with history := (engine.history.record user r).2 } := by
  refine ⟨⟨proper.registry, proper.payer⟩, rfl, fun other ne => ?_⟩
  rw [view_withHistory, History.runs_record, if_neg ne]
  rfl

theorem withoutSession {key : SessionId} (own : key.user = user) :
    Beside user engine (engine.withoutSession key) := by
  refine ⟨⟨proper.registry, fun entry mem => ?_⟩, rfl, fun other ne => ?_⟩
  · exact proper.payer entry (List.mem_of_mem_filter mem)
  · rw [view_withoutSession, sessions_filter_of_ne engine (by rwa [own])]

theorem withSession {key : SessionId} {s : OpenSession} (own : key.user = user)
    (payer : s.session.payer? = some user) : Beside user engine (engine.withSession key s) := by
  refine ⟨⟨proper.registry, List.forall_mem_cons.2 ⟨by rwa [own], fun entry mem => ?_⟩⟩, rfl,
    fun other ne => ?_⟩
  · exact proper.payer entry (List.mem_of_mem_filter mem)
  · rw [view_withSession, sessions_filter_of_ne engine (by rwa [own]),
      List.filter_cons_of_neg (by simpa [own] using ne)]
    rfl

end Proper

end Engine

end SLanguage
