import SLanguage.Expansion.Basic
import SLanguage.Proofs.Lowering.Drawing

/-! How drafting is put together. Every rule draws single names, one after another, and does
nothing else to the supply. So what holds of drawing one name, and is kept when one piece of work
follows another, holds of every rule, of every splice and of a whole round. -/

namespace SLanguage

namespace Drafting

/-- What is kept when drafting is put together from drawing single names. -/
structure Composes (P : {α : Type} → Drafting α → Prop) : Prop where
  pure {α : Type} (a : α) : P (pure a : Drafting α)
  bind {α β : Type} {x : Drafting α} {f : α → Drafting β} : P x → (∀ a, P (f a)) → P (x >>= f)
  label : P Drafting.label
  work : P Drafting.work

end Drafting

namespace Drafting.Composes

variable {P : {α : Type} → Drafting α → Prop} (composes : Composes P)

include composes

theorem works (n : Nat) : P (Drafting.works n) := by
  induction n with
  | zero => exact composes.pure []
  | succ n ih =>
    exact composes.bind composes.work fun _ => composes.bind ih fun _ => composes.pure _

theorem freshLabels (labels : List Label) (rule : ExitRule) :
    P (Frame.freshLabels labels rule) := by
  induction labels with
  | nil => exact composes.pure []
  | cons l rest ih =>
    have moving : P (do
        let fresh ← Drafting.label
        return (l, fresh) :: (← Frame.freshLabels rest rule)) :=
      composes.bind composes.label fun _ => composes.bind ih fun _ => composes.pure _
    cases l with
    | empty => exact ih
    | numbered n => exact moving
    | exit =>
      cases rule with
      | redirect => exact moving
      | keep => exact ih

/-- A splice composes, up to the failure for a callee that is not found. -/
theorem splice {functions : Functions} {c : Call} (rule : ExitRule)
    (unknown : functions.find? c.function = none →
      P (throw (.unknownFunction c.function) : Drafting Frame)) :
    P (Frame.splice functions c rule) := by
  unfold Frame.splice
  cases found : functions.find? c.function with
  | none => exact unknown found
  | some callee =>
    exact composes.bind composes.work fun _ => composes.bind (composes.works _) fun _ =>
      composes.bind (composes.works _) fun _ =>
        composes.bind (composes.freshLabels _ rule) fun _ => composes.pure _

/-- Only a call that is lowered to a body needs its function. -/
theorem lower {functions : Functions} {i : Instruction}
    (unknown : ∀ c, i.op = .quote c → functions.find? c.function = none →
      P (throw (.unknownFunction c.function) : Drafting Frame)) :
    P (Lowering.lower functions i) := by
  have entered {rule : Drafting (List Instruction)} (holds : P rule) :
      P (do return Lowering.withEntry i.label (← rule)) :=
    composes.bind holds fun _ => composes.pure _
  have label {α : Type} {f : Label → Drafting α} : (∀ l, P (f l)) → P (Drafting.label >>= f) :=
    composes.bind composes.label
  have work {α : Type} {f : Variable → Drafting α} : (∀ v, P (f v)) → P (Drafting.work >>= f) :=
    composes.bind composes.work
  unfold Lowering.lower
  cases op : i.op with
  | zeroVariable =>
    cases i.label with
    | empty => exact label fun _ => composes.pure _
    | _ => exact composes.pure _
  | gotoLabel l => exact entered (work fun _ => composes.pure _)
  | assignment w =>
    refine entered ?_
    unfold Lowering.copying
    split
    · exact composes.pure _
    · exact label fun _ => label fun _ => label fun _ => work fun _ => composes.pure _
  | constantAssignment k => exact composes.pure _
  | jumpZero l => exact entered (label fun _ => composes.pure _)
  | jumpEqualConstant k l => exact entered (label fun _ => work fun _ => composes.pure _)
  | jumpEqualVariable w l =>
    exact entered (label fun _ => label fun _ => label fun _ =>
      work fun _ => work fun _ => composes.pure _)
  | quote c =>
    exact entered (composes.bind (composes.splice .redirect (unknown c op))
      fun _ => composes.pure _)
  | jumpEqualFunction c l => exact entered (work fun _ => composes.pure _)
  | _ => exact composes.pure _

theorem lowerAll {functions : Functions} {is : List Instruction} {nextId : Nat}
    (unknown : ∀ i ∈ is, ∀ c, i.op = .quote c → functions.find? c.function = none →
      P (throw (.unknownFunction c.function) : Drafting Frame)) :
    P (Expansion.lowerAll functions is nextId) := by
  induction is generalizing nextId with
  | nil => exact composes.pure []
  | cons i rest ih =>
    obtain ⟨own, others⟩ := List.forall_mem_cons.1 unknown
    rw [Expansion.lowerAll]
    split
    · exact composes.bind (ih others) fun _ => composes.pure _
    · exact composes.bind (composes.lower own) fun _ =>
        composes.bind (ih others) fun _ => composes.pure _

end Drafting.Composes

end SLanguage
