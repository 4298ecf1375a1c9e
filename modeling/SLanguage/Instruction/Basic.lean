import SLanguage.Call.Basic
import SLanguage.Kind
import SLanguage.Label

/-!
Instructions. An operation is written about one variable, its subject, and may name
another variable, a constant, a call and a label to jump to. An instruction adds to
it a label of its own and its place: the number in its program, the id that it keeps
from degree to degree, and the id of the instruction that it was lowered from.
-/

namespace SLanguage

inductive Operation where
  | increase
  | decrease
  | jumpNotZero (target : Label)
  | neutral
  | zeroVariable
  | gotoLabel (target : Label)
  | assignment (source : Variable)
  | constantAssignment (value : UInt64)
  | jumpZero (target : Label)
  | jumpEqualConstant (value : UInt64) (target : Label)
  | jumpEqualVariable (other : Variable) (target : Label)
  | quote (call : Call)
  | jumpEqualFunction (call : Call) (target : Label)
deriving DecidableEq, Repr

namespace Operation

def kind : Operation → Kind
  | increase => .increase
  | decrease => .decrease
  | jumpNotZero _ => .jumpNotZero
  | neutral => .neutral
  | zeroVariable => .zeroVariable
  | gotoLabel _ => .gotoLabel
  | assignment _ => .assignment
  | constantAssignment _ => .constantAssignment
  | jumpZero _ => .jumpZero
  | jumpEqualConstant _ _ => .jumpEqualConstant
  | jumpEqualVariable _ _ => .jumpEqualVariable
  | quote _ => .quote
  | jumpEqualFunction _ _ => .jumpEqualFunction

def target? : Operation → Option Label
  | jumpNotZero l | gotoLabel l | jumpZero l | jumpEqualConstant _ l
  | jumpEqualVariable _ l | jumpEqualFunction _ l => some l
  | increase | decrease | neutral | zeroVariable | assignment _ | constantAssignment _
  | quote _ => none

def call? : Operation → Option Call
  | quote c | jumpEqualFunction c _ => some c
  | _ => none

/-- The variables named beside the subject. -/
def operands : Operation → List Variable
  | assignment v | jumpEqualVariable v _ => [v]
  | quote c | jumpEqualFunction c _ => c.vars
  | _ => []

def rename (var : Variable → Variable) (label : Label → Label) : Operation → Operation
  | increase => increase
  | decrease => decrease
  | jumpNotZero l => jumpNotZero (label l)
  | neutral => neutral
  | zeroVariable => zeroVariable
  | gotoLabel l => gotoLabel (label l)
  | assignment v => assignment (var v)
  | constantAssignment k => constantAssignment k
  | jumpZero l => jumpZero (label l)
  | jumpEqualConstant k l => jumpEqualConstant k (label l)
  | jumpEqualVariable v l => jumpEqualVariable (var v) (label l)
  | quote c => quote (c.rename var)
  | jumpEqualFunction c l => jumpEqualFunction (c.rename var) (label l)

@[simp] theorem kind_rename (var : Variable → Variable) (label : Label → Label)
    (op : Operation) : (op.rename var label).kind = op.kind := by
  cases op <;> rfl

@[simp] theorem target?_rename (var : Variable → Variable) (label : Label → Label)
    (op : Operation) : (op.rename var label).target? = op.target?.map label := by
  cases op <;> rfl

end Operation

structure Instruction where
  subject : Variable
  op : Operation
  label : Label := .empty
  id : Nat := 0
  origin? : Option Nat := none
  number : Nat := 0
deriving DecidableEq, Repr

namespace Instruction

/-- Ids have 32 bits. -/
def lastId : Nat :=
  4294967295

/-- The id for a place in a count from 0. Places beyond the last id share it. -/
def idAt (place : Nat) : Nat :=
  min place lastId

theorem idAt_eq {place : Nat} (h : place ≤ lastId) : idAt place = place :=
  Nat.min_eq_left h

def kind (i : Instruction) : Kind :=
  i.op.kind

def isBasic (i : Instruction) : Bool :=
  i.kind.isBasic

def baseCycles (i : Instruction) : Nat :=
  i.kind.baseCycles

def target? (i : Instruction) : Option Label :=
  i.op.target?

/-- Every variable that is read or written, the subject first. -/
def vars (i : Instruction) : List Variable :=
  i.subject :: i.op.operands

def mentions (i : Instruction) (v : Variable) : Bool :=
  i.vars.contains v

/-- Whether a label is carried or jumped to. No instruction uses the empty label. -/
def touches (i : Instruction) (l : Label) : Bool :=
  !l.isEmpty && (i.label == l || i.target? == some l)

/-- The same instruction under other names. An instruction without a label keeps
none, and its place does not change. -/
def rename (var : Variable → Variable) (label : Label → Label) (i : Instruction) :
    Instruction :=
  { i with
    subject := var i.subject
    op := i.op.rename var label
    label := if i.label.isEmpty then .empty else label i.label }

end Instruction

end SLanguage
