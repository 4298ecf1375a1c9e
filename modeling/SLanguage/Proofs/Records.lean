import SLanguage.Proofs.Expansion.Layout
import SLanguage.Proofs.Text.Arguments

/-! Records as text. An instruction that a record can say is read from its own record as it
is, apart from its place. Every instruction that comes from a record is one of these. -/

namespace SLanguage

/-- Records say no jump to the empty label, and only calls that can be read. -/
def Operation.Writable (op : Operation) : Prop :=
  op.target? ≠ some .empty ∧ ∀ c, op.call? = some c → c.Readable

/-- Records give no instruction the label `EXIT`. -/
structure Instruction.Writable (i : Instruction) : Prop where
  inside : i.label ≠ .exit
  op : i.op.Writable

theorem Instruction.writable_congr {i j : Instruction}
    (same : Frame.detached i = Frame.detached j) (writable : i.Writable) : j.Writable := by
  obtain ⟨-, op, label⟩ := Frame.detached_eq same
  exact ⟨label ▸ writable.inside, op ▸ writable.op⟩

namespace Record

variable {r : Record} {key : String}

theorem ne_empty_of_jumpTarget {l : Label} (h : r.jumpTarget key = .ok l) : l ≠ .empty := by
  obtain ⟨text, -, h⟩ := bind_eq_ok.1 h
  obtain ⟨label, -, h⟩ := bind_eq_ok.1 h
  split at h
  · cases h
  · rename_i labelled
    cases h
    rintro rfl
    exact labelled rfl

theorem readable_of_call {c : Call} (h : r.call = .ok c) : c.Readable := by
  obtain ⟨function, -, h⟩ := bind_eq_ok.1 h
  exact Call.readable_of_parse h

end Record

namespace Instruction

variable {i : Instruction}

end Instruction

namespace Record

variable {r : Record} {i : Instruction}

theorem writable_of_operation {kind : Kind} {op : Operation} (h : r.operation kind = .ok op) :
    op.Writable := by
  have labelled {l : Label} {key : String} (h : r.jumpTarget key = .ok l) :
      some l ≠ some .empty := fun eq => ne_empty_of_jumpTarget h (Option.some.inj eq)
  cases kind with
  | increase | decrease | neutral | zeroVariable =>
    cases h
    exact ⟨(fun none => nomatch none), fun _ none => nomatch none⟩
  | jumpNotZero | gotoLabel | jumpZero =>
    obtain ⟨l, target, h⟩ := bind_eq_ok.1 h
    cases h
    exact ⟨labelled target, fun _ none => nomatch none⟩
  | assignment | constantAssignment =>
    obtain ⟨_, _, h⟩ := bind_eq_ok.1 h
    cases h
    exact ⟨(fun none => nomatch none), fun _ none => nomatch none⟩
  | jumpEqualConstant | jumpEqualVariable =>
    obtain ⟨_, _, h⟩ := bind_eq_ok.1 h
    obtain ⟨l, target, h⟩ := bind_eq_ok.1 h
    cases h
    exact ⟨labelled target, fun _ none => nomatch none⟩
  | quote =>
    obtain ⟨c, called, h⟩ := bind_eq_ok.1 h
    cases h
    refine ⟨(fun none => nomatch none), ?_⟩
    rintro _ ⟨rfl⟩
    exact readable_of_call called
  | jumpEqualFunction =>
    obtain ⟨c, called, h⟩ := bind_eq_ok.1 h
    obtain ⟨l, target, h⟩ := bind_eq_ok.1 h
    cases h
    refine ⟨labelled target, ?_⟩
    rintro _ ⟨rfl⟩
    exact readable_of_call called

theorem writable_of_instruction (h : r.instruction = .ok i) : i.Writable := by
  have inside := Program.label_ne_exit_of_record h
  obtain ⟨kind, label, subject, op, -, -, -, read, rfl⟩ := Program.instruction_eq_ok_iff.1 h
  exact ⟨inside, writable_of_operation read⟩

end Record

/-- The names that a definition can give. -/
structure Header.Writable (h : Header) : Prop where
  named : h.name ≠ ""
  name_trimmed : Text.trim h.name = h.name
  displayName_trimmed : Text.trim h.displayName = h.displayName

namespace Program

/-- A program that a definition can say. -/
structure Writable (p : Program) : Prop where
  assembled : p.Assembled
  instructions : ∀ i ∈ p.instructions.toList, i.Writable

/-- The instructions of a program in places as a loaded program has them. -/
def placed (is : List Instruction) : List Instruction :=
  is.mapIdx fun n i => { Frame.detached i with id := Instruction.idAt n }

theorem writable_of_load {header : Header} {records : List Record} {p : Program}
    (h : load header records = .ok p) : p.Writable := by
  refine ⟨assembled_of_load h, fun i mem => ?_⟩
  obtain ⟨k, at_k⟩ := List.mem_iff_getElem?.1 mem
  obtain ⟨r, read, -, read_r, rfl⟩ := getElem?_of_load h (Array.getElem?_toList ▸ at_k)
  have writable : read.Writable := Record.writable_of_instruction read_r
  exact ⟨writable.inside, writable.op⟩

theorem header_of_ofDefinition {d : Definition} {role : Role} {p : Program}
    (h : ofDefinition d role = .ok p) : p.header.Writable := by
  unfold ofDefinition load at h
  split at h
  · cases h
  · rename_i named
    obtain ⟨is, -, built⟩ := bind_eq_ok.1 h
    obtain ⟨positions, -, -, rfl⟩ := assemble_eq_ok built
    dsimp only at named
    rw [Text.trim_trim] at named
    exact ⟨named, Text.trim_trim _, Text.trim_trim _⟩

end Program

end SLanguage
