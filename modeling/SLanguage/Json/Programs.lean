import SLanguage.Json.Shape
import SLanguage.Program.Summary

/-!
The JSON shapes of records, definitions, bundles, headers and summaries.
-/

namespace SLanguage

instance : Worded VariableClass where
  members := [.result, .input, .work]
  word
    | .result => "Result"
    | .input => "Input"
    | .work => "Work"

instance : Worded Architecture where
  members := Architecture.all
  word := Architecture.name

instance : Worded Kind where
  members := Kind.all
  word
    | .increase => "Increase"
    | .decrease => "Decrease"
    | .jumpNotZero => "JumpNotZero"
    | .neutral => "Neutral"
    | .zeroVariable => "ZeroVariable"
    | .gotoLabel => "GotoLabel"
    | .assignment => "Assignment"
    | .constantAssignment => "ConstantAssignment"
    | .jumpZero => "JumpZero"
    | .jumpEqualConstant => "JumpEqualConstant"
    | .jumpEqualVariable => "JumpEqualVariable"
    | .quote => "Quote"
    | .jumpEqualFunction => "JumpEqualFunction"

instance : Worded Role where
  members := [.main, .function]
  word
    | .main => "Main"
    | .function => "Function"

/-- Reads the arguments of a record: an object whose fields are texts. -/
def decodeTexts? : List (String × Json) → Option (List (String × String))
  | [] => some []
  | (name, .str text) :: rest => do return (name, text) :: (← decodeTexts? rest)
  | _ => none

structure ArgumentMap where
  entries : List (String × String)

instance : Shape ArgumentMap where
  encode m := .obj (m.entries.map fun entry => (entry.1, .str entry.2))
  decode?
    | .obj fields => (decodeTexts? fields).map ArgumentMap.mk
    | _ => none

instance : Shape Record where
  encode r := .obj [
    ("name", encode r.name), ("label", encode r.label?), ("variable", encode r.subject),
    ("arguments", encode (ArgumentMap.mk r.arguments))]
  decode? j := do
    let fields ← j.fields?
    let arguments : ArgumentMap ← Json.defaulted? fields "arguments" ⟨[]⟩
    return {
      name := ← Json.required? fields "name"
      label? := ← Json.optional? fields "label"
      subject := ← Json.defaulted? fields "variable" ""
      arguments := arguments.entries }

instance : Shape Definition where
  encode d := .obj [
    ("name", encode d.name), ("display_name", encode d.displayName?),
    ("instructions", encode d.records)]
  decode? j := do
    let fields ← j.fields?
    return {
      name := ← Json.required? fields "name"
      displayName? := ← Json.optional? fields "display_name"
      records := ← Json.required? fields "instructions" }

instance : Shape Bundle where
  encode b := .obj [("main", encode b.main), ("functions", encode b.functions)]
  decode? j := do
    let fields ← j.fields?
    return {
      main := ← Json.required? fields "main"
      functions := ← Json.defaulted? fields "functions" [] }

instance : Shape Header where
  encode h := .obj [
    ("name", encode h.name), ("display_name", encode h.displayName), ("kind", encode h.role)]
  decode? j := do
    let fields ← j.fields?
    return {
      name := ← Json.required? fields "name"
      displayName := ← Json.required? fields "display_name"
      role := ← Json.required? fields "kind" }

instance : Shape Summary where
  encode s := .obj [
    ("name", encode s.name), ("display_name", encode s.displayName),
    ("degree", encode s.degree), ("instruction_count", encode s.instructionCount),
    ("basic_count", encode s.basicCount), ("synthetic_count", encode s.syntheticCount),
    ("per_architecture", encode s.perArchitecture),
    ("minimal_architecture", encode s.requiredArchitecture), ("functions", encode s.functions),
    ("labels", encode s.labels), ("variables", encode s.vars)]
  decode? j := do
    let fields ← j.fields?
    return {
      name := ← Json.required? fields "name"
      displayName := ← Json.required? fields "display_name"
      degree := ← Json.required? fields "degree"
      instructionCount := ← Json.required? fields "instruction_count"
      basicCount := ← Json.required? fields "basic_count"
      syntheticCount := ← Json.required? fields "synthetic_count"
      perArchitecture := ← Json.required? fields "per_architecture"
      requiredArchitecture := ← Json.required? fields "minimal_architecture"
      functions := ← Json.required? fields "functions"
      labels := ← Json.required? fields "labels"
      vars := ← Json.required? fields "variables" }

end SLanguage
