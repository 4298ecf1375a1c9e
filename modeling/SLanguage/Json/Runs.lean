import SLanguage.Json.Programs
import SLanguage.Session

/-! The JSON shapes of strategies, session states, snapshots and outcomes. -/

namespace SLanguage

instance : Worded Strategy where
  members := [.interpret, .inline]
  word
    | .interpret => "Interpret"
    | .inline => "Inline"

instance : Worded SessionState where
  members := [.notStarted, .stepping, .atBreakpoint, .finished]
  word
    | .notStarted => "NotStarted"
    | .stepping => "Stepping"
    | .atBreakpoint => "AtBreakpoint"
    | .finished => "Finished"

instance : Shape Snapshot where
  encode s := .obj [
    ("current_instruction_index", encode s.current?),
    ("next_instruction_index", encode s.next?), ("has_more", encode s.isRunning),
    ("target_variable", encode s.target?), ("cycles_so_far", encode s.cycles),
    ("result", encode s.result), ("variables_sorted", encode s.values)]
  decode? j := do
    let fields ← j.fields?
    return {
      current? := ← Json.optional? fields "current_instruction_index"
      next? := ← Json.optional? fields "next_instruction_index"
      isRunning := ← Json.required? fields "has_more"
      target? := ← Json.optional? fields "target_variable"
      cycles := ← Json.required? fields "cycles_so_far"
      result := ← Json.required? fields "result"
      values := ← Json.required? fields "variables_sorted" }

instance : Shape Outcome where
  encode o := .obj [
    ("result", encode o.result), ("total_cycles", encode o.cycles),
    ("variables_sorted", encode o.values)]
  decode? j := do
    let fields ← j.fields?
    return {
      result := ← Json.required? fields "result"
      cycles := ← Json.required? fields "total_cycles"
      values := ← Json.required? fields "variables_sorted" }

end SLanguage
