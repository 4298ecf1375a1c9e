import SLanguage.Engine.Basic
import SLanguage.Json.Runs

/-!
The JSON shapes of requests, responses, run records and configurations. A record and a
response are flat objects, with the fields of their outcome among their own.
-/

namespace SLanguage

instance : Worded RunMode where
  members := [.execution, .debug]
  word
    | .execution => "Execution"
    | .debug => "Debug"

def Request.fields (r : Request) : List (String × Json) := [
  ("program", encode r.program), ("degree", encode r.degree), ("inputs", encode r.inputs),
  ("architecture", encode r.architecture?)]

def Request.ofFields? (fields : List (String × Json)) : Option Request := do
  return {
    program := ← Json.required? fields "program"
    degree := ← Json.defaulted? fields "degree" 0
    inputs := ← Json.defaulted? fields "inputs" []
    architecture? := ← Json.optional? fields "architecture" }

instance : Shape Request where
  encode r := .obj r.fields
  decode? j := do Request.ofFields? (← j.fields?)

instance : Shape RunRequest where
  encode r := .obj (r.toRequest.fields ++ [("strategy", encode r.strategy?)])
  decode? j := do
    let fields ← j.fields?
    let r ← Request.ofFields? fields
    return { r with strategy? := ← Json.optional? fields "strategy" }

instance : Shape RunResponse where
  encode r := .obj [
    ("result", encode r.outcome.result), ("total_cycles", encode r.outcome.cycles),
    ("variables_sorted", encode r.outcome.values), ("degree", encode r.degree),
    ("architecture", encode r.architecture), ("run_number", encode r.number)]
  decode? j := do
    let fields ← j.fields?
    return {
      outcome := ← decode? j
      degree := ← Json.required? fields "degree"
      architecture := ← Json.required? fields "architecture"
      number := ← Json.required? fields "run_number" }

instance : Shape PastRun where
  encode r := .obj [
    ("run_number", encode r.number), ("kind", encode r.mode), ("program", encode r.program),
    ("degree", encode r.degree), ("architecture", encode r.architecture),
    ("inputs", encode r.inputs), ("result", encode r.outcome.result),
    ("total_cycles", encode r.outcome.cycles), ("variables", encode r.outcome.values)]
  decode? j := do
    let fields ← j.fields?
    return {
      number := ← Json.required? fields "run_number"
      mode := ← Json.required? fields "kind"
      program := ← Json.required? fields "program"
      degree := ← Json.required? fields "degree"
      architecture := ← Json.required? fields "architecture"
      inputs := ← Json.required? fields "inputs"
      outcome := {
        result := ← Json.required? fields "result"
        cycles := ← Json.required? fields "total_cycles"
        values := ← Json.required? fields "variables" } }

instance : Shape Config where
  encode c := .obj [
    ("default_architecture", encode c.architecture?), ("call_strategy", encode c.strategy),
    ("max_call_depth", encode c.callDepth)]
  decode? j := do
    let fields ← j.fields?
    return {
      architecture? := ← Json.optional? fields "default_architecture"
      strategy := ← Json.required? fields "call_strategy"
      callDepth := ← Json.required? fields "max_call_depth" }

end SLanguage
