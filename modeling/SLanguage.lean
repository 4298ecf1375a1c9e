import SLanguage.Text.Blank
import SLanguage.Text.Fold
import SLanguage.Text.Numeral
import SLanguage.Serial
import SLanguage.Variable
import SLanguage.Label
import SLanguage.Architecture
import SLanguage.Kind
import SLanguage.Refusal
import SLanguage.Call.Basic
import SLanguage.Call.Printer
import SLanguage.Call.Reader
import SLanguage.Instruction.Basic
import SLanguage.Instruction.Printer
import SLanguage.Instruction.Record
import SLanguage.Program.Names
import SLanguage.Program.Definition
import SLanguage.Program.Basic
import SLanguage.Program.Summary
import SLanguage.Json.Basic
import SLanguage.Json.Writer
import SLanguage.Json.Reader
import SLanguage.Json.Shape
import SLanguage.Json.Programs
import SLanguage.Catalog
import SLanguage.Functions
import SLanguage.CallGraph
import SLanguage.Lowering.Error
import SLanguage.Lowering.Renaming
import SLanguage.Lowering.Frame
import SLanguage.Lowering.Rules
import SLanguage.Attempt
import SLanguage.Expansion.Basic
import SLanguage.Expansion.Ancestry
import SLanguage.Expansion.Cached
import SLanguage.Amount
import SLanguage.Store
import SLanguage.Ledger
import SLanguage.Signal
import SLanguage.Machine.Snapshot
import SLanguage.Machine.Error
import SLanguage.Machine.Basic
import SLanguage.Machine.Evaluator
import SLanguage.Run
import SLanguage.Json.Runs
import SLanguage.Session
import SLanguage.Registry
import SLanguage.History
import SLanguage.Engine.Error
import SLanguage.Engine.Basic
import SLanguage.Engine.Sessions
import SLanguage.Json.Engine
import SLanguage.Json.Errors
import SLanguage.Proofs.Outcomes
import SLanguage.Proofs.Assembly
import SLanguage.Proofs.Assembly.Acceptance
import SLanguage.Proofs.Supply
import SLanguage.Proofs.Catalog
import SLanguage.Proofs.CallGraph
import SLanguage.Proofs.Ranks
import SLanguage.Proofs.Metering
import SLanguage.Proofs.Machine.Steps
import SLanguage.Proofs.Session.Moves
import SLanguage.Proofs.Session.Pairs
import SLanguage.Proofs.Session.Twins
import SLanguage.Proofs.Session.Cursor
import SLanguage.Proofs.Session.Credits
import SLanguage.Proofs.Lowering.Drawing
import SLanguage.Proofs.Lowering.Composing
import SLanguage.Proofs.Lowering.Splicing
import SLanguage.Proofs.Calls.Agreement
import SLanguage.Proofs.Calls.Copies
import SLanguage.Proofs.Calls.Entries
import SLanguage.Proofs.Calls.Answers
import SLanguage.Proofs.Calls.Affordable
import SLanguage.Proofs.Calls.Bounds
import SLanguage.Proofs.Calls.Strategies
import SLanguage.Proofs.Machine.Passages
import SLanguage.Proofs.Machine.Simulation
import SLanguage.Proofs.Lowering.Blocks
import SLanguage.Proofs.Lowering.Drafts
import SLanguage.Proofs.Lowering.Calling
import SLanguage.Proofs.Lowering.Contract
import SLanguage.Proofs.Lowering.Afforded
import SLanguage.Proofs.Lowering.Callees
import SLanguage.Proofs.Lowering.Descent
import SLanguage.Proofs.Lowering.Labels
import SLanguage.Proofs.Lowering.Reentry
import SLanguage.Proofs.Lowering.Failures
import SLanguage.Proofs.Lowering.Capture
import SLanguage.Proofs.Expansion.Layout
import SLanguage.Proofs.Expansion.Rounds
import SLanguage.Proofs.Expansion.Degrees
import SLanguage.Proofs.Expansion.Supply
import SLanguage.Proofs.Expansion.Meaning
import SLanguage.Proofs.Expansion.Numbering
import SLanguage.Proofs.Expansion.Declared
import SLanguage.Proofs.Expansion.Ancestry
import SLanguage.Proofs.Expansion.Origins
import SLanguage.Proofs.Expansion.Generations
import SLanguage.Proofs.Expansion.Termination
import SLanguage.Proofs.Expansion.Cycles
import SLanguage.Proofs.Expansion.WellFormed
import SLanguage.Proofs.Expansion.Architectures
import SLanguage.Proofs.Payment
import SLanguage.Proofs.Session.Running
import SLanguage.Proofs.Expansion.Tables
import SLanguage.Proofs.Registry
import SLanguage.Proofs.Engine.Actions
import SLanguage.Proofs.Registry.Bundles
import SLanguage.Proofs.Machine.InPlace
import SLanguage.Proofs.Calls.Safety
import SLanguage.Proofs.Engine.Failures
import SLanguage.Proofs.Engine.Soundness
import SLanguage.Proofs.Engine.Commands
import SLanguage.Proofs.Engine.Views
import SLanguage.Proofs.Engine.Privacy
import SLanguage.Proofs.Engine.Dues
import SLanguage.Proofs.Engine.Accounts
import SLanguage.Proofs.Text.Names
import SLanguage.Proofs.Text.Spelling
import SLanguage.Proofs.Text.Grammar
import SLanguage.Proofs.Text.Arguments
import SLanguage.Proofs.Text.Nesting
import SLanguage.Proofs.Text.Identifiers
import SLanguage.Proofs.Json.Reading
import SLanguage.Proofs.Json.Shapes
import SLanguage.Proofs.Json.RoundTrips
import SLanguage.Proofs.Records
import SLanguage.Proofs.Expansion.Reloading
import SLanguage.Proofs.CallGraph.Reports
import SLanguage.Proofs.Payment.Budget
import SLanguage.Proofs.Payment.Exhaustion
import SLanguage.Proofs.Catalog.Shelves
import SLanguage.Proofs.Registry.Names
import SLanguage.Proofs.Registry.Refusals
import SLanguage.Proofs.Registry.Blanks
import SLanguage.Proofs.Engine.Handling
import SLanguage.Proofs.Engine.Launches
import SLanguage.Proofs.Engine.Fees
import SLanguage.Proofs.Engine.Chronicle
import SLanguage.Proofs.Session.Log
import SLanguage.Proofs.Session.Rounds
import SLanguage.Proofs.Session.Resuming
import SLanguage.Proofs.Session.Breakpoints
import SLanguage.Proofs.Calls.Depth
import SLanguage.Proofs.Machine.Inputs
import SLanguage.Proofs.Session.Inputs
