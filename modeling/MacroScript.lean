import MacroScript.Double.Reading
import MacroScript.Editor.Workspace
import MacroScript.Evaluation.Basic
import MacroScript.Function.Stock
import MacroScript.Version
import MacroScript.Proofs.Source.Position
import MacroScript.Proofs.Token.Spelling
import MacroScript.Proofs.Expr.Subtrees
import MacroScript.Proofs.Reading.Derivation
import MacroScript.Proofs.Reading.Recognition
import MacroScript.Proofs.Reading.WrittenForm
import MacroScript.Proofs.Reading.Shape
import MacroScript.Proofs.Reading.EarliestError
import MacroScript.Proofs.Action.Ending
import MacroScript.Proofs.Evaluation.Discipline
import MacroScript.Proofs.Session.Steps
import MacroScript.Proofs.Evaluation.Lawful
import MacroScript.Proofs.Scope.Steps
import MacroScript.Proofs.Evaluation.Bindings
import MacroScript.Proofs.Evaluation.Indifference
import MacroScript.Proofs.Evaluation.KeptNames
import MacroScript.Proofs.Evaluation.Levels
import MacroScript.Proofs.Evaluation.Values
import MacroScript.Proofs.Evaluation.Tidy
import MacroScript.Proofs.Evaluation.Coupling
import MacroScript.Proofs.Evaluation.Traversal
import MacroScript.Proofs.Evaluation.TidyRuns
import MacroScript.Proofs.Evaluation.LargerLimits
import MacroScript.Proofs.Evaluation.HostErrors
import MacroScript.Proofs.Evaluation.Enclosed
import MacroScript.Proofs.Evaluation.Regions
import MacroScript.Proofs.Evaluation.ScratchBalance
import MacroScript.Proofs.Evaluation.Congruence
import MacroScript.Proofs.Evaluation.DepthBudget
import MacroScript.Proofs.Session.Idle
import MacroScript.Proofs.Expr.Substitution
import MacroScript.Proofs.Evaluation.Simulation
import MacroScript.Proofs.Evaluation.BoundValues
import MacroScript.Proofs.Evaluation.Substitution
import MacroScript.Proofs.Token.Tiling
import MacroScript.Proofs.Evaluation.Definitions
import MacroScript.Proofs.Evaluation.Unmentioned
import MacroScript.Proofs.Evaluation.WrittenUnit
import MacroScript.Proofs.Evaluation.FixedFunctions
import MacroScript.Proofs.Editor.Agreement
import MacroScript.Proofs.Reading.Layout
import MacroScript.Proofs.Reading.Sequence
import MacroScript.Proofs.Session.Arena
import MacroScript.Proofs.Editor.WordLookup
import MacroScript.Proofs.Text.Lines
import MacroScript.Proofs.Scope.Usage
import MacroScript.Proofs.Scope.Refusals
import MacroScript.Proofs.Editor.Following
import MacroScript.Proofs.Evaluation.Vanishing
import MacroScript.Proofs.Reading.Numerals
import MacroScript.Reading.Descent
import MacroScript.Proofs.Text.Numeral
import MacroScript.Proofs.Token.Stepwise
import MacroScript.Proofs.Reading.Progress
import MacroScript.Proofs.Reading.Argument
import MacroScript.Proofs.Reading.Causes
import MacroScript.Proofs.Reading.Descent
import MacroScript.Proofs.Editor.Symbols
import MacroScript.Proofs.Editor.Diagnostics
import MacroScript.Editor.Walking
import MacroScript.Proofs.Editor.Walking
import MacroScript.Proofs.Editor.OpenCalls
import MacroScript.Proofs.Editor.SignatureHelp
import MacroScript.Proofs.Evaluation.Surroundings
import MacroScript.Proofs.Action.Row
import MacroScript.Proofs.Evaluation.Deepening
import MacroScript.Proofs.Evaluation.Printing
import MacroScript.Proofs.Evaluation.Repetition
import MacroScript.Proofs.Evaluation.Aliases
import MacroScript.Proofs.Evaluation.Sums
import MacroScript.Proofs.Expr.Painted
import MacroScript.Proofs.Text.SpelledInteger
import MacroScript.Proofs.Settings
import MacroScript.Proofs.Source.Coordinates
