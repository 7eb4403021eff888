import GraphQuery.Flow.Replay
import GraphQuery.Proofs.Backend.EdgeScan
import GraphQuery.Proofs.Backend.Objects
import GraphQuery.Proofs.Execution.Aggregation
import GraphQuery.Proofs.Execution.Answers
import GraphQuery.Proofs.Execution.ApplyAttach
import GraphQuery.Proofs.Execution.CarryOver
import GraphQuery.Proofs.Execution.CursorValidity
import GraphQuery.Proofs.Execution.Emptiness
import GraphQuery.Proofs.Execution.Existence
import GraphQuery.Proofs.Execution.FailedBranches
import GraphQuery.Proofs.Execution.FailedLookup
import GraphQuery.Proofs.Execution.Grafting
import GraphQuery.Proofs.Execution.Isolation
import GraphQuery.Proofs.Execution.Lookups
import GraphQuery.Proofs.Execution.MergeNests
import GraphQuery.Proofs.Execution.MultiHop
import GraphQuery.Proofs.Execution.NestApply
import GraphQuery.Proofs.Execution.NestStage
import GraphQuery.Proofs.Execution.Recipes
import GraphQuery.Proofs.Execution.Splicing
import GraphQuery.Proofs.Flow.Replays
import GraphQuery.Proofs.Flow.Uses
import GraphQuery.Proofs.Form.Conservation
import GraphQuery.Proofs.Form.Expansion
import GraphQuery.Proofs.Form.Grammar
import GraphQuery.Proofs.Form.Lexeme
import GraphQuery.Proofs.Form.Spans
import GraphQuery.Proofs.Form.Spelling
import GraphQuery.Proofs.Form.Stages
import GraphQuery.Proofs.Form.Unclosed
import GraphQuery.Proofs.Json.Documents
import GraphQuery.Proofs.Json.Mappings
import GraphQuery.Proofs.Operation.Difference
import GraphQuery.Proofs.Operation.GroupRecords
import GraphQuery.Proofs.Operation.Grouping
import GraphQuery.Proofs.Operation.Merging
import GraphQuery.Proofs.Operation.Predicates
import GraphQuery.Proofs.Operation.SortKeys
import GraphQuery.Proofs.Operation.Subtraction
import GraphQuery.Proofs.Operation.Uniformity
import GraphQuery.Proofs.Plan.Quoting
import GraphQuery.Proofs.Plan.WellFormed
import GraphQuery.Proofs.Scenario.Identifiers
import GraphQuery.Proofs.Scenario.Sources
import GraphQuery.Proofs.Scenario.StepNames
import GraphQuery.Proofs.Tree.Addresses
import GraphQuery.Proofs.Tree.Merging
import GraphQuery.Proofs.Tree.Shifting
import GraphQuery.Proofs.Value.Comparing
import GraphQuery.Proofs.Value.Edits
import GraphQuery.Proofs.Value.Ties
import GraphQuery.Scenario.Basic
import GraphQuery.Value.Lemmas
