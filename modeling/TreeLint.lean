import TreeLint.Forest.Basic
import TreeLint.Forest.Edit
import TreeLint.Forest.Navigation
import TreeLint.Json.Document
import TreeLint.Json.Number
import TreeLint.Json.Printer
import TreeLint.Json.Value
import TreeLint.Kind
import TreeLint.Lint.Batch
import TreeLint.Lint.Diagnostic
import TreeLint.Lint.Engine
import TreeLint.Lint.Hook
import TreeLint.Lint.LineMemo
import TreeLint.Lint.Policy
import TreeLint.Lint.Render
import TreeLint.Lint.Roster
import TreeLint.Lint.Walk
import TreeLint.NameMap
import TreeLint.Probe
import TreeLint.Proofs.Forest.Inverse
import TreeLint.Proofs.Forest.Lookup
import TreeLint.Proofs.Forest.Surgery
import TreeLint.Proofs.Lint.Program
import TreeLint.Proofs.Lint.Turn
import TreeLint.Proofs.NameMap
import TreeLint.Proofs.Rule.Cycle
import TreeLint.Proofs.Rule.Order
import TreeLint.Proofs.Rule.Waiting
import TreeLint.Proofs.Text.Bytes
import TreeLint.Proofs.Tree.Change
import TreeLint.Proofs.Tree.Effect
import TreeLint.Proofs.Tree.Links
import TreeLint.Proofs.Tree.Reachable
import TreeLint.Proofs.Tree.Replay
import TreeLint.Proofs.Tree.Rollback
import TreeLint.Rule.Id
import TreeLint.Rule.Info
import TreeLint.Rule.Order
import TreeLint.Rule.OrderCache
import TreeLint.Rule.Provider
import TreeLint.Rule.Registry
import TreeLint.Sample
import TreeLint.Script.Basic
import TreeLint.Script.Edit
import TreeLint.Script.Workbench
import TreeLint.Settings.Basic
import TreeLint.Settings.Fault
import TreeLint.Settings.Load
import TreeLint.Settings.OfJson
import TreeLint.Settings.OfYaml
import TreeLint.Settings.View
import TreeLint.Standard.BlankLine
import TreeLint.Standard.ChainWrapping
import TreeLint.Standard.ParameterSpacing
import TreeLint.Standard.RuleSet
import TreeLint.Text.Blank
import TreeLint.Text.Position
import TreeLint.Text.Quoted
import TreeLint.Text.Unprintable
import TreeLint.Tree.Basic
import TreeLint.Tree.Builder
import TreeLint.Tree.Dump
import TreeLint.Tree.Edit
import TreeLint.Tree.Op
import TreeLint.Yaml.Cursor
import TreeLint.Yaml.Node
import TreeLint.Yaml.Reader
import TreeLint.Yaml.Scalar
import TreeLint.Yaml.Token
import TreeLint.Proofs.Lint.Isolation
import TreeLint.Proofs.Lint.Upkeep
import TreeLint.Proofs.Lint.Untouched
import TreeLint.Proofs.Forest.Tokens
import TreeLint.Proofs.Tree.Document
import TreeLint.Proofs.Rule.Registry
import TreeLint.Proofs.Standard.Corrections
import TreeLint.Proofs.Standard.CodeOrder
import TreeLint.Proofs.Standard.LineComments
import TreeLint.Proofs.Lint.Children
import TreeLint.Proofs.Lint.Agenda
import TreeLint.Proofs.Lint.Tour
import TreeLint.Proofs.Forest.Text
import TreeLint.Proofs.Tree.Splice
import TreeLint.Proofs.Tree.SameFile
import TreeLint.Proofs.Tree.Success
import TreeLint.Proofs.Tree.Failure
import TreeLint.Proofs.Lint.Lines
import TreeLint.Proofs.Lint.Ledger
import TreeLint.Proofs.Lint.Twice
import TreeLint.Proofs.Lint.Reformat
import TreeLint.Proofs.Lint.Route
import TreeLint.Proofs.Lint.Alone
import TreeLint.Proofs.Tree.Neighbours
import TreeLint.Proofs.Standard.BlankLines
import TreeLint.Proofs.Standard.Listing
import TreeLint.Proofs.Standard.Tidying
import TreeLint.Proofs.Standard.ParameterLists
import TreeLint.Proofs.Standard.Plan
import TreeLint.Proofs.Standard.Stable
import TreeLint.Proofs.Lint.Flags
import TreeLint.Proofs.Lint.Positions
import TreeLint.Proofs.Rule.Alike
import TreeLint.Proofs.Lint.Registration
import TreeLint.Proofs.Lint.Noninterference
import TreeLint.Proofs.Lint.Parallel
import TreeLint.Proofs.Forest.Context
import TreeLint.Proofs.Forest.Frame
import TreeLint.Proofs.Tree.Steady
import TreeLint.Proofs.Tree.Focus
import TreeLint.Proofs.Tree.Respaced
import TreeLint.Proofs.Tree.Moved
import TreeLint.Proofs.Lint.Frontier
import TreeLint.Proofs.Lint.Sure
import TreeLint.Proofs.Lint.Trail
import TreeLint.Proofs.Lint.Ending
import TreeLint.Proofs.Standard.Resting
import TreeLint.Proofs.Standard.Reactions
import TreeLint.Proofs.Standard.Lists
import TreeLint.Proofs.Lint.Completion
import TreeLint.Proofs.Standard.Completion
import TreeLint.Proofs.Rule.OrderCache
import TreeLint.Proofs.Json.Scan
import TreeLint.Proofs.Json.RoundTrip
import TreeLint.Proofs.Json.Reordering
import TreeLint.Proofs.Settings.RoundTrip
import TreeLint.Proofs.Rule.Fewer
import TreeLint.Proofs.Tree.Leaves
import TreeLint.Proofs.Standard.LineBreaks
import TreeLint.Proofs.Standard.Effective
import TreeLint.Proofs.Text.Search
import TreeLint.Proofs.Text.LineTable
import TreeLint.Proofs.Tree.Layout
import TreeLint.Proofs.Tree.Gaps
import TreeLint.Proofs.Tree.Indentation
import TreeLint.Proofs.Standard.WrappedTypes
import TreeLint.Proofs.Tree.Building
import TreeLint.Proofs.Text.Quoted
import TreeLint.Proofs.Tree.Dump
import TreeLint.Proofs.Rule.Id
import TreeLint.Proofs.Rule.ReadyQueue
import TreeLint.Proofs.Tree.Preorder
import TreeLint.Proofs.Tree.Arena
import TreeLint.Proofs.Settings.Acceptance
