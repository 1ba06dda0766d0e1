import DeadCode.CommandLine
import DeadCode.Distinct
import DeadCode.FileTree
import DeadCode.Graph.Basic
import DeadCode.Graph.Dot
import DeadCode.Graph.Relation
import DeadCode.Json.Basic
import DeadCode.Json.Number
import DeadCode.Json.Reader
import DeadCode.Language
import DeadCode.Lines
import DeadCode.Main
import DeadCode.Manifest.Basic
import DeadCode.Manifest.Reader
import DeadCode.Module.Basic
import DeadCode.Module.Export
import DeadCode.Module.Import
import DeadCode.Module.Specifier
import DeadCode.Path
import DeadCode.Project.Basic
import DeadCode.Project.Findings
import DeadCode.Project.Links
import DeadCode.Project.Load
import DeadCode.Project.Reach
import DeadCode.Report.Basic
import DeadCode.Report.Format
import DeadCode.Report.Json
import DeadCode.Report.Markdown
import DeadCode.Report.Text
import DeadCode.Resolution.Callable
import DeadCode.Resolution.Expression
import DeadCode.Resolution.Hoisting
import DeadCode.Resolution.State
import DeadCode.Resolution.Statement
import DeadCode.Scope.Binding
import DeadCode.Scope.Tree
import DeadCode.Snapshot
import DeadCode.Sorting
import DeadCode.Source
import DeadCode.Span
import DeadCode.Syntax.Encoded
import DeadCode.Syntax.Fault
import DeadCode.Syntax.Form
import DeadCode.Syntax.Kind
import DeadCode.Syntax.Name
import DeadCode.Syntax.Node
import DeadCode.Syntax.Pattern
import DeadCode.Proofs.Path
import DeadCode.Proofs.Path.Canonical
import DeadCode.Proofs.Path.Normal
import DeadCode.Proofs.Sorting
import DeadCode.Proofs.Manifest
import DeadCode.Proofs.Json
import DeadCode.Proofs.Syntax.Faults
import DeadCode.Proofs.Syntax.Nodes
import DeadCode.Proofs.Syntax.Positions
import DeadCode.Proofs.Syntax.Layout
import DeadCode.Proofs.Syntax.Places
import DeadCode.Proofs.Syntax.Uses
import DeadCode.Proofs.Syntax.SourceOrder
import DeadCode.Proofs.Syntax.FileScope
import DeadCode.Proofs.Scope.Tree
import DeadCode.Proofs.Scope.Lookup
import DeadCode.Proofs.Scope.Operations
import DeadCode.Proofs.Scope.Chains
import DeadCode.Proofs.Scope.Members
import DeadCode.Proofs.Scope.Shadowing
import DeadCode.Proofs.Scope.Grounded
import DeadCode.Proofs.Graph.Basic
import DeadCode.Proofs.Graph.Innermost
import DeadCode.Proofs.Graph.Closest
import DeadCode.Proofs.Graph.Dot
import DeadCode.Proofs.Graph.Indexes
import DeadCode.Proofs.Resolution.Parts
import DeadCode.Proofs.Resolution.Walk
import DeadCode.Proofs.Resolution.Moves
import DeadCode.Proofs.Resolution.PatternNames
import DeadCode.Proofs.Resolution.Steps
import DeadCode.Proofs.Resolution.Expression
import DeadCode.Proofs.Resolution.Statement
import DeadCode.Proofs.Resolution.Callable
import DeadCode.Proofs.Resolution.WorkList
import DeadCode.Proofs.Resolution.File
import DeadCode.Proofs.Resolution.EnteredOnce
import DeadCode.Proofs.Resolution.Ownership
import DeadCode.Proofs.Resolution.References
import DeadCode.Proofs.Resolution.Trace
import DeadCode.Proofs.Resolution.Runs
import DeadCode.Proofs.Resolution.Runs.Expression
import DeadCode.Proofs.Resolution.Runs.Statement
import DeadCode.Proofs.Resolution.Runs.Hoisting
import DeadCode.Proofs.Resolution.Runs.Callable
import DeadCode.Proofs.Resolution.Runs.File
import DeadCode.Proofs.Resolution.History
import DeadCode.Proofs.Resolution.Bindings
import DeadCode.Proofs.Resolution.Visibility
import DeadCode.Proofs.Resolution.ForwardCalls
import DeadCode.Proofs.Resolution.MemberChains
import DeadCode.Proofs.Resolution.Keeps
import DeadCode.Proofs.Resolution.Seats
import DeadCode.Proofs.Resolution.Arranged
import DeadCode.Proofs.Resolution.Arranged.Expression
import DeadCode.Proofs.Resolution.Arranged.Statement
import DeadCode.Proofs.Resolution.Arranged.File
import DeadCode.Proofs.Resolution.Forest
import DeadCode.Proofs.Resolution.Upkeep
import DeadCode.Proofs.Resolution.Upkeep.Nesting
import DeadCode.Proofs.Resolution.Upkeep.Phases
import DeadCode.Proofs.Resolution.Upkeep.Statement
import DeadCode.Proofs.Resolution.Upkeep.Binding
import DeadCode.Proofs.Resolution.Upkeep.Turn
import DeadCode.Proofs.Resolution.HoistedNames
import DeadCode.Proofs.Resolution.HoistedCalls
import DeadCode.Proofs.Resolution.SoleBinder
import DeadCode.Proofs.Resolution.ExportClauses
import DeadCode.Proofs.Resolution.CallSites
import DeadCode.Proofs.Resolution.Returns
import DeadCode.Proofs.Module.Basic
import DeadCode.Proofs.Project.Reach
import DeadCode.Proofs.Project.Closure
import DeadCode.Proofs.Project.Accounting
import DeadCode.Proofs.Project.Analyzed
import DeadCode.Proofs.Project.Liveness
import DeadCode.Proofs.Project.Updates
import DeadCode.Proofs.Project.Pairing
import DeadCode.Proofs.Project.Entries
import DeadCode.Proofs.Project.RootSpelling
import DeadCode.Proofs.Project.FullNames
import DeadCode.Proofs.Project.Renumbering
import DeadCode.Proofs.Project.FileOrder
import DeadCode.Proofs.Project.DeadStatements
import DeadCode.Proofs.Project.UnusedDeclarations
import DeadCode.Proofs.Project.Balance
import DeadCode.Proofs.Project.Dependencies
import DeadCode.Proofs.Project.Builtins
import DeadCode.Proofs.Report.Json
import DeadCode.Proofs.Report.Markdown
import DeadCode.Proofs.Module.Integrity
import DeadCode.Proofs.Module.Literals
import DeadCode.Proofs.Module.Exports
import DeadCode.Proofs.Module.ExportClauses
import DeadCode.Proofs.Module.ImportBindings
import DeadCode.Proofs.Module.ExportedDeclarations
