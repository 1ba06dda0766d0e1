import DeadCode.Project.Links

/-! # Reports

A `Report` holds the findings of one analysis: files, dependencies and statements that nothing uses,
imports that lead nowhere, and files that could not be analyzed. -/

namespace DeadCode

/-- The reasons why a statement is reported. -/
inductive DeadReason where
  /-- It imports something nobody uses. -/
  | unusedImport
  /-- It declares something that is exported and imported by nobody. -/
  | unusedExport
  /-- It declares something nobody uses. -/
  | unusedDeclaration
deriving DecidableEq, Inhabited, Repr

/-- The label of a reason. -/
def DeadReason.label : DeadReason → String
  | unusedImport => "unused-import"
  | unusedExport => "unused-export"
  | unusedDeclaration => "unused-declaration"

/-- A declaration nobody uses. -/
structure DeadStatement where
  /-- The path of its file. -/
  path : Path
  /-- Where it starts. -/
  location : Location
  /-- The kind of statement. -/
  kind : String
  /-- The names it binds. -/
  names : List String
  /-- Why it is reported. -/
  reason : DeadReason
deriving DecidableEq, Inhabited, Repr

/-- An import that leads nowhere. -/
structure UnresolvedFinding where
  /-- The path of the importing file. -/
  path : Path
  /-- The line of the import. -/
  line : Nat
  /-- The module specifier as written. -/
  source : String
  /-- The name the import asks for; `*` if it asks for no single one. -/
  imported : String
  /-- Why it leads nowhere. -/
  reason : UnresolvedReason
deriving DecidableEq, Inhabited, Repr

/-- A file that could not be analyzed. -/
structure FailureNote where
  /-- The path of the file. -/
  path : Path
  /-- What went wrong. -/
  message : String
deriving DecidableEq, Inhabited, Repr

/-- The findings of one analysis. -/
structure Report where
  /-- The name of the package. -/
  projectName : Option String := none
  /-- The paths of the entry files. -/
  entries : List Path := []
  /-- The number of analyzed files. -/
  totalFiles : Nat := 0
  /-- The number of files that are reached from the entry files. -/
  reachedFiles : Nat := 0
  /-- The paths of the files that are not reached. -/
  deadFiles : List Path := []
  /-- The checked dependencies that no reached statement imports. -/
  deadDependencies : List Dependency := []
  /-- The declarations of reached files that nobody uses. -/
  deadStatements : List DeadStatement := []
  /-- The imports that lead nowhere. -/
  unresolvedImports : List UnresolvedFinding := []
  /-- The files that could not be analyzed. -/
  failures : List FailureNote := []
deriving DecidableEq, Inhabited, Repr

namespace Report

/-- Whether nothing was found. Files that could not be analyzed are no findings. -/
def isClean (report : Report) : Bool :=
  report.deadFiles.isEmpty && report.deadDependencies.isEmpty && report.deadStatements.isEmpty
    && report.unresolvedImports.isEmpty

/-- The reported statements with a reason. -/
def statementsWith (report : Report) (reason : DeadReason) : List DeadStatement :=
  report.deadStatements.filter (·.reason = reason)

end Report

end DeadCode
