import DeadCode.Json.Basic
import DeadCode.Report.Basic

/-! # Reports as JSON

The report as one JSON object with a summary of counts and a list per kind of finding. The name of
the project is left out if there is none, and so are unresolved imports and failures. -/

namespace DeadCode.Report

/-- A list of values as a JSON array. -/
def listJson {α : Type} (encode : α → Json) (items : List α) : Json :=
  .array (items.map encode)

/-- A path as a JSON value. -/
def pathJson (path : Path) : Json :=
  .string path.text

/-- A dependency as a JSON object. -/
def dependencyJson (d : Dependency) : Json :=
  .object [("name", .string d.name), ("version", .string d.version),
    ("dep_type", .string d.kind.name)]

/-- A dead statement as a JSON object. -/
def statementJson (s : DeadStatement) : Json :=
  .object [("path", pathJson s.path), ("line", .ofNat s.location.line),
    ("column", .ofNat s.location.column), ("kind", .string s.kind),
    ("names", listJson .string s.names), ("reason", .string s.reason.label)]

/-- An unresolved import as a JSON object. -/
def unresolvedJson (i : UnresolvedFinding) : Json :=
  .object [("path", pathJson i.path), ("line", .ofNat i.line), ("source", .string i.source),
    ("imported", .string i.imported), ("reason", .string i.reason.label)]

/-- A file that could not be analyzed as a JSON object. -/
def failureJson (f : FailureNote) : Json :=
  .object [("path", pathJson f.path), ("message", .string f.message)]

/-- The counts of a report as a JSON object. -/
def summaryJson (report : Report) : Json :=
  .object [("total_files", .ofNat report.totalFiles), ("reached_files", .ofNat report.reachedFiles),
    ("dead_files", .ofNat report.deadFiles.length),
    ("dead_dependencies", .ofNat report.deadDependencies.length),
    ("dead_statements", .ofNat report.deadStatements.length),
    ("unresolved_imports", .ofNat report.unresolvedImports.length),
    ("failures", .ofNat report.failures.length)]

/-- A field that is left out if its list is empty. -/
def listField {α : Type} (name : String) (encode : α → Json) (items : List α) :
    List (String × Json) :=
  if items.isEmpty then [] else [(name, listJson encode items)]

/-- The report as a JSON object. -/
def toJson (report : Report) : Json :=
  .object <|
    (report.projectName.toList.map fun name => ("project", .string name))
      ++ [("entries", listJson pathJson report.entries), ("summary", summaryJson report),
        ("dead_files", listJson pathJson report.deadFiles),
        ("dead_dependencies", listJson dependencyJson report.deadDependencies),
        ("dead_statements", listJson statementJson report.deadStatements)]
      ++ listField "unresolved_imports" unresolvedJson report.unresolvedImports
      ++ listField "failures" failureJson report.failures

/-- The report as JSON text. -/
def json (report : Report) : String :=
  report.toJson.pretty ++ "\n"

end DeadCode.Report
