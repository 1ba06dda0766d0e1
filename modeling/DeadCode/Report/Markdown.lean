import DeadCode.Lines
import DeadCode.Report.Basic

/-! # Reports as Markdown

A title, a table of counts, and a section per kind of finding, as a list or as a table with one row
per finding. Values stand in their cells as they are. -/

namespace DeadCode.Report

/-- A row of a table. -/
def row (cells : List String) : String :=
  "| " ++ " | ".intercalate cells ++ " |"

/-- The line under the heading of a table. -/
def rule (headings : List String) : String :=
  "|" ++ "|".intercalate (headings.map fun h => String.ofList (List.replicate (h.length + 2) '-'))
    ++ "|"

/-- A table with its headings. -/
def table (headings : List String) (rows : List (List String)) : List String :=
  row headings :: rule headings :: rows.map row

/-- A text set as code. -/
def code (text : String) : String :=
  "\x60" ++ text ++ "\x60"

/-- A part of the document: a heading, an empty line, the lines and an empty line, or nothing if the
part has no findings. -/
def part (isEmpty : Bool) (heading : String) (lines : List String) : List String :=
  if isEmpty then [] else heading :: "" :: lines ++ [""]

/-- A heading with a count. -/
def counted (heading : String) (count : Nat) : String :=
  s!"{heading} ({count})"

/-- The table of counts. -/
def summaryTable (report : Report) : List String :=
  table ["Metric", "Count"]
    [["Files Analyzed", toString report.totalFiles],
      ["Files Reached", toString report.reachedFiles],
      ["Dead Files", toString report.deadFiles.length],
      ["Dead Dependencies", toString report.deadDependencies.length],
      ["Dead Statements", toString report.deadStatements.length],
      ["Unresolved Imports", toString report.unresolvedImports.length],
      ["Failed Files", toString report.failures.length]]

/-- The cells of a dead dependency. -/
def dependencyCells (d : Dependency) : List String :=
  [d.name, d.version, d.kind.name]

/-- The cells of a dead statement. -/
def statementCells (s : DeadStatement) : List String :=
  [code s!"{s.path.text}:{s.location.line}", ", ".intercalate s.names, s.kind, s.reason.label]

/-- The cells of an unresolved import. -/
def unresolvedCells (i : UnresolvedFinding) : List String :=
  [code s!"{i.path.text}:{i.line}", code i.source, i.imported, i.reason.label]

/-- A list item for a path. -/
def pathItem (path : Path) : String :=
  "- " ++ code path.text

/-- A list item for a file that could not be analyzed. -/
def failureItem (f : FailureNote) : String :=
  pathItem f.path ++ ": " ++ f.message

/-- The heading of the issues, if there are any. -/
def issuesHeading (report : Report) : List String :=
  if report.unresolvedImports.isEmpty && report.failures.isEmpty then [] else ["## Issues", ""]

/-- The report as Markdown. -/
def markdown (report : Report) : String :=
  unlines <|
    ["# Dead Code Report", ""]
      ++ (report.projectName.toList.flatMap fun name => ["**Project:** " ++ name, ""])
      ++ part false "## Summary" report.summaryTable
      ++ part report.entries.isEmpty "## Entry Points" (report.entries.map pathItem)
      ++ part report.deadFiles.isEmpty (counted "## Dead Files" report.deadFiles.length)
        (report.deadFiles.map pathItem)
      ++ part report.deadDependencies.isEmpty
        (counted "## Dead Dependencies" report.deadDependencies.length)
        (table ["Package", "Version", "Type"] (report.deadDependencies.map dependencyCells))
      ++ part report.deadStatements.isEmpty
        (counted "## Dead Statements" report.deadStatements.length)
        (table ["Location", "Names", "Kind", "Reason"] (report.deadStatements.map statementCells))
      ++ report.issuesHeading
      ++ part report.unresolvedImports.isEmpty "### Unresolved Imports"
        (table ["Location", "Source", "Import", "Reason"]
          (report.unresolvedImports.map unresolvedCells))
      ++ part report.failures.isEmpty "### Failed Files" (report.failures.map failureItem)
      ++ ["---", "*Generated by deadscope*"]

end DeadCode.Report
