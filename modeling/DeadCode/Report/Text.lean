import DeadCode.Lines
import DeadCode.Report.Basic

/-! # Reports as plain text

One line counts the reached files, and each kind of finding has a section of its own with one line
per finding. -/

namespace DeadCode.Report

/-- A section of a plain text: an empty line, a heading and the indented lines, or nothing if there
are no lines. -/
def textSection (heading : String) (lines : List String) : List String :=
  match lines with
  | [] => []
  | lines => "" :: (heading ++ ":") :: lines.map ("  " ++ ·)

/-- The line of a dead statement. -/
def statementLine (s : DeadStatement) : String :=
  s.path.text ++ ":" ++ s.location.render ++ "  " ++ ", ".intercalate s.names
    ++ "  [" ++ s.reason.label ++ "]"

/-- The line of an unresolved import. -/
def unresolvedLine (i : UnresolvedFinding) : String :=
  i.path.text ++ ":" ++ toString i.line ++ "  " ++ i.imported ++ " from '" ++ i.source
    ++ "'  [" ++ i.reason.label ++ "]"

/-- The report as plain text. -/
def text (report : Report) : String :=
  unlines <|
    [s!"Reached {report.reachedFiles} of {report.totalFiles} files from " ++
      s!"{report.entries.length} entry point(s)"]
      ++ (if report.isClean then ["No dead code found."] else [])
      ++ textSection "Dead files" (report.deadFiles.map (·.text))
      ++ textSection "Dead dependencies" (report.deadDependencies.map Dependency.render)
      ++ textSection "Dead statements" (report.deadStatements.map statementLine)
      ++ textSection "Unresolved imports" (report.unresolvedImports.map unresolvedLine)
      ++ textSection "Failed to analyze" (report.failures.map (·.message))

end DeadCode.Report
