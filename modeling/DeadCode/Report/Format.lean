import DeadCode.Report.Text
import DeadCode.Report.Json
import DeadCode.Report.Markdown

/-! # Formats of reports -/

namespace DeadCode

/-- The formats a report can be written in. -/
inductive Format where
  | text
  | json
  | markdown
deriving DecidableEq, Inhabited, Repr

namespace Format

/-- The format that is used if none is asked for. -/
def standard : Format := text

/-- The name of a format. -/
def name : Format → String
  | text => "text"
  | json => "json"
  | markdown => "markdown"

/-- The format of a name or its abbreviation, in any letter case. -/
def ofName? (name : String) : Option Format :=
  match lowercase name with
  | "text" | "txt" => some text
  | "json" => some json
  | "markdown" | "md" => some markdown
  | _ => none

/-- The wording of the error that a name is the name of no format. -/
def unknownMessage (name : String) : String :=
  "Unknown export format: '" ++ name ++ "'. Valid formats: text, json, markdown"

end Format

/-- The report in a format. -/
def Report.render (report : Report) : Format → String
  | .text => report.text
  | .json => report.json
  | .markdown => report.markdown

end DeadCode
