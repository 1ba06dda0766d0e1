import DeadCode.Report.Markdown
import Mathlib.Algebra.Order.BigOperators.Group.List
import Mathlib.Algebra.Order.Monoid.Unbundled.Basic
import Mathlib.Algebra.Order.Ring.Nat

/-! # The tables of a Markdown report

A cell of a table ends at the next `|` that no backslash escapes, and a row ends with its line. The
report writes names, versions, paths and specifiers into the cells as they are. So a row has the
columns of its heading exactly if none of these texts has a line break or an unescaped `|`. -/

namespace DeadCode.Report

/-! ## The columns of a line -/

/-- The parts of a line between its separators; the first character may be escaped. -/
def columnsFrom : Bool → List Char → List (List Char)
  | _, [] => [[]]
  | escaped, c :: rest =>
    if c = '|' ∧ ¬ escaped then [] :: columnsFrom false rest
    else (columnsFrom (c = '\\' && !escaped) rest).modifyHead (c :: ·)

/-- The parts of a line between its unescaped `|`. -/
def columns (line : List Char) : List (List Char) :=
  columnsFrom false line

/-- The number of unescaped `|` in a line. -/
def separators (line : String) : Nat :=
  (columns line.toList).length - 1

/-- A text has no line break. -/
def OneLine (text : List Char) : Prop :=
  '\n' ∉ text ∧ '\r' ∉ text

/-- A text stays on its line and in its column. -/
def Plain (text : List Char) : Prop :=
  OneLine text ∧ (columns text).length = 1

/-- A row is one line with as many separators as its heading. -/
def WellFormed (headings cells : List String) : Prop :=
  OneLine (row cells).toList ∧ separators (row cells) = separators (row headings)

instance (text : List Char) : Decidable (OneLine text) :=
  inferInstanceAs (Decidable (_ ∧ _))

instance (text : List Char) : Decidable (Plain text) :=
  inferInstanceAs (Decidable (_ ∧ _))

instance (headings cells : List String) : Decidable (WellFormed headings cells) :=
  inferInstanceAs (Decidable (_ ∧ _))

section Columns

variable {c : Char} {text rest : List Char} {escaped : Bool}

/-- A character that neither separates nor escapes nor ends the line. -/
def Ordinary (c : Char) : Prop :=
  c ≠ '|' ∧ c ≠ '\\' ∧ c ≠ '\n' ∧ c ≠ '\r'

theorem length_columnsFrom_pos (escaped : Bool) (text : List Char) :
    0 < (columnsFrom escaped text).length := by
  induction text generalizing escaped with
  | nil => simp [columnsFrom]
  | cons c rest ih =>
    rw [columnsFrom]
    split
    · simp
    · simpa using ih _

/-- An ordinary character belongs to the first column. -/
theorem columnsFrom_ordinary (hc : Ordinary c) (escaped : Bool) (rest : List Char) :
    columnsFrom escaped (c :: rest) = (columns rest).modifyHead (c :: ·) := by
  simp [columnsFrom, columns, hc.1, hc.2.1]

/-- What follows an ordinary character is read alike, whatever stands before it. -/
theorem length_columnsFrom_append (hc : Ordinary c) (escaped : Bool) (text rest : List Char) :
    (columnsFrom escaped (text ++ c :: rest)).length + 1 =
      (columnsFrom escaped text).length + (columns (c :: rest)).length := by
  induction text generalizing escaped with
  | nil =>
    rw [List.nil_append, columns, columnsFrom_ordinary hc, columnsFrom_ordinary hc, columnsFrom]
    simp [Nat.add_comm]
  | cons d text ih =>
    rw [List.cons_append, columnsFrom, columnsFrom]
    split
    · have hrest := ih false
      simp only [List.length_cons]
      omega
    · simpa using ih _

/-- Text without bars stays in its column. -/
theorem columnsFrom_append (hc : Ordinary c) (h : (columnsFrom escaped text).length = 1)
    (rest : List Char) :
    columnsFrom escaped (text ++ c :: rest) = (columns (c :: rest)).modifyHead (text ++ ·) := by
  induction text generalizing escaped with
  | nil =>
    rw [List.nil_append, columns, columnsFrom_ordinary hc, columnsFrom_ordinary hc]
    simp [Function.comp_def, List.modifyHead_modifyHead]
  | cons d text ih =>
    rw [List.cons_append, columnsFrom]
    rw [columnsFrom] at h
    split
    · next hseparates =>
      rw [if_pos hseparates, List.length_cons] at h
      exact absurd (length_columnsFrom_pos false text) (by omega)
    · next hjoins =>
      rw [if_neg hjoins, List.length_modifyHead] at h
      rw [ih h, List.modifyHead_modifyHead]
      rfl

/-- Plain texts can be joined at an ordinary character. -/
theorem plain_append (hc : Ordinary c) :
    Plain (text ++ c :: rest) ↔ Plain text ∧ Plain (c :: rest) := by
  have hlength := length_columnsFrom_append hc false text rest
  have htext := length_columnsFrom_pos false text
  have hrest := length_columnsFrom_pos false (c :: rest)
  simp only [Plain, OneLine, columns, List.mem_append, not_or] at *
  constructor
  · rintro ⟨⟨⟨hn, hn'⟩, hr, hr'⟩, hcolumns⟩
    exact ⟨⟨⟨hn, hr⟩, by omega⟩, ⟨hn', hr'⟩, by omega⟩
  · rintro ⟨⟨⟨hn, hr⟩, hcolumns⟩, ⟨hn', hr'⟩, hcolumns'⟩
    exact ⟨⟨⟨hn, hn'⟩, hr, hr'⟩, by omega⟩

theorem plain_cons (hc : Ordinary c) : Plain (c :: rest) ↔ Plain rest := by
  obtain ⟨-, -, hn, hr⟩ := id hc
  rw [Plain, Plain, columns, columnsFrom_ordinary hc, List.length_modifyHead, OneLine, OneLine,
    List.mem_cons, List.mem_cons, or_iff_right (Ne.symm hn), or_iff_right (Ne.symm hr)]

/-- Ordinary characters are plain text. -/
theorem plain_of_ordinary (h : ∀ c ∈ text, Ordinary c) : Plain text := by
  induction text with
  | nil => decide
  | cons c rest ih =>
    obtain ⟨hc, hrest⟩ := List.forall_mem_cons.1 h
    exact (plain_cons hc).2 (ih hrest)

end Columns

/-! ## The cells of a row -/

/-- What a row shows of a cell. -/
def shown (cell : String) : List Char :=
  ' ' :: cell.toList ++ [' ']

/-- What a row shows of its cells, each closed by a bar. -/
def closed (cells : List String) : List Char :=
  cells.flatMap fun cell => shown cell ++ ['|']

theorem closed_cons (cell : String) (rest : List String) :
    closed (cell :: rest) = ' ' :: (cell.toList ++ ' ' :: '|' :: closed rest) := by
  simp [closed, shown]

variable {cells : List String}

/-- The characters of a row. -/
theorem toList_row (h : cells ≠ []) : (row cells).toList = '|' :: closed cells := by
  have hclosed (first : String) (rest : List String) :
      ' ' :: (" | ".intercalate (first :: rest)).toList ++ " |".toList = closed (first :: rest) := by
    induction rest generalizing first with
    | nil => simp [closed, shown]
    | cons next rest ih =>
      rw [closed_cons, ← ih]
      simp [String.toList_intercalate]
  cases cells with
  | nil => exact absurd rfl h
  | cons first rest => simpa [row] using hclosed first rest

theorem ordinary_blank : Ordinary ' ' := by
  simp [Ordinary]

/-- A bar starts a new column. -/
theorem columns_bar (rest : List Char) : columns ('|' :: rest) = [] :: columns rest := by
  simp [columns, columnsFrom]

/-- The columns of a row are those of its cells. -/
theorem length_columns_closed (cells : List String) :
    (columns (closed cells)).length =
      (cells.map fun cell => (columns cell.toList).length).sum + 1 := by
  induction cells with
  | nil => rfl
  | cons cell rest ih =>
    have happend := length_columnsFrom_append ordinary_blank false cell.toList
      ('|' :: closed rest)
    rw [columns, columnsFrom_ordinary ordinary_blank, List.length_modifyHead, columns_bar,
      List.length_cons, ih] at happend
    rw [closed_cons, columns, columnsFrom_ordinary ordinary_blank, List.length_modifyHead,
      List.map_cons, List.sum_cons]
    unfold columns at happend ⊢
    omega

/-- The columns of plain cells are the cells. -/
theorem columns_closed (h : ∀ cell ∈ cells, Plain cell.toList) :
    columns (closed cells) = cells.map shown ++ [[]] := by
  induction cells with
  | nil => rfl
  | cons cell rest ih =>
    obtain ⟨hcell, hrest⟩ := List.forall_mem_cons.1 h
    have happend := columnsFrom_append ordinary_blank hcell.2 ('|' :: closed rest)
    rw [columns, columnsFrom_ordinary ordinary_blank, columns_bar, ih hrest] at happend
    rw [closed_cons, columns, columnsFrom_ordinary ordinary_blank, columns, happend]
    simp [shown]

/-- The bars of a row. -/
theorem separators_row (h : cells ≠ []) :
    separators (row cells) = (cells.map fun cell => (columns cell.toList).length).sum + 1 := by
  rw [separators, toList_row h, columns_bar, List.length_cons,
    length_columns_closed, Nat.add_sub_cancel]

/-- A row is one line if its cells are. -/
theorem oneLine_row_iff (h : cells ≠ []) :
    OneLine (row cells).toList ↔ ∀ cell ∈ cells, OneLine cell.toList := by
  rw [toList_row h]
  simp [OneLine, closed, shown, forall_and]

/-- Plain cells are separated as in the heading. -/
theorem separators_row_of_plain (hne : cells ≠ []) (h : ∀ cell ∈ cells, Plain cell.toList) :
    separators (row cells) = cells.length + 1 := by
  rw [separators_row hne, List.map_congr_left fun cell hcell => (h cell hcell).2]
  simp

/-- **A row keeps its columns if all its cells are plain**, under a heading that does. -/
theorem wellFormed_row_iff {headings : List String} (hne : headings ≠ [])
    (hheadings : ∀ h ∈ headings, Plain h.toList) (hlength : cells.length = headings.length) :
    WellFormed headings cells ↔ ∀ cell ∈ cells, Plain cell.toList := by
  have hcells : cells ≠ [] := by
    rintro rfl
    exact hne (List.length_eq_zero_iff.1 hlength.symm)
  rw [WellFormed, oneLine_row_iff hcells, separators_row_of_plain hne hheadings]
  constructor
  · rintro ⟨hlines, hseparators⟩ cell hcell
    refine ⟨hlines cell hcell, ?_⟩
    -- No cell has less than one column, so none can have more.
    rw [separators_row hcells, ← hlength, Nat.add_right_cancel_iff] at hseparators
    by_contra hmore
    have hsum : (cells.map fun _ => 1).sum <
        (cells.map fun cell => (columns cell.toList).length).sum :=
      List.sum_lt_sum _ _ (fun cell _ => length_columnsFrom_pos false cell.toList)
        ⟨cell, hcell, Nat.lt_of_le_of_ne (length_columnsFrom_pos false cell.toList)
          (Ne.symm hmore)⟩
    simp [hseparators] at hsum
  · intro hplain
    refine ⟨fun cell hcell => (hplain cell hcell).1, ?_⟩
    rw [separators_row_of_plain hcells hplain, hlength]

/-! ## The texts of a report -/

/-- A row of a table under its headings, with the texts that its cells are made of. -/
structure DataRow where
  /-- The headings of the table. -/
  headings : List String
  /-- The cells of the row. -/
  cells : List String
  /-- The texts taken from manifests, sources and paths. -/
  texts : List String

/-- The row of a dead dependency. -/
def dependencyRow (d : Dependency) : DataRow :=
  ⟨["Package", "Version", "Type"], dependencyCells d, [d.name, d.version]⟩

/-- The row of a dead statement. -/
def statementRow (s : DeadStatement) : DataRow :=
  ⟨["Location", "Names", "Kind", "Reason"], statementCells s, s.path.text :: s.kind :: s.names⟩

/-- The row of an unresolved import. -/
def unresolvedRow (i : UnresolvedFinding) : DataRow :=
  ⟨["Location", "Source", "Import", "Reason"], unresolvedCells i,
    [i.path.text, i.source, i.imported]⟩

/-- The rows of the tables of findings. -/
def dataRows (report : Report) : List DataRow :=
  report.deadDependencies.map dependencyRow ++ report.deadStatements.map statementRow
    ++ report.unresolvedImports.map unresolvedRow

/-- Marking as code leaves text plain. -/
theorem plain_code (text : String) : Plain (code text).toList ↔ Plain text.toList := by
  have htick : Ordinary '\x60' := by simp [Ordinary]
  simp only [code, String.toList_append]
  change Plain ('\x60' :: text.toList ++ ['\x60']) ↔ _
  rw [List.cons_append, plain_cons htick, plain_append htick]
  exact and_iff_left (by decide)

theorem plain_location (path : Path) (line : Nat) :
    Plain (code s!"{path.text}:{line}").toList ↔ Plain path.text.toList := by
  have hcolon : Ordinary ':' := by simp [Ordinary]
  have hdigits : Plain (':' :: (toString line).toList) := by
    refine (plain_cons hcolon).2 (plain_of_ordinary fun c hc => ?_)
    have hmem : c ∈ Nat.toDigits 10 line := by simpa using hc
    have hdigit : c.isDigit := Nat.isDigit_of_mem_toDigits (by decide) (by decide) hmem
    refine ⟨?_, ?_, ?_, ?_⟩ <;> rintro rfl <;> exact absurd hdigit (by decide)
  rw [plain_code]
  have htext : (s!"{path.text}:{line}").toList =
      path.text.toList ++ ':' :: (toString line).toList := by
    simp [toString]
  rw [htext, plain_append hcolon]
  exact and_iff_left hdigits

/-- A list is plain if its elements are. -/
theorem plain_intercalate (names : List String) :
    Plain (", ".intercalate names).toList ↔ ∀ name ∈ names, Plain name.toList := by
  have hcomma : Ordinary ',' := by simp [Ordinary]
  induction names with
  | nil => simp [show Plain [] by decide]
  | cons first rest ih =>
    cases rest with
    | nil => simp
    | cons next rest =>
      have htext : (", ".intercalate (first :: next :: rest)).toList =
          first.toList ++ ',' :: ' ' :: (", ".intercalate (next :: rest)).toList := by
        simp [String.toList_intercalate]
      rw [htext, plain_append hcomma, plain_cons hcomma, plain_cons ordinary_blank]
      rw [List.forall_mem_cons]
      exact and_congr_right fun _ => ih

theorem plain_kind_name (kind : DependencyKind) : Plain kind.name.toList := by
  cases kind <;> decide

theorem plain_deadReason_label (reason : DeadReason) : Plain reason.label.toList := by
  cases reason <;> decide

theorem plain_unresolvedReason_label (reason : UnresolvedReason) : Plain reason.label.toList := by
  cases reason <;> decide

/-- The cells of a row are plain if its texts are. -/
theorem plain_cells_iff {report : Report} {r : DataRow} (h : r ∈ report.dataRows) :
    (∀ cell ∈ r.cells, Plain cell.toList) ↔ ∀ text ∈ r.texts, Plain text.toList := by
  simp only [dataRows, List.mem_append, List.mem_map] at h
  obtain (⟨d, -, rfl⟩ | ⟨s, -, rfl⟩) | ⟨i, -, rfl⟩ := h
  · simp [dependencyRow, dependencyCells, plain_kind_name]
  · simp only [statementRow, statementCells, List.forall_mem_cons, plain_location,
      plain_intercalate, plain_deadReason_label]
    simp
    tauto
  · simp only [unresolvedRow, unresolvedCells, List.forall_mem_cons, plain_location,
      plain_code i.source, plain_unresolvedReason_label]
    simp

/-! ## Rows in the document -/

/-- A row stands in a table of a document, under its headings. -/
def Shows (lines : List String) (r : DataRow) : Prop :=
  ∃ above rows rows' below,
    lines = above ++ table r.headings (rows ++ r.cells :: rows') ++ below

section Shows

variable {lines : List String} {r : DataRow}

theorem Shows.append (h : Shows lines r) (more : List String) : Shows (lines ++ more) r := by
  obtain ⟨above, rows, rows', below, rfl⟩ := h
  exact ⟨above, rows, rows', below ++ more, List.append_assoc _ _ _⟩

theorem Shows.prepend (h : Shows lines r) (more : List String) : Shows (more ++ lines) r := by
  obtain ⟨above, rows, rows', below, rfl⟩ := h
  exact ⟨more ++ above, rows, rows', below, by simp only [List.append_assoc]⟩

/-- A table shows its rows. -/
theorem shows_part {α : Type} {items : List α} {item : α} (h : item ∈ items) (heading : String)
    (headings : List String) (cells : α → List String) (texts : List String) :
    Shows (part items.isEmpty heading (table headings (items.map cells)))
      ⟨headings, cells item, texts⟩ := by
  obtain ⟨before, after, rfl⟩ := List.append_of_mem h
  refine ⟨[heading, ""], before.map cells, after.map cells, [""], ?_⟩
  simp [part]

/-- **The report shows every row.** -/
theorem shows_markdown {report : Report} (h : r ∈ report.dataRows) :
    ∃ lines, report.markdown = unlines lines ∧ Shows lines r := by
  unfold markdown
  refine ⟨_, rfl, ?_⟩
  simp only [dataRows, List.mem_append, List.mem_map] at h
  obtain (⟨d, hd, rfl⟩ | ⟨s, hs, rfl⟩) | ⟨i, hi, rfl⟩ := h
  · have hpart := shows_part hd (counted "## Dead Dependencies" report.deadDependencies.length)
      ["Package", "Version", "Type"] dependencyCells [d.name, d.version]
    exact (((((hpart.prepend _).append _).append _).append _).append _).append _
  · have hpart := shows_part hs (counted "## Dead Statements" report.deadStatements.length)
      ["Location", "Names", "Kind", "Reason"] statementCells (s.path.text :: s.kind :: s.names)
    exact ((((hpart.prepend _).append _).append _).append _).append _
  · have hpart := shows_part hi "### Unresolved Imports" ["Location", "Source", "Import", "Reason"]
      unresolvedCells [i.path.text, i.source, i.imported]
    exact ((hpart.prepend _).append _).append _

end Shows

/-- **The rows that keep their columns.** A row stands in the table of its headings. It is one line
with as many separators as the headings exactly if its texts have no line break and no unescaped
`|`, and then its columns are its cells. -/
theorem wellFormed_dataRow_iff (report : Report) {r : DataRow} (h : r ∈ report.dataRows) :
    (∃ lines, report.markdown = unlines lines ∧ Shows lines r) ∧
    (WellFormed r.headings r.cells ↔ ∀ text ∈ r.texts, Plain text.toList) ∧
    (WellFormed r.headings r.cells →
      columns (row r.cells).toList = [] :: r.cells.map shown ++ [[]]) := by
  have hheadings : r.headings ≠ [] ∧ (∀ h ∈ r.headings, Plain h.toList) ∧
      r.cells.length = r.headings.length := by
    simp only [dataRows, List.mem_append, List.mem_map] at h
    obtain (⟨d, -, rfl⟩ | ⟨s, -, rfl⟩) | ⟨i, -, rfl⟩ := h
    · exact ⟨List.cons_ne_nil _ _,
        (by decide : ∀ h ∈ ["Package", "Version", "Type"], Plain h.toList), rfl⟩
    · exact ⟨List.cons_ne_nil _ _,
        (by decide : ∀ h ∈ ["Location", "Names", "Kind", "Reason"], Plain h.toList), rfl⟩
    · exact ⟨List.cons_ne_nil _ _,
        (by decide : ∀ h ∈ ["Location", "Source", "Import", "Reason"], Plain h.toList), rfl⟩
  obtain ⟨hne, hplain, hlength⟩ := hheadings
  have hiff := wellFormed_row_iff hne hplain hlength
  refine ⟨shows_markdown h, hiff.trans (plain_cells_iff h), fun hwell => ?_⟩
  have hcells : r.cells ≠ [] := by
    intro hnil
    rw [hnil] at hlength
    exact hne (List.length_eq_zero_iff.1 hlength.symm)
  rw [toList_row hcells, columns_bar, columns_closed (hiff.1 hwell), List.cons_append]

/-- A dependency with an escaped bar in its version. -/
def escapedBar : Report where
  deadDependencies := [⟨"react", "^17 \\|\\| ^18", .production⟩]

theorem wellFormed_dataRow_iff_escapedBar :
    let r := dependencyRow ⟨"react", "^17 \\|\\| ^18", .production⟩
    r ∈ escapedBar.dataRows ∧ WellFormed r.headings r.cells := by
  intro r
  have hmem : r ∈ escapedBar.dataRows := List.mem_singleton.2 rfl
  obtain ⟨-, hiff, -⟩ := wellFormed_dataRow_iff escapedBar hmem
  exact ⟨hmem, hiff.2 (by decide +kernel)⟩

/-- A range of versions is written with bars, and they are not escaped. -/
theorem not_wellFormed_versionRange :
    let report : Report := { deadDependencies := [⟨"react", "^17 || ^18", .production⟩] }
    let r := dependencyRow ⟨"react", "^17 || ^18", .production⟩
    r ∈ report.dataRows ∧ separators (row r.headings) = 4 ∧ separators (row r.cells) = 6 :=
  ⟨List.mem_singleton.2 rfl, by decide +kernel, by decide +kernel⟩

end DeadCode.Report
