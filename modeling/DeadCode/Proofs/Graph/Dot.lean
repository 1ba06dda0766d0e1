import DeadCode.Graph.Dot
import Mathlib.Data.List.Basic

/-! # Quoted texts of a drawing

In a drawing every path and every label stands in double quotes. Whoever reads it takes a quote as
the end of the text, and the character after a backslash as it is. The texts are written with a
backslash before each quote and each backslash, so that a reader comes out of the quotes exactly
where the writer did and has the text that was meant. -/

namespace DeadCode.Dot

variable {text rest : List Char}

/-! ## One text -/

/-- The text up to the closing quote, and what follows the quote. A backslash takes the next
character as it is. -/
def readText? : List Char → Option (List Char × List Char)
  | [] | ['\\'] => none
  | '"' :: rest => some ([], rest)
  | '\\' :: c :: rest => (readText? rest).map fun (text, after) => (c :: text, after)
  | c :: rest => (readText? rest).map fun (text, after) => (c :: text, after)

theorem readText?_plain {c : Char} (hquote : c ≠ '"') (hslash : c ≠ '\\') :
    readText? (c :: rest) = (readText? rest).map fun (text, after) => (c :: text, after) := by
  rw [readText?] <;> simp [hquote, hslash]

/-- Reading a text uses up input. -/
theorem length_lt_of_readText? {input after : List Char}
    (h : readText? input = some (text, after)) : after.length < input.length := by
  fun_induction readText? input generalizing text with
  | case1 | case2 => cases h
  | case3 rest => cases h; simp
  | case4 c rest ih | case5 c rest _ _ _ ih =>
    obtain ⟨⟨text', after'⟩, hread, heq⟩ := Option.map_eq_some_iff.1 h
    cases heq
    have := ih hread
    simp only [List.length_cons]
    omega

/-- **Reading undoes escaping**, and stops at the quote that closes the text. -/
theorem readText?_escape (text rest : List Char) :
    readText? (escape text ++ '"' :: rest) = some (text, rest) := by
  induction text with
  | nil => rfl
  | cons c text ih =>
    rw [escape]
    split
    · simp [readText?, ih]
    · next h =>
      obtain ⟨hquote, hslash⟩ : c ≠ '"' ∧ c ≠ '\\' := by simpa using h
      rw [List.cons_append, readText?_plain hquote hslash, ih]
      rfl

/-- Escaped texts tell the texts apart. -/
theorem escape_inj {text' : List Char} : escape text = escape text' ↔ text = text' := by
  refine ⟨fun h => ?_, congrArg escape⟩
  have hread := readText?_escape text []
  rw [h, readText?_escape] at hread
  exact (congrArg Prod.fst (Option.some.inj hread)).symm

/-- A text with another in place of each occurrence of a character. -/
def replaced (c : Char) (other : List Char) (text : List Char) : List Char :=
  text.flatMap fun d => if d = c then other else [d]

/-- **A text is escaped by two replacements**, that of the backslashes first: the other way round
the backslashes before the quotes would be escaped as well. -/
theorem escape_eq_replaced (text : List Char) :
    escape text = replaced '"' ['\\', '"'] (replaced '\\' ['\\', '\\'] text) := by
  induction text with
  | nil => rfl
  | cons c text ih =>
    rw [escape, ih]
    by_cases hslash : c = '\\'
    · subst hslash; simp [replaced]
    · by_cases hquote : c = '"' <;> simp [replaced, hslash, hquote]

example : readText? (replaced '\\' ['\\', '\\'] (replaced '"' ['\\', '"'] ['"']) ++ ['"']) =
    some (['\\'], ['"']) := by
  decide

/-! ## The texts of a document -/

/-- The texts in quotes of a document, in order. There are none if a quote is left open. -/
def quotedTexts? : List Char → Option (List String)
  | [] => some []
  | c :: rest =>
    if c = '"' then
      match _hread : readText? rest with
      | none => none
      | some (text, after) => (quotedTexts? after).map (String.ofList text :: ·)
    else quotedTexts? rest
termination_by input => input.length
decreasing_by
  · have := length_lt_of_readText? _hread
    simp only [List.length_cons]
    omega
  · simp

/-- A part of a document holds these texts in quotes, whatever comes after it. -/
def Holds (part : List Char) (texts : List String) : Prop :=
  ∀ rest, quotedTexts? (part ++ rest) = (quotedTexts? rest).map (texts ++ ·)

variable {part part' : List Char} {texts texts' : List String}

theorem Holds.append (h : Holds part texts) (h' : Holds part' texts') :
    Holds (part ++ part') (texts ++ texts') := by
  intro rest
  rw [List.append_assoc, h, h', Option.map_map]
  simp only [Function.comp_def, List.append_assoc]

theorem holds_of_notMem (h : '"' ∉ part) : Holds part [] := by
  intro rest
  induction part with
  | nil => simp
  | cons c part ih =>
    obtain ⟨hc, hpart⟩ := List.ne_and_not_mem_of_not_mem_cons h
    rw [List.cons_append, quotedTexts?, if_neg (Ne.symm hc), ih hpart]

theorem toList_quote (text : String) :
    (quote text).toList = '"' :: (escape text.toList ++ ['"']) := by
  simp [quote]

/-- A quoted text holds the text. -/
theorem holds_quote (text : String) : Holds (quote text).toList [text] := by
  intro rest
  rw [toList_quote, List.cons_append, List.append_assoc, quotedTexts?, if_pos rfl]
  simp only [List.cons_append, List.nil_append]
  split
  · next h => simp [readText?_escape] at h
  · next after h =>
    rw [readText?_escape] at h
    cases h
    simp

/-- The texts that are held are read back. -/
theorem Holds.quotedTexts? (h : Holds part texts) : quotedTexts? part = some texts := by
  simpa [Dot.quotedTexts?] using h []

/-! ## Lines -/

theorem holds_around {before text after : String} (hbefore : '"' ∉ before.toList)
    (hafter : '"' ∉ after.toList) : Holds (before ++ quote text ++ after).toList [text] := by
  rw [String.toList_append, String.toList_append]
  exact ((holds_of_notMem hbefore).append (holds_quote text)).append (holds_of_notMem hafter)

theorem toList_unlines_cons (line : String) (lines : List String) :
    (unlines (line :: lines)).toList = line.toList ++ (['\n'] ++ (unlines lines).toList) := by
  simp [unlines]

theorem Holds.cons_line {line : String} {lines : List String} (h : Holds line.toList texts)
    (h' : Holds (unlines lines).toList texts') :
    Holds (unlines (line :: lines)).toList (texts ++ texts') := by
  rw [toList_unlines_cons]
  exact h.append ((holds_of_notMem (by simp)).append h')

theorem Holds.append_lines {lines lines' : List String} (h : Holds (unlines lines).toList texts)
    (h' : Holds (unlines lines').toList texts') :
    Holds (unlines (lines ++ lines')).toList (texts ++ texts') := by
  rw [unlines, List.map_append, String.join_append, String.toList_append]
  exact h.append h'

/-- Lines hold what each of them holds. -/
theorem holds_flatMap_lines {α : Type} {lines : α → List String} {texts : α → List String}
    (h : ∀ x, Holds (unlines (lines x)).toList (texts x)) (xs : List α) :
    Holds (unlines (xs.flatMap lines)).toList (xs.flatMap texts) := by
  induction xs with
  | nil => exact holds_of_notMem (by simp [unlines])
  | cons x xs ih => exact (h x).append_lines ih

theorem holds_line {line : String} (h : Holds line.toList texts) :
    Holds (unlines [line]).toList texts := by
  have hnone : Holds (unlines []).toList [] := holds_of_notMem (by simp [unlines])
  simpa using h.cons_line hnone

theorem holds_map_lines {α : Type} {line : α → String} {text : α → String}
    (h : ∀ x, Holds (line x).toList [text x]) (xs : List α) :
    Holds (unlines (xs.map line)).toList (xs.map text) := by
  rw [List.map_eq_flatMap, List.map_eq_flatMap]
  exact holds_flatMap_lines (fun x => holds_line (h x)) xs

/-! ## Drawings -/

theorem notMem_toDigits (n : Nat) : '"' ∉ Nat.toDigits 10 n := by
  intro h
  have hdigit : '"'.isDigit := Nat.isDigit_of_mem_toDigits (by decide) (by decide) h
  exact absurd hdigit (by decide)

theorem notMem_nodeName (file : Nat) (vertex : VertexId) : '"' ∉ (nodeName file vertex).toList := by
  simp [nodeName, toString, notMem_toDigits]

/-- The texts of one file's cluster: its path, its statements and how they are related. -/
def clusterTexts (graph : StatementGraph) : List String :=
  graph.path.text :: (graph.vertices.toList.map Vertex.render
    ++ graph.edges.toList.map (·.relation.render))

/-- The texts of a drawing of several files, in the order in which they are drawn. -/
def drawnTexts (graphs : List StatementGraph) (cross : List DashedEdge) : List String :=
  graphs.flatMap clusterTexts ++ cross.map (·.label)

/-- A cluster holds its labels. -/
theorem holds_cluster (file : Nat) (graph : StatementGraph) :
    Holds (unlines (cluster file graph)).toList (clusterTexts graph) := by
  have hopening : '"' ∉ (s!"    subgraph cluster_{file} \x7b").toList := by
    simp [toString, notMem_toDigits]
  have hpath : Holds ("        label = " ++ quote graph.path.text ++ ";").toList
      [graph.path.text] :=
    holds_around (by decide) (by decide)
  have hvertex (entry : Vertex × VertexId) :
      Holds ("        " ++ nodeName file entry.2 ++ " [label=" ++ quote entry.1.render
        ++ "];").toList [entry.1.render] :=
    holds_around (by simp [notMem_nodeName]) (by decide)
  have hedge (edge : Edge) :
      Holds ("        " ++ nodeName file edge.source ++ " -> " ++ nodeName file edge.target
        ++ " [label=" ++ quote edge.relation.render ++ "];").toList [edge.relation.render] :=
    holds_around (by simp [notMem_nodeName]) (by decide)
  have hclosing : Holds "    \x7d".toList [] := holds_of_notMem (by decide)
  have hlines := ((((holds_of_notMem hopening).cons_line (holds_line hpath)).append_lines
    (holds_map_lines hvertex graph.vertices.toList.zipIdx)).append_lines
    (holds_map_lines hedge graph.edges.toList)).append_lines (holds_line hclosing)
  have htexts : graph.vertices.toList.zipIdx.map (·.1.render)
      = (graph.vertices.toList.zipIdx.map Prod.fst).map Vertex.render := by
    rw [List.map_map]
    rfl
  rw [htexts, List.zipIdx_map_fst, List.append_nil] at hlines
  exact hlines

theorem holds_dashedLine (edge : DashedEdge) : Holds (dashedLine edge).toList [edge.label] :=
  holds_around (by simp [notMem_nodeName]) (by decide)

/-- The graph of a project holds its labels. -/
theorem holds_project (graphs : List StatementGraph) (cross : List DashedEdge) :
    Holds (project graphs cross).toList (drawnTexts graphs cross) := by
  have hopening : Holds "digraph project \x7b".toList [] := holds_of_notMem (by decide)
  have hclosing : Holds "\x7d".toList [] := holds_of_notMem (by decide)
  have hlines := (((holds_line hopening).append_lines (holds_flatMap_lines
    (fun entry : StatementGraph × Nat => holds_cluster entry.2 entry.1) graphs.zipIdx)).append_lines
    (holds_map_lines holds_dashedLine cross)).append_lines (holds_line hclosing)
  have htexts : graphs.zipIdx.flatMap (clusterTexts ·.1) = graphs.flatMap clusterTexts := by
    rw [← List.flatMap_map, List.zipIdx_map_fst]
  rw [htexts, List.append_nil] at hlines
  exact hlines

theorem toList_toDot (graph : StatementGraph) :
    ∃ body, graph.toDot.toList =
      "digraph \"".toList ++ (escape graph.path.text.toList ++ '"' :: (" \x7b\n".toList ++ body)) := by
  obtain ⟨lines, hlines⟩ : ∃ lines, graph.toDot =
      unlines (("digraph " ++ quote graph.path.text ++ " \x7b") :: lines) := ⟨_, rfl⟩
  refine ⟨(unlines lines).toList, ?_⟩
  rw [hlines, toList_unlines_cons, String.toList_append, String.toList_append, toList_quote]
  simp only [List.append_assoc, List.cons_append, List.nil_append]
  rfl

/-- Graphs that are drawn alike have one path. -/
theorem path_eq_of_toDot_eq {graph graph' : StatementGraph} (h : graph.toDot = graph'.toDot) :
    graph.path.text = graph'.path.text := by
  obtain ⟨body, htext⟩ := toList_toDot graph
  obtain ⟨body', htext'⟩ := toList_toDot graph'
  rw [h, htext'] at htext
  have hread := congrArg readText? (List.append_cancel_left htext)
  rw [readText?_escape, readText?_escape] at hread
  exact (String.toList_injective (congrArg Prod.fst (Option.some.inj hread))).symm

/-- **All labels are read back from the drawing.** -/
theorem quotedTexts?_project (graphs : List StatementGraph) (cross : List DashedEdge) :
    quotedTexts? (project graphs cross).toList = some (drawnTexts graphs cross) :=
  (holds_project graphs cross).quotedTexts?

/-- **Quoted texts are read as they were meant.** Reading an escaped text stops at the quote that
closes it and gives the text, so no two texts are escaped alike. In the drawing of one file what is
read after the first quote is its path, and in a drawing of several files the texts in quotes are
the paths and labels drawn, in their order. So drawings of distinct texts are distinct. -/
theorem quoting_roundtrips :
    (∀ text rest, readText? (escape text ++ '"' :: rest) = some (text, rest)) ∧
      (∀ text text', escape text = escape text' ↔ text = text') ∧
      (∀ text, escape text = replaced '"' ['\\', '"'] (replaced '\\' ['\\', '\\'] text)) ∧
      (∀ graph : StatementGraph, ∃ quoted after, graph.toDot.toList = "digraph \"".toList ++ quoted ∧
        readText? quoted = some (graph.path.text.toList, " \x7b\n".toList ++ after)) ∧
      (∀ graphs cross, quotedTexts? (project graphs cross).toList =
        some (drawnTexts graphs cross)) ∧
      (∀ graph graph' : StatementGraph, graph.path.text ≠ graph'.path.text →
        graph.toDot ≠ graph'.toDot) ∧
      ∀ graphs graphs' cross cross', drawnTexts graphs cross ≠ drawnTexts graphs' cross' →
        project graphs cross ≠ project graphs' cross' := by
  refine ⟨readText?_escape, fun _ _ => escape_inj, escape_eq_replaced, fun graph => ?_,
    quotedTexts?_project, fun graph graph' hne h => hne (path_eq_of_toDot_eq h),
    fun graphs graphs' cross cross' hne h => hne ?_⟩
  · obtain ⟨body, htext⟩ := toList_toDot graph
    exact ⟨_, body, htext, readText?_escape _ _⟩
  · have hread := quotedTexts?_project graphs cross
    rw [h, quotedTexts?_project] at hread
    exact (Option.some.inj hread).symm

/-- A graph of a file whose path ends in a backslash, and one where a quote follows. -/
theorem quoting_roundtrips_backslashAndQuote :
    (⟨"/a\\"⟩ : Path).text ≠ (⟨"/a\\\""⟩ : Path).text ∧
      StatementGraph.toDot { path := ⟨"/a\\"⟩ } ≠ StatementGraph.toDot { path := ⟨"/a\\\""⟩ } ∧
      quotedTexts? (project [{ path := ⟨"/a\\"⟩ }, { path := ⟨"/a\\\""⟩ }]
        [⟨0, 0, 1, 0, "READ \""⟩]).toList = some ["/a\\", "/a\\\"", "READ \""] := by
  obtain ⟨-, -, -, -, htexts, hgraph, -⟩ := quoting_roundtrips
  have hne : (⟨"/a\\"⟩ : Path).text ≠ (⟨"/a\\\""⟩ : Path).text := by decide
  exact ⟨hne, hgraph { path := ⟨"/a\\"⟩ } { path := ⟨"/a\\\""⟩ } hne, htexts _ _⟩

end DeadCode.Dot
