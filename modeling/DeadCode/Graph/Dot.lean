import DeadCode.Lines
import DeadCode.Graph.Basic

/-! # Statement graphs in the DOT language

A graph of one file is drawn on its own (`StatementGraph.toDot`), or the graphs of several files as
clusters of one drawing with dashed edges between them (`Dot.project`). Texts stand in double
quotes, with a backslash before each quote and each backslash. -/

namespace DeadCode

namespace Dot

/-- A text with a backslash before each quote and backslash. -/
def escape : List Char → List Char
  | [] => []
  | c :: rest => if c = '"' || c = '\\' then '\\' :: c :: escape rest else c :: escape rest

/-- A label with a backslash before each quote and backslash, and with line feeds written as line
breaks that leave the text at the left. -/
def escapeLabel : List Char → List Char
  | [] => []
  | c :: rest =>
    if c = '"' || c = '\\' then '\\' :: c :: escapeLabel rest
    else if c = '\n' then '\\' :: 'l' :: escapeLabel rest
    else c :: escapeLabel rest

/-- A text in double quotes. -/
def quote (text : String) : String :=
  "\"" ++ String.ofList (escape text.toList) ++ "\""

/-- A label in double quotes. -/
def quoteLabel (text : String) : String :=
  "\"" ++ String.ofList (escapeLabel text.toList) ++ "\""

/-- An edge between statements of two files, as it is drawn. -/
structure DashedEdge where
  /-- The file of the statement that refers. -/
  sourceFile : Nat
  /-- The statement that refers. -/
  sourceVertex : VertexId
  /-- The file of the statement referred to. -/
  targetFile : Nat
  /-- The statement referred to. -/
  targetVertex : VertexId
  /-- The label of the edge. -/
  label : String
deriving DecidableEq, Inhabited, Repr

/-- The name of a statement in a drawing of several files. -/
def nodeName (file : Nat) (vertex : VertexId) : String :=
  s!"f{file}_{vertex}"

/-- The lines of one file's cluster. -/
def cluster (file : Nat) (graph : StatementGraph) : List String :=
  [s!"    subgraph cluster_{file} \x7b", s!"        label = " ++ quote graph.path.text ++ ";"]
    ++ (graph.vertices.toList.zipIdx.map fun (vertex, id) =>
      "        " ++ nodeName file id ++ " [label=" ++ quote vertex.render ++ "];")
    ++ (graph.edges.toList.map fun edge =>
      "        " ++ nodeName file edge.source ++ " -> " ++ nodeName file edge.target
        ++ " [label=" ++ quote edge.relation.render ++ "];")
    ++ ["    \x7d"]

/-- The line of an edge between two files. -/
def dashedLine (edge : DashedEdge) : String :=
  "    " ++ nodeName edge.sourceFile edge.sourceVertex ++ " -> "
    ++ nodeName edge.targetFile edge.targetVertex ++ " [label=" ++ quote edge.label
    ++ ", style=dashed];"

/-- A drawing of several files and of the edges between them. -/
def project (graphs : List StatementGraph) (cross : List DashedEdge) : String :=
  unlines <|
    ["digraph project \x7b"]
      ++ (graphs.zipIdx.flatMap fun (graph, file) => cluster file graph)
      ++ cross.map dashedLine
      ++ ["\x7d"]

end Dot

namespace StatementGraph

/-- A drawing of the graph of one file. -/
def toDot (graph : StatementGraph) : String :=
  unlines <|
    ["digraph " ++ Dot.quote graph.path.text ++ " \x7b"]
      ++ (graph.vertices.toList.zipIdx.map fun (vertex, id) =>
        s!"    {id} [ label = " ++ Dot.quoteLabel vertex.render ++ " ]")
      ++ (graph.edges.toList.map fun edge =>
        s!"    {edge.source} -> {edge.target} [ label = " ++ Dot.quoteLabel edge.relation.render
          ++ " ]")
      ++ ["\x7d"]

end StatementGraph

end DeadCode
