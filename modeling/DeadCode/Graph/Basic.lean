import DeadCode.Path
import DeadCode.Scope.Tree
import DeadCode.Graph.Relation

/-! # Statement graphs

The vertices of a `StatementGraph` are the statements of one file, known by the kind and the range
of their node, and its edges are the relations between them. Vertices and edges are only ever added,
and neither is stored twice. An edge from a piece of syntax starts at the statement that encloses it
most tightly (`StatementGraph.findVertex?`). -/

namespace DeadCode

/-- One statement of a file. -/
structure Vertex where
  /-- The identity of the statement's node. -/
  key : Key
  /-- Where the statement starts. -/
  location : Location
  /-- The scope the statement appears in. -/
  scope : ScopeId
  /-- Whether the statement introduces bindings. -/
  isDeclaration : Bool := false
  /-- Whether the statement exposes something outside its file. -/
  isTerminal : Bool := false
deriving DecidableEq, Inhabited, Repr

namespace Vertex

/-- The byte range of a statement. -/
def span (vertex : Vertex) : Span :=
  vertex.key.span

/-- The kind and the location of a statement. -/
def render (vertex : Vertex) : String :=
  vertex.key.kind.name ++ " " ++ vertex.location.render

end Vertex

/-- A relation between two statements. -/
structure Edge where
  /-- The statement that refers. -/
  source : VertexId
  /-- The statement referred to. -/
  target : VertexId
  /-- How they are related. -/
  relation : Relation
deriving DecidableEq, Inhabited, Repr

/-- The index of an edge in the order of insertion. -/
abbrev EdgeId := Nat

/-- The ways in which an edge can lack an endpoint. -/
inductive GraphError where
  /-- No statement encloses that range. -/
  | missingEndpoint (span : Span)
  /-- There is no statement of that index. -/
  | unknownVertex (vertex : VertexId)
deriving DecidableEq, Inhabited, Repr

/-- The wording of a graph error. -/
def GraphError.message : GraphError → String
  | missingEndpoint span => "no statement vertex encloses range " ++ span.render
  | unknownVertex vertex => s!"unknown vertex {vertex}"

/-- The statements of one file and the relations between them. -/
structure StatementGraph where
  /-- The path of the file. -/
  path : Path
  /-- The statements by index. -/
  vertices : Array Vertex := #[]
  /-- The relations in the order of insertion. -/
  edges : Array Edge := #[]
deriving Inhabited, Repr

namespace StatementGraph

/-- The statement of an index. -/
def vertex? (graph : StatementGraph) (vertex : VertexId) : Option Vertex :=
  graph.vertices[vertex]?

/-- The index of the statement with exactly this identity. -/
def vertexByKey? (graph : StatementGraph) (key : Key) : Option VertexId :=
  graph.vertices.findIdx? (·.key = key)

/-- The graph with a statement added, and its index. A statement already there stays as it is. -/
def addVertex (graph : StatementGraph) (vertex : Vertex) : VertexId × StatementGraph :=
  match graph.vertexByKey? vertex.key with
  | some id => (id, graph)
  | none => (graph.vertices.size, { graph with vertices := graph.vertices.push vertex })

/-- The graph with an edge between two statements, and the index of the edge. An edge already there
is not added again. -/
def connect (graph : StatementGraph) (source target : VertexId) (relation : Relation) :
    Except GraphError (EdgeId × StatementGraph) :=
  if graph.vertices.size ≤ source then .error (.unknownVertex source)
  else if graph.vertices.size ≤ target then .error (.unknownVertex target)
  else
    match graph.edges.findIdx? (· = { source, target, relation }) with
    | some id => .ok (id, graph)
    | none =>
      .ok (graph.edges.size, { graph with edges := graph.edges.push { source, target, relation } })

/-! ## The enclosing statement -/

/-- The better of the best candidate so far and one more: a candidate has to contain the span and
to be strictly closer than those before it. -/
def closer (span : Span) (best : Option (VertexId × Nat)) (candidate : Vertex × VertexId) :
    Option (VertexId × Nat) :=
  if candidate.1.span.contains span then
    let distance := candidate.1.span.distance span
    match best with
    | none => some (candidate.2, distance)
    | some (_, least) => if distance < least then some (candidate.2, distance) else best
  else best

/-- The statement that encloses a range most tightly; of equals the one added first. -/
def findVertex? (graph : StatementGraph) (span : Span) : Option VertexId :=
  (graph.vertices.toList.zipIdx.foldl (closer span) none).map Prod.fst

/-- The graph with an edge between the statements that enclose two ranges. -/
def addEdge (graph : StatementGraph) (source target : Span) (relation : Relation) :
    Except GraphError (EdgeId × StatementGraph) :=
  match graph.findVertex? source with
  | none => .error (.missingEndpoint source)
  | some source =>
    match graph.findVertex? target with
    | none => .error (.missingEndpoint target)
    | some target => graph.connect source target relation

/-! ## Views -/

/-- The edges that leave a statement, newest first. -/
def outgoing (graph : StatementGraph) (vertex : VertexId) : List Edge :=
  (graph.edges.toList.filter (·.source = vertex)).reverse

/-- The edges that arrive at a statement, newest first. -/
def incoming (graph : StatementGraph) (vertex : VertexId) : List Edge :=
  (graph.edges.toList.filter (·.target = vertex)).reverse

/-- The edges at a statement: those that leave it, and then those that arrive from others. -/
def touching (graph : StatementGraph) (vertex : VertexId) : List Edge :=
  graph.outgoing vertex ++ (graph.incoming vertex).filter fun e => e.source ≠ e.target

/-- Whether some statement owns this one. -/
def isOwned (graph : StatementGraph) (vertex : VertexId) : Bool :=
  graph.edges.toList.any fun e => e.target = vertex && e.relation.kind = .decl

/-- The statements that no other statement owns. -/
def topLevel (graph : StatementGraph) : List VertexId :=
  (List.range graph.vertices.size).filter (!graph.isOwned ·)

end StatementGraph

end DeadCode
