import DeadCode.Proofs.Graph.Basic
import Mathlib.Data.List.Nodup
import Mathlib.Logic.Function.Basic

/-! # Graphs and their indexes

A graph is made by calls that add a statement, connect two statements, or relate two ranges. It can
be kept with two indexes, from identities to statements and from edges to their places, which the
calls look things up in. However the calls are mixed, and whatever their arguments, the indexes stay
the inverses of what is stored. -/

namespace DeadCode

/-- Where the keys of the items of an array are distinct, searching for a key inverts the array. -/
theorem findIdx?_eq_some_iff_of_nodup {α β : Type} [DecidableEq β] {f : α → β} {items : Array α}
    (h : (items.toList.map f).Nodup) {key : β} {i : Nat} :
    items.findIdx? (f · = key) = some i ↔ ∃ x, items[i]? = some x ∧ f x = key := by
  rw [Array.findIdx?_eq_some_iff_getElem]
  constructor
  · rintro ⟨hlt, hkey, -⟩
    exact ⟨items[i], Array.getElem?_eq_getElem hlt, of_decide_eq_true hkey⟩
  · rintro ⟨x, hx, rfl⟩
    obtain ⟨hlt, rfl⟩ := Array.getElem?_eq_some_iff.1 hx
    refine ⟨hlt, decide_eq_true rfl, fun j hj hsame => ?_⟩
    -- An earlier item of the same key would be the same item.
    have hi : i < (items.toList.map f).length := by simpa using hlt
    have hj' : j < (items.toList.map f).length := Nat.lt_trans hj hi
    have heq : (items.toList.map f)[j] = (items.toList.map f)[i] := by
      simpa using of_decide_eq_true hsame
    exact absurd (h.getElem_inj_iff.1 heq) (Nat.ne_of_lt hj)

namespace StatementGraph

/-! ## Calls -/

/-- A call that adds to a graph. -/
inductive Call where
  /-- Adds a statement. -/
  | addVertex (vertex : Vertex)
  /-- Relates the statements around two ranges. -/
  | addEdge (source target : Span) (relation : Relation)
  /-- Relates two statements. -/
  | connect (source target : VertexId) (relation : Relation)
deriving DecidableEq, Repr

/-- The place of an edge. -/
def edgeId? (graph : StatementGraph) (e : Edge) : Option EdgeId :=
  graph.edges.findIdx? (· = e)

/-- The answer of a call that may fail, and the graph after it. -/
def settle (graph : StatementGraph) :
    Except GraphError (EdgeId × StatementGraph) → Except GraphError Nat × StatementGraph
  | .error e => (.error e, graph)
  | .ok (id, graph') => (.ok id, graph')

/-- The answer of a call, and the graph after it. -/
def perform (graph : StatementGraph) : Call → Except GraphError Nat × StatementGraph
  | .addVertex vertex => (.ok (graph.addVertex vertex).1, (graph.addVertex vertex).2)
  | .addEdge source target relation => graph.settle (graph.addEdge source target relation)
  | .connect source target relation => graph.settle (graph.connect source target relation)

/-- The graph after some calls. -/
def performAll (graph : StatementGraph) (calls : List Call) : StatementGraph :=
  calls.foldl (fun graph call => (graph.perform call).2) graph

/-- The edge that a call stores, as far as both its ends are known. -/
def edgeOf? (graph : StatementGraph) : Call → Option Edge
  | .addVertex _ => none
  | .addEdge source target relation =>
    (graph.findVertex? source).bind fun source =>
      (graph.findVertex? target).map fun target => { source, target, relation }
  | .connect source target relation =>
    if source < graph.vertices.size ∧ target < graph.vertices.size then
      some { source, target, relation }
    else none

/-- **What a call can do**: it fails, finds what it would add, or adds it at the end. -/
inductive Effect (graph : StatementGraph) :
    Call → Except GraphError Nat × StatementGraph → Prop where
  | refused {call : Call} {e : GraphError} (hcall : ∀ x, call ≠ .addVertex x)
      (hedge : graph.edgeOf? call = none) :
      Effect graph call (.error e, graph)
  | knownVertex {x : Vertex} {v : VertexId} (h : graph.vertexByKey? x.key = some v) :
      Effect graph (.addVertex x) (.ok v, graph)
  | newVertex {x : Vertex} (h : graph.vertexByKey? x.key = none) :
      Effect graph (.addVertex x)
        (.ok graph.vertices.size, { graph with vertices := graph.vertices.push x })
  | knownEdge {call : Call} {e : Edge} {id : EdgeId} (hedge : graph.edgeOf? call = some e)
      (h : graph.edgeId? e = some id) : Effect graph call (.ok id, graph)
  | newEdge {call : Call} {e : Edge} (hedge : graph.edgeOf? call = some e)
      (hsource : e.source < graph.vertices.size) (htarget : e.target < graph.vertices.size)
      (h : graph.edgeId? e = none) :
      Effect graph call (.ok graph.edges.size, { graph with edges := graph.edges.push e })

variable {graph graph' : StatementGraph} {call : Call}
  {result : Except GraphError Nat × StatementGraph}

/-- What connecting does, whichever call asks for it. -/
theorem effect_connect {source target : VertexId} {relation : Relation}
    (hcall : ∀ x, call ≠ .addVertex x)
    (hedge : source < graph.vertices.size → target < graph.vertices.size →
      graph.edgeOf? call = some { source, target, relation })
    (hnone : ¬ (source < graph.vertices.size ∧ target < graph.vertices.size) →
      graph.edgeOf? call = none) :
    Effect graph call (graph.settle (graph.connect source target relation)) := by
  unfold connect
  split
  · next hs => exact .refused hcall (hnone fun h => Nat.not_lt.2 hs h.1)
  · next hs =>
    split
    · next ht => exact .refused hcall (hnone fun h => Nat.not_lt.2 ht h.2)
    · next ht =>
      have hs' := Nat.lt_of_not_le hs
      have ht' := Nat.lt_of_not_le ht
      split
      · next hid => exact .knownEdge (hedge hs' ht') hid
      · next hid => exact .newEdge (hedge hs' ht') hs' ht' hid

/-- **Every call has one of these effects.** -/
theorem effect_perform (graph : StatementGraph) (call : Call) :
    Effect graph call (graph.perform call) := by
  cases call with
  | addVertex x =>
    rw [perform, addVertex]
    split
    · next hv => exact .knownVertex hv
    · next hnone => exact .newVertex hnone
  | addEdge source target relation =>
    have hcall (x : Vertex) : Call.addEdge source target relation ≠ .addVertex x := by simp
    rw [perform, addEdge]
    split
    · next hs => exact .refused hcall (by simp [edgeOf?, hs])
    · next u hu =>
      split
      · next ht => exact .refused hcall (by simp [edgeOf?, ht])
      · next w hw =>
        obtain ⟨_, hu', -⟩ := exists_of_findVertex? hu
        obtain ⟨_, hw', -⟩ := exists_of_findVertex? hw
        refine effect_connect hcall (fun _ _ => by simp [edgeOf?, hu, hw]) fun hnot => ?_
        exact absurd ⟨lt_size_of_vertex? hu', lt_size_of_vertex? hw'⟩ hnot
  | connect source target relation =>
    exact effect_connect (by simp) (fun hs ht => if_pos ⟨hs, ht⟩) fun hnot => if_neg hnot

/-! ## What calls keep -/

/-- Distinct statements, and distinct edges between them. -/
structure Distinct (graph : StatementGraph) : Prop where
  /-- No two statements have the same identity. -/
  keys : (graph.vertices.toList.map (·.key)).Nodup
  /-- No edge is stored twice. -/
  edges : graph.edges.toList.Nodup
  /-- Edges start and end at statements that exist. -/
  ends : ∀ e ∈ graph.edges, e.source < graph.vertices.size ∧ e.target < graph.vertices.size

theorem distinct_empty (path : Path) : Distinct { path } where
  keys := List.nodup_nil
  edges := List.nodup_nil
  ends := by simp

/-- Calls keep statements and edges distinct. -/
theorem Distinct.effect (h : graph.Distinct) (heffect : Effect graph call result) :
    result.2.Distinct := by
  cases heffect with
  | refused | knownVertex | knownEdge => exact h
  | @newVertex x hnone =>
    refine ⟨?_, h.edges, fun e he => ?_⟩
    · rw [Array.toList_push, List.map_append, List.map_singleton, ← List.concat_eq_append]
      refine h.keys.concat fun hmem => ?_
      obtain ⟨y, hy, hkey⟩ := List.mem_map.1 hmem
      have hall := Array.findIdx?_eq_none_iff.1 hnone y (Array.mem_toList_iff.1 hy)
      simp [hkey] at hall
    · obtain ⟨hs, ht⟩ := h.ends e he
      simp only [Array.size_push]
      exact ⟨Nat.lt_succ_of_lt hs, Nat.lt_succ_of_lt ht⟩
  | @newEdge _ e hedge hs ht hnone =>
    refine ⟨h.keys, ?_, fun e' he' => ?_⟩
    · rw [Array.toList_push, ← List.concat_eq_append]
      refine h.edges.concat fun hmem => ?_
      have hall := Array.findIdx?_eq_none_iff.1 hnone e (Array.mem_toList_iff.1 hmem)
      simp at hall
    · rcases Array.mem_push.1 he' with he' | rfl
      · exact h.ends e' he'
      · exact ⟨hs, ht⟩

/-- **The identity of a statement and its place determine each other.** -/
theorem Distinct.vertexByKey?_eq_some_iff (h : graph.Distinct) {key : Key} {v : VertexId} :
    graph.vertexByKey? key = some v ↔ ∃ x, graph.vertex? v = some x ∧ x.key = key :=
  findIdx?_eq_some_iff_of_nodup h.keys

/-- **An edge and its place determine each other.** -/
theorem Distinct.edgeId?_eq_some_iff (h : graph.Distinct) {e : Edge} {id : EdgeId} :
    graph.edgeId? e = some id ↔ graph.edges[id]? = some e := by
  have hnodup : (graph.edges.toList.map fun e => e).Nodup := by simpa using h.edges
  rw [edgeId?, findIdx?_eq_some_iff_of_nodup hnodup]
  simp

/-- One graph is another with statements and edges appended: what was there keeps its place. -/
structure Appended (graph graph' : StatementGraph) : Prop where
  path : graph'.path = graph.path
  vertices : graph.vertices.toList <+: graph'.vertices.toList
  edges : graph.edges.toList <+: graph'.edges.toList

namespace Appended

theorem refl (graph : StatementGraph) : graph.Appended graph :=
  ⟨rfl, List.prefix_rfl, List.prefix_rfl⟩

theorem trans {graph'' : StatementGraph} (h : graph.Appended graph')
    (h' : graph'.Appended graph'') : graph.Appended graph'' :=
  ⟨h'.path.trans h.path, h.vertices.trans h'.vertices, h.edges.trans h'.edges⟩

theorem vertex? (h : graph.Appended graph') {v : VertexId} {x : Vertex}
    (hx : graph.vertex? v = some x) : graph'.vertex? v = some x := by
  rw [StatementGraph.vertex?, ← Array.getElem?_toList] at hx ⊢
  obtain ⟨hlt, rfl⟩ := List.getElem?_eq_some_iff.1 hx
  exact List.prefix_iff_getElem?.1 h.vertices v hlt

theorem edge (h : graph.Appended graph') {id : EdgeId} {e : Edge} (he : graph.edges[id]? = some e) :
    graph'.edges[id]? = some e := by
  rw [← Array.getElem?_toList] at he ⊢
  obtain ⟨hlt, rfl⟩ := List.getElem?_eq_some_iff.1 he
  exact List.prefix_iff_getElem?.1 h.edges id hlt

theorem size_le (h : graph.Appended graph') : graph.vertices.size ≤ graph'.vertices.size := by
  simpa using h.vertices.length_le

/-- Calls only append. -/
theorem effect (h : Effect graph call result) : graph.Appended result.2 := by
  cases h with
  | refused | knownVertex | knownEdge => exact refl graph
  | newVertex => exact ⟨rfl, by simp, List.prefix_rfl⟩
  | newEdge => exact ⟨rfl, List.prefix_rfl, by simp⟩

end Appended

/-! ## Calls that are repeated -/

/-- What a call adds is stored at a place. -/
def Stores (graph : StatementGraph) (id : Nat) : Call → Prop
  | .addVertex x => ∃ y, graph.vertex? id = some y ∧ y.key = x.key
  | call => ∃ e, graph.edgeOf? call = some e ∧ graph.edges[id]? = some e

/-- The ranges of a call lie in the same statements of two graphs. -/
def Call.Agrees (graph graph' : StatementGraph) : Call → Prop
  | .addEdge source target _ =>
    graph'.findVertex? source = graph.findVertex? source ∧
      graph'.findVertex? target = graph.findVertex? target
  | _ => True

/-- A call whose edge is there is stored. -/
theorem stores_of_edge {id : Nat} {e : Edge} (hedge : graph.edgeOf? call = some e)
    (he : graph.edges[id]? = some e) : graph.Stores id call := by
  cases call with
  | addVertex => cases hedge
  | addEdge | connect => exact ⟨e, hedge, he⟩

/-- Edges do not matter for what a call asks. -/
theorem edgeOf?_push (graph : StatementGraph) (e : Edge) (call : Call) :
    edgeOf? { graph with edges := graph.edges.push e } call = graph.edgeOf? call := by
  cases call <;> rfl

/-- **A call that succeeds answers with the place of what it adds.** -/
theorem Effect.stores (hdistinct : graph.Distinct) (h : Effect graph call result) {id : Nat}
    (hok : result.1 = .ok id) : result.2.Stores id call := by
  cases h with
  | refused => cases hok
  | knownVertex hv =>
    cases hok
    exact hdistinct.vertexByKey?_eq_some_iff.1 hv
  | @newVertex x hnone =>
    cases hok
    exact ⟨x, Array.getElem?_push_size, rfl⟩
  | knownEdge hedge hid =>
    cases hok
    exact stores_of_edge hedge (hdistinct.edgeId?_eq_some_iff.1 hid)
  | @newEdge _ e hedge =>
    cases hok
    exact stores_of_edge ((edgeOf?_push graph e call).trans hedge) Array.getElem?_push_size

/-- **A call whose addition is stored finds it, and changes nothing.** -/
theorem Distinct.perform_eq (h : graph.Distinct) {id : Nat} (hstores : graph.Stores id call) :
    graph.perform call = (.ok id, graph) := by
  have hperform := effect_perform graph call
  generalize graph.perform call = result at hperform
  have hedge {e : Edge} {id' : Nat} (he : graph.edges[id]? = some e)
      (hid : graph.edgeId? e = some id') : id' = id :=
    Option.some.inj (hid.symm.trans (h.edgeId?_eq_some_iff.2 he))
  cases hperform with
  | refused hcall hnone =>
    cases call with
    | addVertex x => exact absurd rfl (hcall x)
    | addEdge | connect =>
      obtain ⟨e, hsome, -⟩ := hstores
      rw [hnone] at hsome
      cases hsome
  | knownVertex hv => rw [Option.some.inj (hv.symm.trans (h.vertexByKey?_eq_some_iff.2 hstores))]
  | newVertex hnone =>
    rw [h.vertexByKey?_eq_some_iff.2 hstores] at hnone
    cases hnone
  | knownEdge hsome hid =>
    cases call with
    | addVertex => cases hsome
    | addEdge | connect =>
      obtain ⟨e, hsome', he⟩ := hstores
      obtain rfl := Option.some.inj (hsome.symm.trans hsome')
      rw [hedge he hid]
  | newEdge hsome _ _ hnone =>
    cases call with
    | addVertex => cases hsome
    | addEdge | connect =>
      obtain ⟨e, hsome', he⟩ := hstores
      obtain rfl := Option.some.inj (hsome.symm.trans hsome')
      rw [h.edgeId?_eq_some_iff.2 he] at hnone
      cases hnone

/-- What is stored stays stored. -/
theorem Stores.appended {id : Nat} (h : graph.Stores id call) (happended : graph.Appended graph')
    (hagrees : call.Agrees graph graph') : graph'.Stores id call := by
  cases call with
  | addVertex x =>
    obtain ⟨y, hy, hkey⟩ := h
    exact ⟨y, happended.vertex? hy, hkey⟩
  | addEdge source target relation =>
    obtain ⟨e, hedge, he⟩ := h
    refine ⟨e, ?_, happended.edge he⟩
    rw [← hedge]
    simp only [edgeOf?, hagrees.1, hagrees.2]
  | connect source target relation =>
    obtain ⟨e, hedge, he⟩ := h
    refine ⟨e, ?_, happended.edge he⟩
    simp only [edgeOf?, Option.ite_none_right_eq_some] at hedge ⊢
    obtain ⟨⟨hs, ht⟩, hsame⟩ := hedge
    have hsize := happended.size_le
    exact ⟨⟨Nat.lt_of_lt_of_le hs hsize, Nat.lt_of_lt_of_le ht hsize⟩, hsame⟩

/-! ## Sequences of calls -/

theorem Distinct.performAll (h : graph.Distinct) (calls : List Call) :
    (graph.performAll calls).Distinct := by
  induction calls generalizing graph with
  | nil => exact h
  | cons call rest ih => exact ih (h.effect (effect_perform graph call))

/-- Calls one after another only append. -/
theorem appended_performAll (graph : StatementGraph) (calls : List Call) :
    graph.Appended (graph.performAll calls) := by
  induction calls generalizing graph with
  | nil => exact .refl graph
  | cons call rest ih => exact (Appended.effect (effect_perform graph call)).trans (ih _)

end StatementGraph

/-! ## Graphs with indexes -/

/-- A graph with an index from identities to statements and one from edges to their places. -/
structure GraphTable where
  /-- What is stored. -/
  graph : StatementGraph
  /-- The statement of an identity. -/
  vertexIndex : Key → Option VertexId := fun _ => none
  /-- The place of an edge. -/
  edgeIndex : Edge → Option EdgeId := fun _ => none

namespace GraphTable

open StatementGraph

/-- An operation on a table. What was done before an error stays done. -/
abbrev Operation (α : Type) :=
  ExceptT GraphError (StateM GraphTable) α

/-- Adds a statement, unless the index knows its identity. -/
def addVertex (x : Vertex) : Operation VertexId := do
  match (← get).vertexIndex x.key with
  | some v => return v
  | none =>
    let v := (← get).graph.vertices.size
    modify fun table =>
      { table with graph := { table.graph with vertices := table.graph.vertices.push x } }
    modify fun table =>
      { table with vertexIndex := Function.update table.vertexIndex x.key (some v) }
    return v

/-- Fails unless a statement exists. -/
def checkVertex (v : VertexId) : Operation Unit := do
  if (← get).graph.vertices.size ≤ v then throw (.unknownVertex v)

/-- Adds an edge between existing statements, unless the index knows it. -/
def connect (source target : VertexId) (relation : Relation) : Operation EdgeId := do
  checkVertex source
  checkVertex target
  let e : Edge := { source, target, relation }
  match (← get).edgeIndex e with
  | some id => return id
  | none =>
    let id := (← get).graph.edges.size
    modify fun table =>
      { table with graph := { table.graph with edges := table.graph.edges.push e } }
    modify fun table => { table with edgeIndex := Function.update table.edgeIndex e (some id) }
    return id

/-- The statement around a range. -/
def vertexAround (span : Span) : Operation VertexId := do
  match (← get).graph.findVertex? span with
  | some v => return v
  | none => throw (.missingEndpoint span)

/-- Adds an edge between the statements around two ranges. -/
def addEdge (source target : Span) (relation : Relation) : Operation EdgeId := do
  let u ← vertexAround source
  let v ← vertexAround target
  connect u v relation

/-- Performs a call. -/
def perform : Call → Operation Nat
  | .addVertex x => addVertex x
  | .addEdge source target relation => addEdge source target relation
  | .connect source target relation => connect source target relation

/-- The answer of a call, and the table after it. -/
def answer (table : GraphTable) (call : Call) : Except GraphError Nat × GraphTable :=
  (perform call).run.run table

/-- The table after some calls. -/
def answerAll (table : GraphTable) (calls : List Call) : GraphTable :=
  calls.foldl (fun table call => (table.answer call).2) table

/-- The indexes are the inverses of what is stored. -/
structure InStep (table : GraphTable) : Prop where
  vertices : table.vertexIndex = table.graph.vertexByKey?
  edges : table.edgeIndex = table.graph.edgeId?

/-- The tables are in step with the empty graph. -/
theorem inStep_empty (path : Path) : InStep { graph := { path } } where
  vertices := by
    funext key
    simp [vertexByKey?]
  edges := by
    funext e
    simp [edgeId?]

section Operations

variable {α : Type} {table : GraphTable}

theorem get_bind (next : GraphTable → Operation α) :
    (get >>= next).run.run table = (next table).run.run table :=
  rfl

theorem checkVertex_bind (v : VertexId) (next : Unit → Operation α) :
    (checkVertex v >>= next).run.run table =
      if table.graph.vertices.size ≤ v then (.error (.unknownVertex v), table)
      else (next ()).run.run table := by
  rw [checkVertex, bind_assoc, get_bind]
  split <;> rfl

/-- Looking for the statement around a range. -/
theorem vertexAround_bind (span : Span) (next : VertexId → Operation α) :
    (vertexAround span >>= next).run.run table =
      match table.graph.findVertex? span with
      | some v => (next v).run.run table
      | none => (.error (.missingEndpoint span), table) := by
  rw [vertexAround, bind_assoc, get_bind]
  cases table.graph.findVertex? span <;> rfl

end Operations

/-! ## Tables in step -/

variable {table : GraphTable}

/-- A table answers as its graph does, stays in step, and is left as it was by a call that fails. -/
structure Follows (table : GraphTable) (result : Except GraphError Nat × StatementGraph)
    (result' : Except GraphError Nat × GraphTable) : Prop where
  answer : result'.1 = result.1
  graph : result'.2.graph = result.2
  inStep : result'.2.InStep
  unchanged : ∀ e, result'.1 = .error e → result'.2 = table

theorem InStep.follows_refused (h : table.InStep) (e : GraphError) :
    table.Follows (.error e, table.graph) (.error e, table) :=
  ⟨rfl, rfl, h, fun _ _ => rfl⟩

theorem InStep.follows_found (h : table.InStep) (id : Nat) :
    table.Follows (.ok id, table.graph) (.ok id, table) :=
  ⟨rfl, rfl, h, fun _ _ => rfl⟩

/-- The index of a new element is that of its key. -/
theorem findIdx?_push_eq_update {β α : Type} [DecidableEq β] {f : α → β} {items : Array α} {x : α}
    (hnone : items.findIdx? (f · = f x) = none) :
    (fun key => (items.push x).findIdx? (f · = key)) =
      Function.update (fun key => items.findIdx? (f · = key)) (f x) (some items.size) := by
  funext key
  rw [Function.update_apply, Array.findIdx?_push]
  by_cases hkey : key = f x
  · rw [if_pos hkey, hkey, hnone]
    simp
  · rw [if_neg hkey, if_neg (by simpa using Ne.symm hkey)]
    simp

/-- The tables follow the adding of statements. -/
theorem InStep.follows_addVertex (h : table.InStep) (x : Vertex) :
    table.Follows (table.graph.perform (.addVertex x)) (table.answer (.addVertex x)) := by
  rw [StatementGraph.perform, StatementGraph.addVertex, answer, perform, addVertex, get_bind,
    h.vertices]
  cases hfound : table.graph.vertexByKey? x.key with
  | some v => exact h.follows_found v
  | none =>
    refine ⟨rfl, rfl, ⟨?_, h.edges⟩, nofun⟩
    change Function.update table.vertexIndex x.key (some table.graph.vertices.size) = _
    rw [h.vertices]
    exact (findIdx?_push_eq_update hfound).symm

/-- The tables follow the adding of edges. -/
theorem InStep.follows_connect (h : table.InStep) (source target : VertexId) (relation : Relation) :
    table.Follows (table.graph.settle (table.graph.connect source target relation))
      ((connect source target relation).run.run table) := by
  rw [StatementGraph.connect, connect, checkVertex_bind, checkVertex_bind, get_bind, h.edges]
  unfold edgeId?
  split
  · exact h.follows_refused _
  · split
    · exact h.follows_refused _
    · cases hfound : table.graph.edges.findIdx? (· = ⟨source, target, relation⟩) with
      | some id => exact h.follows_found id
      | none =>
        refine ⟨rfl, rfl, ⟨h.vertices, ?_⟩, nofun⟩
        change Function.update table.edgeIndex _ (some table.graph.edges.size) = _
        rw [h.edges]
        exact (findIdx?_push_eq_update (f := fun e => e) hfound).symm

/-- **A table in step follows its graph through every call.** -/
theorem InStep.follows (h : table.InStep) (call : Call) :
    table.Follows (table.graph.perform call) (table.answer call) := by
  cases call with
  | addVertex x => exact h.follows_addVertex x
  | addEdge source target relation =>
    rw [StatementGraph.perform, StatementGraph.addEdge, answer, perform, addEdge, vertexAround_bind]
    cases table.graph.findVertex? source with
    | none => exact h.follows_refused _
    | some u =>
      dsimp only
      rw [vertexAround_bind]
      cases table.graph.findVertex? target with
      | none => exact h.follows_refused _
      | some v => exact h.follows_connect u v relation
  | connect source target relation => exact h.follows_connect source target relation

/-- **A table in step follows its graph through every sequence of calls.** -/
theorem InStep.answerAll (h : table.InStep) (calls : List Call) :
    (table.answerAll calls).InStep ∧
      (table.answerAll calls).graph = table.graph.performAll calls := by
  induction calls generalizing table with
  | nil => exact ⟨h, rfl⟩
  | cons call rest ih =>
    have hfollows := h.follows call
    obtain ⟨hinStep, hgraph⟩ := ih hfollows.inStep
    refine ⟨hinStep, hgraph.trans ?_⟩
    rw [hfollows.graph]
    rfl

/-- The graph determines the tables in step with it. -/
theorem InStep.ext {table' : GraphTable} (h : table.InStep) (h' : table'.InStep)
    (hgraph : table'.graph = table.graph) : table' = table := by
  obtain ⟨graph, vertexIndex, edgeIndex⟩ := table
  obtain ⟨graph', vertexIndex', edgeIndex'⟩ := table'
  obtain ⟨hvertices, hedges⟩ := h
  obtain ⟨hvertices', hedges'⟩ := h'
  dsimp only at hgraph hvertices hedges hvertices' hedges'
  subst hgraph hvertices hedges hvertices' hedges'
  rfl

/-- A call whose addition is stored finds it, and changes neither the graph nor the indexes. -/
theorem InStep.answer_eq (h : table.InStep) (hdistinct : table.graph.Distinct) {call : Call}
    {id : Nat} (hstores : table.graph.Stores id call) : table.answer call = (.ok id, table) := by
  have hfollows := h.follows call
  rw [hdistinct.perform_eq hstores] at hfollows
  exact Prod.ext hfollows.answer (h.ext hfollows.inStep hfollows.graph)

/-! ## All sequences of calls -/

/-- The indexes of a table invert what is stored. -/
structure Inverts (table : GraphTable) : Prop where
  /-- No two statements have the same identity. -/
  keys : (table.graph.vertices.toList.map (·.key)).Nodup
  /-- The index of the statements is the inverse of their list. -/
  byKey : ∀ key v, table.vertexIndex key = some v ↔
    ∃ x, table.graph.vertex? v = some x ∧ x.key = key
  /-- No edge is stored twice. -/
  edges : table.graph.edges.toList.Nodup
  /-- Edges start and end at statements that exist. -/
  ends : ∀ e ∈ table.graph.edges,
    e.source < table.graph.vertices.size ∧ e.target < table.graph.vertices.size
  /-- The index of the edges is the inverse of their list. -/
  byEdge : ∀ e id, table.edgeIndex e = some id ↔ table.graph.edges[id]? = some e

/-- Tables in step invert the graph. -/
theorem InStep.inverts (h : table.InStep) (hdistinct : table.graph.Distinct) : table.Inverts where
  keys := hdistinct.keys
  byKey := fun key v => by
    rw [h.vertices]
    exact hdistinct.vertexByKey?_eq_some_iff
  edges := hdistinct.edges
  ends := hdistinct.ends
  byEdge := fun e id => by
    rw [h.edges]
    exact hdistinct.edgeId?_eq_some_iff

/-- What becomes of a table in a call and in those that follow it. -/
structure Keeps (table : GraphTable) (call : Call) (now : Except GraphError Nat × GraphTable)
    (later : GraphTable) : Prop where
  /-- Statements and edges keep their places and their contents. -/
  stays : table.graph.Appended later.graph
  /-- A call that fails leaves the table as it was. -/
  unchanged : ∀ e, now.1 = .error e → now.2 = table
  /-- A call that is repeated gets the same answer and changes nothing. -/
  repeated : now.2.answer call = now
  /-- So does a call that succeeded and is repeated later, if its ranges still lie in the same
  statements. -/
  again : ∀ id, now.1 = .ok id → call.Agrees now.2.graph later.graph →
    later.answer call = (.ok id, later)

/-- **Indexed graphs under all sequences of calls.** The indexes invert what is stored, the table is
that of the graph which the same calls make without indexes and answers alike, and what was stored
stays. Calls can be repeated, and calls that fail change nothing. -/
theorem calls_kept (path : Path) (earlier : List Call) (call : Call) (rest : List Call) :
    let table := answerAll { graph := { path } } earlier
    let now := table.answer call
    table.Inverts ∧ table.Keeps call now (now.2.answerAll rest) ∧
      table.graph = performAll { path } earlier ∧ table.vertexIndex = table.graph.vertexByKey? ∧
      now.1 = (table.graph.perform call).1 ∧ now.2.graph = (table.graph.perform call).2 := by
  intro table now
  obtain ⟨hinStep, hgraph⟩ := (inStep_empty path).answerAll earlier
  have hdistinct : table.graph.Distinct := by
    rw [hgraph]
    exact (distinct_empty path).performAll earlier
  have hfollows := hinStep.follows call
  have heffect := effect_perform table.graph call
  have hdistinct' : now.2.graph.Distinct := by
    rw [hfollows.graph]
    exact hdistinct.effect heffect
  have hstores (id : Nat) (hok : now.1 = .ok id) : now.2.graph.Stores id call := by
    rw [hfollows.graph]
    exact heffect.stores hdistinct (hfollows.answer.symm.trans hok)
  obtain ⟨hinStep', hgraph'⟩ := hfollows.inStep.answerAll rest
  have happended : now.2.graph.Appended (now.2.answerAll rest).graph := by
    rw [hgraph']
    exact appended_performAll _ rest
  refine ⟨hinStep.inverts hdistinct, ⟨?_, hfollows.unchanged, ?_, ?_⟩, hgraph, hinStep.vertices,
    hfollows.answer, hfollows.graph⟩
  · refine Appended.trans ?_ happended
    rw [hfollows.graph]
    exact .effect heffect
  · cases hnow : now.1 with
    | error e =>
      -- The call fails again, since nothing has changed.
      change now.2.answer call = table.answer call
      rw [hfollows.unchanged e hnow]
    | ok id =>
      rw [hfollows.inStep.answer_eq hdistinct' (hstores id hnow)]
      exact Prod.ext hnow.symm rfl
  · intro id hok hagrees
    refine hinStep'.answer_eq ?_ ((hstores id hok).appended happended hagrees)
    rw [hgraph']
    exact hdistinct'.performAll rest

/-! Once a range comes to lie in a new statement, relating it again adds another edge. -/
example :
    let relate : Call := .addEdge ⟨1, 2⟩ ⟨1, 2⟩ { kind := .read }
    let vertex (stop : Nat) : Call := .addVertex
      { key := ⟨.expressionStatement, ⟨0, stop⟩⟩, location := ⟨1, 0⟩, scope := 0 }
    let graph := performAll { path := ⟨"a.js"⟩ } [vertex 9, relate, vertex 4]
    graph.edgeId? ⟨0, 0, { kind := .read }⟩ = some 0 ∧ (graph.perform relate).1 = .ok 1 := by
  exact ⟨by decide +kernel, by cbv⟩

end GraphTable

end DeadCode
