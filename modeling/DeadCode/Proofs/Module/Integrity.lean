import DeadCode.Proofs.Module.Basic
import DeadCode.Proofs.Resolution.File

/-! # No reference of an analyzed file leads nowhere

The model of a file refers to its statements, scopes and callables by number or by identity: bindings
name the statement that declares them and the callable they stand for, statements name their scope,
imports and exports name the statements that carry and produce them. -/

namespace DeadCode

/-! ## The ends of edges -/

namespace StatementGraph

/-- Every edge joins existing statements. -/
def Joined (graph : StatementGraph) : Prop :=
  ∀ e ∈ graph.edges, e.source < graph.vertices.size ∧ e.target < graph.vertices.size

variable {graph graph' : StatementGraph}

/-- Adding a statement leaves edges joined. -/
theorem Joined.addVertex (h : graph.Joined) (vertex : Vertex) : (graph.addVertex vertex).2.Joined := by
  have hsize := (extends_addVertex graph vertex).size_le
  intro e he
  rw [edges_addVertex] at he
  exact ⟨Nat.lt_of_lt_of_le (h e he).1 hsize, Nat.lt_of_lt_of_le (h e he).2 hsize⟩

/-- A new edge joins statements that exist. -/
theorem Joined.connect (h : graph.Joined) {u v : VertexId} {relation : Relation} {id : EdgeId}
    (hconnect : graph.connect u v relation = .ok (id, graph')) : graph'.Joined := by
  obtain ⟨hu, hv, hvertices, hedges⟩ := of_connect hconnect
  intro e he
  rw [hvertices]
  rcases (hedges e).1 he with he | rfl
  · exact h e he
  · exact ⟨hu, hv⟩

end StatementGraph

namespace Builder

variable {root : Node} {b b' : Builder}

/-- Moves leave edges joined. -/
theorem Move.joined {declared : Node → Prop} (hmove : Move root declared b b')
    (h : b.graph.Joined) : b'.graph.Joined := by
  cases hmove with
  | statement vertex => exact h.addVertex vertex
  | own _ _ _ hconnect => exact h.connect hconnect
  | relate _ hconnect => exact h.connect hconnect
  | block | declare | update | register | enqueue | noteCall | noteLinked | noteReturn | focus =>
    exact h

theorem Steps.joined (hsteps : Steps root b b') (h : b.graph.Joined) : b'.graph.Joined := by
  induction hsteps with
  | refl => exact h
  | tail _ hstep ih =>
    cases hstep with
    | move hmove => exact hmove.joined ih
    | enter => exact ih
    | requeue => exact ih

end Builder

/-- **The edges of a graph join its statements.** -/
theorem joined_of_build? {path : Path} {source : String} {root : Node} {ambient : List String}
    {graph : StatementGraph} {scopes : ScopeTree}
    (h : StatementGraph.build? path source root ambient = .ok (graph, scopes)) : graph.Joined := by
  obtain ⟨b, hsteps, -, rfl, -⟩ := exists_builder_of_build? h
  refine hsteps.joined fun e he => ?_
  simp [Builder.start] at he

namespace Export

variable {source : String} {path : Path} {graph : StatementGraph} {e : Export}

/-- The producer of an export exists. -/
theorem producerOf_lt {v : VertexId} (hgraph : graph.Joined) (hv : v < graph.vertices.size)
    (localName : Option String) : producerOf graph v localName < graph.vertices.size := by
  unfold producerOf
  split
  · exact hv
  · next name =>
    dsimp only
    cases hfound : (graph.outgoing v).find? fun e =>
        (e.relation.kind = .read || e.relation.kind = .call) && e.relation.var = some name with
    | none => exact hv
    | some edge =>
      have hmem : edge ∈ graph.edges := by
        have hout := List.mem_of_find?_eq_some hfound
        rw [StatementGraph.outgoing, List.mem_reverse, List.mem_filter] at hout
        exact Array.mem_toList_iff.1 hout.1
      exact (hgraph edge hmem).2

/-- **The statement that produces an export exists.** -/
theorem producer_lt {root : Node} (hgraph : graph.Joined)
    (h : e ∈ ofFile source path root graph) : e.producer < graph.vertices.size := by
  have hvertex := lt_size_of_mem_ofFile h
  obtain ⟨n, -, hn⟩ := List.mem_flatMap.1 h
  unfold ofStatement at hn
  split at hn
  · cases hn
  · dsimp only at hn
    split at hn
    · obtain ⟨name, -, rfl⟩ := List.mem_map.1 hn
      exact producerOf_lt hgraph hvertex _
    · obtain ⟨name, -, rfl⟩ := List.mem_map.1 hn
      exact producerOf_lt hgraph hvertex _
    · cases hn

end Export

/-! ## Marks on exported bindings -/

namespace SourceModule

variable {vertices : Nat} {keys : Key → Prop} {scopes : ScopeTree}

theorem sound_markExports (h : scopes.Sound vertices keys) (exports : List Export) :
    (exports.foldl markExport scopes).Sound vertices keys := by
  induction exports generalizing scopes with
  | nil => exact h
  | cons e rest ih =>
    refine ih ?_
    unfold markExport
    split
    · exact h
    · refine h.updateLocal _ _ fun b hb => ?_
      exact ⟨.intro (fun v hv => hb.declaration_lt hv) (fun key hk => hb.known hk)
        hb.table.distinct hb.table.named hb.table.sound, rfl⟩

theorem size_markExports (scopes : ScopeTree) (exports : List Export) :
    (exports.foldl markExport scopes).size = scopes.size := by
  induction exports generalizing scopes with
  | nil => rfl
  | cons e rest ih =>
    refine (ih _).trans ?_
    unfold markExport
    split
    · rfl
    · exact ScopeTree.size_of_frame_eq (ScopeTree.frame_updateLocal ..)

/-! ## Intact models -/

/-- A number is that of a statement of the file. -/
def HasVertex (m : SourceModule) (v : VertexId) : Prop :=
  v < m.graph.vertices.size

/-- **Every reference of the model of a file leads somewhere**, and every binding is stored under its
own name in the table it stands in, be it a scope or the members of another binding. -/
structure Intact (root : Node) (m : SourceModule) : Prop where
  /-- A binding is stored under its own name, and found there. -/
  named : ∀ s ∈ m.scopes.scopes, ∀ table, Binding.Inside s.bindings table →
    ∀ entry ∈ table, entry.1 = entry.2.name ∧ Binding.find? table entry.1 = some entry.2
  /-- The statement that declares a binding exists. -/
  declared : ∀ s ∈ m.scopes.scopes, ∀ table, Binding.Inside s.bindings table →
    ∀ entry ∈ table, ∀ v, entry.2.declaration = some v → m.HasVertex v
  /-- The callable that a binding stands for is a callable of the tree. -/
  callable : ∀ s ∈ m.scopes.scopes, ∀ table, Binding.Inside s.bindings table →
    ∀ entry ∈ table, ∀ key, entry.2.callable = some key → root.HasCallable key
  /-- The scope in which a statement appears exists. -/
  scope : ∀ x ∈ m.graph.vertices, x.scope < m.scopes.size
  /-- The statement that carries an import exists. -/
  importing : ∀ i ∈ m.imports, ∀ v, i.vertex = some v → m.HasVertex v
  /-- The statement that exports exists. -/
  exporting : ∀ e ∈ m.exports, m.HasVertex e.vertex
  /-- The statement that produces an export exists. -/
  producing : ∀ e ∈ m.exports, m.HasVertex e.producer

/-- **Every model of a tree is intact.** -/
theorem intact_of_ofTree {path : Path} {source : String} {language : Language} {root : Node}
    {ambient : List String} {m : SourceModule}
    (h : ofTree path source language root ambient = .ok m) : m.Intact root := by
  unfold ofTree at h
  split at h
  · cases h
  · next graph scopes hbuild =>
    cases h
    obtain ⟨b, -, hvalid, rfl, rfl⟩ := exists_builder_of_build? hbuild
    have hsound := sound_markExports hvalid.bindings
      (Export.ofFile source path.canonical root b.graph)
    exact
      { named := fun s hs table ht x hx => by
          have htable := (hsound s hs).inside ht
          have hname := htable.named x hx
          exact ⟨hname.symm, hname ▸ htable.find?_eq_self hx⟩
        declared := fun s hs table ht x hx v hv =>
          (((hsound s hs).inside ht).sound x hx).declaration_lt hv
        callable := fun s hs table ht x hx key hk =>
          (((hsound s hs).inside ht).sound x hx).known hk
        scope := fun x hx => by
          rw [size_markExports]
          exact hvalid.statements x hx
        importing := fun i hi v hv => Import.lt_size_of_mem_ofFile hi hv
        exporting := fun e he => Export.lt_size_of_mem_ofFile he
        producing := fun e he => Export.producer_lt (joined_of_build? hbuild) he }

/-- **Every nested tree has a model.** -/
theorem exists_ofTree_of_nested (path : Path) (source : String) (language : Language) {root : Node}
    (ambient : List String) (hroot : root.Nested) :
    ∃ m, ofTree path source language root ambient = .ok m := by
  rcases Build.file_phases path source root ambient with
    ⟨error, -, hnot⟩ | ⟨-, -, b, -, -, -, -, hrun⟩
  · exact absurd hroot hnot
  · have hbuild : StatementGraph.build? path source root ambient = .ok (b.graph, b.scopes) := by
      rw [build?_eq, hrun]
      rfl
    exact ⟨_, by rw [ofTree, hbuild]⟩

/-- **A file with a nested tree has a model, and no reference in the model leads nowhere.** -/
theorem exists_intact (path : Path) (source : String) (language : Language) {root : Node}
    (ambient : List String) (hroot : root.Nested) :
    ∃ m, ofTree path source language root ambient = .ok m ∧ m.Intact root := by
  obtain ⟨m, hm⟩ := exists_ofTree_of_nested path source language ambient hroot
  exact ⟨m, hm, intact_of_ofTree hm⟩

/-- The file `class A { m() { () => 0 } }` has a model that is intact, with a member in a table of its
own. -/
theorem exists_intact_classWithMethod : classWithMethod.Nested ∧ ∃ m,
    ofTree ⟨"a.js"⟩ "class A { m() { () => 0 } }" .javaScript classWithMethod [] = .ok m ∧
      m.Intact classWithMethod :=
  ⟨by decide +kernel, exists_intact _ _ _ _ (by decide +kernel)⟩

end SourceModule

end DeadCode
