import DeadCode.Graph.Basic
import DeadCode.Proofs.Syntax.Nodes

/-! # Growing statement graphs

A statement graph only grows: statements and edges keep their places. This file says what each
operation adds. -/

namespace DeadCode

namespace StatementGraph

/-! ## The enclosing statement -/

/-- Some statement encloses a range. -/
def Covers (graph : StatementGraph) (span : Span) : Prop :=
  ∃ vertex ∈ graph.vertices, vertex.span.contains span

variable {graph graph' : StatementGraph} {span : Span} {v source target : VertexId}
  {vertex : Vertex} {relation : Relation} {id : EdgeId}

theorem Covers.of_contains {outer inner : Span} (h : graph.Covers outer)
    (hc : outer.contains inner) : graph.Covers inner := by
  obtain ⟨vertex, hv, ho⟩ := h
  exact ⟨vertex, hv, Span.contains_trans ho hc⟩

/-- The search keeps a candidate once it has one, and takes the first that encloses the range. -/
theorem isSome_foldl_closer (span : Span) (candidates : List (Vertex × VertexId))
    (best : Option (VertexId × Nat)) :
    (candidates.foldl (closer span) best).isSome ↔
      best.isSome ∨ ∃ c ∈ candidates, c.1.span.contains span := by
  induction candidates generalizing best with
  | nil => simp
  | cons c rest ih =>
    have hstep : (closer span best c).isSome ↔ best.isSome ∨ c.1.span.contains span := by
      unfold closer
      cases best <;> grind
    rw [List.foldl_cons, ih, hstep, or_assoc]
    simp

/-- The candidate the search ends with encloses the range, unless it is the one it began with. -/
theorem mem_of_foldl_closer {candidates : List (Vertex × VertexId)} {best : Option (VertexId × Nat)}
    {found : VertexId × Nat} (h : candidates.foldl (closer span) best = some found) :
    best = some found ∨ ∃ c ∈ candidates, c.1.span.contains span ∧ c.2 = found.1 := by
  induction candidates generalizing best with
  | nil => exact .inl h
  | cons c rest ih =>
    have hstep : ∀ found, closer span best c = some found →
        best = some found ∨ c.1.span.contains span ∧ c.2 = found.1 := by
      intro found h
      unfold closer at h
      cases best <;> grind
    rcases ih h with h | ⟨c', hc', h⟩
    · exact (hstep found h).imp_right fun h => ⟨c, List.mem_cons_self, h⟩
    · exact .inr ⟨c', List.mem_cons_of_mem _ hc', h⟩

/-- **A statement is found for a range exactly when some statement encloses it.** -/
theorem findVertex?_isSome_iff (graph : StatementGraph) (span : Span) :
    (graph.findVertex? span).isSome ↔ graph.Covers span := by
  rw [findVertex?, Option.isSome_map, isSome_foldl_closer]
  constructor
  · rintro (h | ⟨⟨vertex, i⟩, hmem, hc⟩)
    · cases h
    · exact ⟨vertex, Array.mem_toList_iff.1 (List.fst_mem_of_mem_zipIdx hmem), hc⟩
  · rintro ⟨vertex, hmem, hc⟩
    obtain ⟨i, hi, rfl⟩ := Array.mem_iff_getElem.1 hmem
    refine .inr ⟨(graph.vertices[i], i), ?_, hc⟩
    rw [List.mem_zipIdx_iff_getElem?]
    simp

/-- What is found around a range contains it. -/
theorem exists_of_findVertex? (h : graph.findVertex? span = some v) :
    ∃ vertex, graph.vertex? v = some vertex ∧ vertex.span.contains span := by
  obtain ⟨found, hfound, rfl⟩ := Option.map_eq_some_iff.1 h
  rcases mem_of_foldl_closer hfound with h | ⟨⟨vertex, i⟩, hmem, hc, rfl⟩
  · cases h
  · refine ⟨vertex, ?_, hc⟩
    rw [List.mem_zipIdx_iff_getElem?] at hmem
    simpa [vertex?] using hmem

theorem lt_size_of_vertex? (h : graph.vertex? v = some vertex) : v < graph.vertices.size :=
  (Array.getElem?_eq_some_iff.1 h).1

theorem exists_vertex? (h : v < graph.vertices.size) : ∃ vertex, graph.vertex? v = some vertex :=
  ⟨graph.vertices[v], Array.getElem?_eq_getElem h⟩

theorem covers_of_vertex? (h : graph.vertex? v = some vertex) : graph.Covers vertex.span :=
  ⟨vertex, Array.mem_of_getElem? h, vertex.span.contains_self⟩

/-! ## Growth -/

/-- The statements of one graph are the first statements of another. -/
def Extends (graph graph' : StatementGraph) : Prop :=
  ∀ v vertex, graph.vertex? v = some vertex → graph'.vertex? v = some vertex

theorem Extends.refl (graph : StatementGraph) : graph.Extends graph :=
  fun _ _ h => h

theorem Extends.trans {graph'' : StatementGraph} (h : graph.Extends graph')
    (h' : graph'.Extends graph'') : graph.Extends graph'' :=
  fun v vertex hv => h' v vertex (h v vertex hv)

theorem Extends.of_vertices_eq (h : graph'.vertices = graph.vertices) : graph.Extends graph' := by
  intro v vertex hv
  rw [vertex?, h]
  exact hv

theorem Extends.lt_size (h : graph.Extends graph') (hv : v < graph.vertices.size) :
    v < graph'.vertices.size := by
  obtain ⟨vertex, hvertex⟩ := exists_vertex? hv
  exact lt_size_of_vertex? (h v vertex hvertex)

theorem Extends.size_le (h : graph.Extends graph') :
    graph.vertices.size ≤ graph'.vertices.size := by
  by_contra hlt
  exact Nat.lt_irrefl _ (h.lt_size (Nat.lt_of_not_le hlt))

theorem Extends.covers (h : graph.Extends graph') (hc : graph.Covers span) :
    graph'.Covers span := by
  obtain ⟨vertex, hmem, hc⟩ := hc
  obtain ⟨v, hv⟩ := Array.mem_iff_getElem?.1 hmem
  exact ⟨vertex, Array.mem_of_getElem? (h v vertex hv), hc⟩

/-- What was added is there. -/
theorem vertex?_addVertex (graph : StatementGraph) (vertex : Vertex) :
    ∃ found, (graph.addVertex vertex).2.vertex? (graph.addVertex vertex).1 = some found ∧
      found.key = vertex.key := by
  unfold addVertex
  split
  · next v hv =>
    obtain ⟨hlt, hkey, -⟩ := Array.findIdx?_eq_some_iff_getElem.1 hv
    exact ⟨graph.vertices[v], Array.getElem?_eq_getElem hlt, by simpa using hkey⟩
  · exact ⟨vertex, Array.getElem?_push_size, rfl⟩

theorem extends_addVertex (graph : StatementGraph) (vertex : Vertex) :
    graph.Extends (graph.addVertex vertex).2 := by
  unfold addVertex
  split
  · exact Extends.refl graph
  · intro v found hv
    rw [vertex?, Array.getElem?_push, if_neg (Nat.ne_of_lt (lt_size_of_vertex? hv))]
    exact hv

/-- Nothing else is added. -/
theorem mem_vertices_addVertex {x : Vertex} (h : x ∈ (graph.addVertex vertex).2.vertices) :
    x ∈ graph.vertices ∨ x = vertex := by
  unfold addVertex at h
  split at h
  · exact .inl h
  · exact Array.mem_push.1 h

@[simp] theorem edges_addVertex (graph : StatementGraph) (vertex : Vertex) :
    (graph.addVertex vertex).2.edges = graph.edges := by
  unfold addVertex
  split <;> rfl

/-- A vertex of the larger graph is an old one, or the one that was added, whose key is new. -/
theorem vertex?_of_addVertex {x y : Vertex} (h : (graph.addVertex x).2.vertex? v = some y) :
    graph.vertex? v = some y ∨ y = x ∧ ∀ u z, graph.vertex? u = some z → z.key ≠ x.key := by
  unfold addVertex at h
  split at h
  · exact .inl h
  · next hnone =>
    unfold vertex? at h
    rw [Array.getElem?_push] at h
    split at h
    · refine .inr ⟨(Option.some.inj h).symm, fun u z hz heq => ?_⟩
      have hall := Array.findIdx?_eq_none_iff.1 hnone z (Array.mem_of_getElem? hz)
      simp [heq] at hall
    · exact .inl h

/-- **What connecting does.** -/
theorem of_connect (h : graph.connect source target relation = .ok (id, graph')) :
    source < graph.vertices.size ∧ target < graph.vertices.size ∧
      graph'.vertices = graph.vertices ∧
      ∀ e, e ∈ graph'.edges ↔ e ∈ graph.edges ∨ e = { source, target, relation } := by
  unfold connect at h
  split at h
  · cases h
  · next hs =>
    split at h
    · cases h
    · next ht =>
      refine ⟨Nat.lt_of_not_le hs, Nat.lt_of_not_le ht, ?_⟩
      split at h
      · next hid =>
        obtain ⟨hlt, hedge, -⟩ := Array.findIdx?_eq_some_iff_getElem.1 hid
        cases h
        refine ⟨rfl, fun e => ⟨.inl, ?_⟩⟩
        rintro (he | rfl)
        · exact he
        · exact of_decide_eq_true hedge ▸ Array.getElem_mem hlt
      · cases h
        exact ⟨rfl, fun e => Array.mem_push⟩

theorem extends_of_connect (h : graph.connect source target relation = .ok (id, graph')) :
    graph.Extends graph' :=
  .of_vertices_eq (of_connect h).2.2.1

/-- No edge is there twice. -/
theorem nodup_edges_of_connect (h : graph.connect source target relation = .ok (id, graph'))
    (hnodup : graph.edges.toList.Nodup) : graph'.edges.toList.Nodup := by
  unfold connect at h
  split at h
  · cases h
  · split at h
    · cases h
    · split at h
      · cases h
        exact hnodup
      · next hnone =>
        cases h
        rw [Array.toList_push, ← List.concat_eq_append]
        refine List.Nodup.concat (fun hmem => ?_) hnodup
        have hall := Array.findIdx?_eq_none_iff.1 hnone _ (Array.mem_toList_iff.1 hmem)
        simp at hall

/-- **Existing statements can always be connected.** -/
theorem exists_connect (hs : source < graph.vertices.size) (ht : target < graph.vertices.size)
    (relation : Relation) :
    ∃ id graph', graph.connect source target relation = .ok (id, graph') := by
  unfold connect
  rw [if_neg (Nat.not_le.2 hs), if_neg (Nat.not_le.2 ht)]
  split
  · exact ⟨_, _, rfl⟩
  · exact ⟨_, _, rfl⟩

/-- **Covered ranges can always be related**: statements that enclose them are connected. -/
theorem exists_addEdge {source target : Span} (hs : graph.Covers source) (ht : graph.Covers target)
    (relation : Relation) :
    ∃ id graph' u w, graph.addEdge source target relation = .ok (id, graph') ∧
      graph.findVertex? source = some u ∧ graph.findVertex? target = some w ∧
      graph.connect u w relation = .ok (id, graph') := by
  obtain ⟨u, hu⟩ := Option.isSome_iff_exists.1 ((findVertex?_isSome_iff _ _).2 hs)
  obtain ⟨w, hw⟩ := Option.isSome_iff_exists.1 ((findVertex?_isSome_iff _ _).2 ht)
  obtain ⟨_, hu', -⟩ := exists_of_findVertex? hu
  obtain ⟨_, hw', -⟩ := exists_of_findVertex? hw
  obtain ⟨id, graph', hc⟩ :=
    exists_connect (lt_size_of_vertex? hu') (lt_size_of_vertex? hw') relation
  exact ⟨id, graph', u, w, by rw [addEdge, hu]; simp only [hw, hc], hu, hw, hc⟩

end StatementGraph

end DeadCode
