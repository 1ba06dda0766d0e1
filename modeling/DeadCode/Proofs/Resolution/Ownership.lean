import DeadCode.Proofs.Resolution.File

/-! # Which statements own which

A statement or a method is owned by the statement around it, or by the one that declares the
callable around it. Along ownership ranges shrink, so ownership has no cycles and every chain of
owners starts at the top level. -/

namespace DeadCode

/-! ## Shrinking ranges -/

/-- The number of bytes of a range. -/
def Span.length (span : Span) : Nat :=
  span.stop - span.start

theorem Span.length_le_of_contains {outer inner : Span} (h : outer.contains inner) :
    inner.length ≤ outer.length := by
  rw [contains_iff] at h
  unfold length
  omega

namespace Node

/-- **Well-nested trees**: every range holds the ranges below it, and a statement or a method is
strictly smaller than the statements and callables it lies in. -/
def WellNested (root : Node) : Prop :=
  root.Nested ∧ ∀ outer ∈ root.nodes, outer.Encloses → ∀ n ∈ outer.descendants, n.Ownable →
    n.span.length < outer.span.length

instance (root : Node) : Decidable root.WellNested :=
  inferInstanceAs (Decidable (root.Nested ∧ ∀ outer ∈ root.nodes, outer.Encloses →
    ∀ n ∈ outer.descendants, n.Ownable → n.span.length < outer.span.length))

end Node

/-! ## Edges of ownership -/

namespace Builder

variable {root : Node} {b b' : Builder}

/-- Every edge of ownership leads to a statement or a method, from the statement that encloses the
statement or callable around it. -/
def Owned (root : Node) (b : Builder) : Prop :=
  ∀ e ∈ b.graph.edges, e.relation.kind = .decl →
    ∃ n : Node, n.Ownable ∧ b.Owns root e.source n ∧ b.StandsFor e.target n

theorem owned_start (root : Node) (path : Path) (ambient : List String) :
    (start path ambient).Owned root := by
  intro e he
  simp [start] at he

theorem Owned.of_grows (h : b.Owned root) (hg : b.Grows b')
    (hedges : ∀ e ∈ b'.graph.edges, e.relation.kind = .decl → e ∈ b.graph.edges) :
    b'.Owned root := by
  intro e he hkind
  obtain ⟨n, hn, howner, hchild⟩ := h e (hedges e he hkind) hkind
  exact ⟨n, hn, howner.mono hg, hchild.mono hg⟩

/-- Moves keep ownership. -/
theorem Move.owned {declared : Node → Prop} (hmove : Move root declared b b') (h : b.Owned root) :
    b'.Owned root := by
  have hg := hmove.grows
  cases hmove with
  | statement vertex hscope =>
    refine h.of_grows hg fun e he _ => ?_
    rwa [StatementGraph.edges_addVertex] at he
  | @own owner child n id graph howner hchild hkind hconnect =>
    intro e he hdecl
    -- The one new edge is the one the move is about.
    rcases ((StatementGraph.of_connect hconnect).2.2.2 e).1 he with he | rfl
    · obtain ⟨m, hm, howner', hchild'⟩ := h e he hdecl
      exact ⟨m, hm, howner'.mono hg, hchild'.mono hg⟩
    · exact ⟨n, hkind, howner.mono hg, hchild.mono hg⟩
  | relate hkind hconnect =>
    refine h.of_grows hg fun e he hdecl => ?_
    rcases ((StatementGraph.of_connect hconnect).2.2.2 e).1 he with he | rfl
    · exact he
    · exact absurd hdecl hkind
  | block | declare | update | register | enqueue | noteCall | noteLinked | noteReturn | focus =>
    exact h.of_grows hg fun e he _ => he

theorem Step.owned (hstep : Step root b b') (h : b.Owned root) : b'.Owned root := by
  cases hstep with
  | move hmove => exact hmove.owned h
  | enter _ hadd => exact h
  | requeue queue => exact h

/-- **Ownership along a run**: it is kept by every step. -/
theorem Steps.owned (hsteps : Steps root b b') (h : b.Owned root) : b'.Owned root := by
  induction hsteps with
  | refl => exact h
  | tail _ hstep ih => exact hstep.owned ih

/-- What is owned is shorter than its owner. -/
theorem Owned.length_lt (h : b.Owned root) (hroot : root.WellNested) {e : Edge}
    (he : e ∈ b.graph.edges) (hkind : e.relation.kind = .decl) :
    ∃ owner child, b.graph.vertex? e.source = some owner ∧ b.graph.vertex? e.target = some child ∧
      child.span.length < owner.span.length := by
  obtain ⟨n, hn, ⟨outer, houter, hmem, hencloses, owner, howner, hcontains⟩, child, hchild, hkey⟩ :=
    h e he hkind
  refine ⟨owner, child, howner, hchild, ?_⟩
  have hspan : child.span = n.span := congrArg Key.span hkey
  calc child.span.length
      = n.span.length := by rw [hspan]
    _ < outer.span.length := hroot.2 outer houter hencloses n hmem hn
    _ ≤ owner.span.length := Span.length_le_of_contains (hcontains hroot.1)

end Builder

/-! ## From the top level to all statements -/

namespace StatementGraph

variable {graph : StatementGraph} {v : VertexId}

/-- The top-level statements are those that nothing owns. -/
theorem mem_topLevel : v ∈ graph.topLevel ↔
    v < graph.vertices.size ∧ ∀ e ∈ graph.edges, e.relation.kind = .decl → e.target ≠ v := by
  simp only [topLevel, isOwned, List.mem_filter, List.mem_range, Bool.not_eq_true',
    List.any_eq_false, Array.mem_toList_iff, Bool.and_eq_true, decide_eq_true_eq, not_and]
  exact and_congr_right fun _ => forall₂_congr fun _ _ => imp_not_comm

theorem exists_length_le (graph : StatementGraph) : ∃ bound, ∀ v vertex,
    graph.vertex? v = some vertex → vertex.span.length ≤ bound := by
  refine ⟨(graph.vertices.toList.map (·.span.length)).max?.getD 0, fun v vertex hv => ?_⟩
  have hmem : vertex ∈ graph.vertices.toList := Array.mem_toList_iff.2 (Array.mem_of_getElem? hv)
  exact List.le_max?_getD_of_mem (List.mem_map_of_mem hmem)

/-- If owners are larger than what they own, what holds at the top level, and of what a statement owns
if it holds of the statement, holds of all statements. -/
theorem topLevel_induction
    (hlarger : ∀ e ∈ graph.edges, e.relation.kind = .decl → ∃ owner child,
      graph.vertex? e.source = some owner ∧ graph.vertex? e.target = some child ∧
        child.span.length < owner.span.length)
    {good : VertexId → Prop} (htop : ∀ v ∈ graph.topLevel, good v)
    (hown : ∀ e ∈ graph.edges, e.relation.kind = .decl → good e.source → good e.target)
    (hv : v < graph.vertices.size) : good v := by
  obtain ⟨bound, hbound⟩ := exists_length_le graph
  obtain ⟨vertex, hvertex⟩ := exists_vertex? hv
  -- Owners are larger than what they own, so the room left below the longest range shrinks.
  induction hroom : bound - vertex.span.length using Nat.strongRecOn
    generalizing v vertex with
  | _ room ih =>
    by_cases hmem : v ∈ graph.topLevel
    · exact htop v hmem
    · have hedge : ∃ e ∈ graph.edges, e.relation.kind = .decl ∧ e.target = v := by
        by_contra hnone
        exact hmem (mem_topLevel.2 ⟨hv, fun e he hkind htarget => hnone ⟨e, he, hkind, htarget⟩⟩)
      obtain ⟨e, he, hkind, rfl⟩ := hedge
      obtain ⟨owner, child, howner, hchild, hlt⟩ := hlarger e he hkind
      obtain rfl : vertex = child := Option.some.inj (hvertex.symm.trans hchild)
      have hle := hbound e.source owner howner
      exact hown e he hkind
        (ih (bound - owner.span.length) (by omega) (lt_size_of_vertex? howner) owner howner rfl)

/-- **Every chain of owners starts at the top level**: what holds of the statements at the top level
of a well-nested tree, and of what a statement owns if it holds of the statement, holds of all. -/
theorem owned_induction {path : Path} {source : String} {root : Node} {ambient : List String}
    {scopes : ScopeTree} (hbuild : build? path source root ambient = .ok (graph, scopes))
    (hroot : root.WellNested) {good : VertexId → Prop} (htop : ∀ v ∈ graph.topLevel, good v)
    (hown : ∀ e ∈ graph.edges, e.relation.kind = .decl → good e.source → good e.target)
    (hv : v < graph.vertices.size) : good v := by
  obtain ⟨b, hsteps, -, rfl, -⟩ := exists_builder_of_build? hbuild
  have howned := Builder.Steps.owned hsteps (Builder.owned_start root path ambient)
  exact topLevel_induction (fun e he hkind => howned.length_lt hroot he hkind) htop hown hv

end StatementGraph

end DeadCode
