import DeadCode.Proofs.Resolution.Ownership
import DeadCode.Proofs.Graph.Innermost

/-! # The statement closest to a piece of text

An edge starts at the statement that encloses a piece of text at the least distance. In a tree that is
laid out in the text, with statements that shrink from the outside to the inside, this is the
innermost statement around the piece, and the statement found for the range of a statement is that
statement. -/

namespace DeadCode

theorem Span.distance_lt_of_contains {outer inner t : Span} (ho : outer.contains inner)
    (hi : inner.contains t) (ht : t.Nonempty) (hlt : inner.length < outer.length)
    (hstop : outer.stop < offsets) : inner.distance t < outer.distance t := by
  have hne : inner ≠ outer := by
    rintro rfl
    exact Nat.lt_irrefl _ hlt
  have hcloser := squaredDistance_lt_of_contains ho hi hne
  have hkept := squaredDistance_lt_wordSize (contains_trans ho hi) (Nat.le_of_lt ht) hstop
  rw [distance_eq_squaredDistance hkept, distance_eq_squaredDistance (Nat.lt_trans hcloser hkept)]
  exact hcloser

/-! ## Trees with names and statements -/

namespace Node

/-- A node that has a statement of its own, as far as can be told from the node: a statement, a
method, or what an export declares. -/
def Stated (n : Node) : Prop :=
  n.Ownable ∨ n.field = some .declaration

instance (n : Node) : Decidable n.Stated :=
  inferInstanceAs (Decidable (n.Ownable ∨ n.field = some .declaration))

/-- **Trees that are laid out well**: the nodes are laid out in a text of less than `2 ^ 64` bytes,
statements and methods are not empty and strictly smaller than the statements and callables they lie
in, and names are leaves that are not empty. -/
structure WellLaid (root : Node) : Prop where
  laid : root.LaidOut
  shrinking : ∀ outer ∈ root.nodes, outer.Encloses ∨ outer.Stated → ∀ n ∈ outer.descendants,
    n.Stated → n.span.length < outer.span.length
  statements : ∀ n ∈ root.nodes, n.Stated → n.span.Nonempty
  names : ∀ n ∈ root.nodes, n.Spells → n.span.Nonempty
  leaves : ∀ n ∈ root.nodes, n.kind = .identifier → n.children = []
  bounded : root.span.stop < Span.offsets

instance (root : Node) : Decidable root.WellLaid :=
  decidable_of_iff (root.LaidOut ∧
      (∀ outer ∈ root.nodes, outer.Encloses ∨ outer.Stated → ∀ n ∈ outer.descendants, n.Stated →
        n.span.length < outer.span.length) ∧
      (∀ n ∈ root.nodes, n.Stated → n.span.Nonempty) ∧
      (∀ n ∈ root.nodes, n.Spells → n.span.Nonempty) ∧
      (∀ n ∈ root.nodes, n.kind = .identifier → n.children.isEmpty) ∧
      root.span.stop < Span.offsets)
    ⟨fun ⟨laid, shrinking, statements, names, leaves, bounded⟩ =>
        ⟨laid, shrinking, statements, names,
          fun n hn hk => List.isEmpty_iff.1 (leaves n hn hk), bounded⟩,
      fun h => ⟨h.laid, h.shrinking, h.statements, h.names,
        fun n hn hk => List.isEmpty_iff.2 (h.leaves n hn hk), h.bounded⟩⟩

/-- A node of a tree that has a statement of its own: a statement, a method, or what an export
declares. -/
def HasStatement (root n : Node) : Prop :=
  n.Ownable ∨ ∃ e ∈ root.nodes, e.kind = .exportStatement ∧ e.child? .declaration = some n

theorem HasStatement.stated {root n : Node} (h : root.HasStatement n) : n.Stated := by
  rcases h with h | ⟨e, -, -, h⟩
  · exact .inl h
  · exact .inr (field_of_child? h)

theorem LaidOut.stop_lt {root n : Node} (h : root.LaidOut) (hbounded : root.span.stop < Span.offsets)
    (hn : n ∈ root.nodes) : n.span.stop < Span.offsets := by
  have hcontains := h.nested.contains (self_mem_nodes root) hn
  rw [Span.contains_iff] at hcontains
  exact Nat.lt_of_le_of_lt hcontains.2 hbounded

/-- Nodes of one sort are laid out in a text of less than `2 ^ 64` bytes, are not empty, and are
strictly smaller than the nodes of the sort that they lie in. -/
structure Spaced (sort : Node → Prop) (root : Node) : Prop where
  laid : root.LaidOut
  shrinking : ∀ outer ∈ root.nodes, sort outer → ∀ n ∈ outer.descendants, sort n →
    n.span.length < outer.span.length
  nonempty : ∀ n ∈ root.nodes, sort n → n.span.Nonempty
  bounded : root.span.stop < Span.offsets

namespace Spaced

variable {sort : Node → Prop} {root n m : Node}

theorem eq_of_contains (h : root.Spaced sort) (hm : m ∈ root.nodes) (hsort : sort n)
    (hsort' : sort m) (hnm : n ∈ m.nodes) (hcontains : n.span.contains m.span) : n = m := by
  rcases mem_nodes_iff.1 hnm with heq | hnm
  · exact heq
  · have hlt := h.shrinking m hm hsort' n hnm hsort
    exact absurd hlt (Nat.not_lt.2 (Span.length_le_of_contains hcontains))

/-- What contains a node is around it. -/
theorem mem_nodes_of_contains (h : root.Spaced sort) (hn : n ∈ root.nodes) (hm : m ∈ root.nodes)
    (hsort : sort n) (hsort' : sort m) (hcontains : m.span.contains n.span) : n ∈ m.nodes := by
  rcases h.laid.comparable hn hm (h.nonempty n hn hsort) n.span.contains_self hcontains
    with hnm | hmn
  · exact hnm
  · rw [h.eq_of_contains hn hsort' hsort hmn hcontains]
    exact self_mem_nodes n

theorem eq_of_key_eq (h : root.Spaced sort) (hn : n ∈ root.nodes) (hm : m ∈ root.nodes)
    (hsort : sort n) (hsort' : sort m) (hkey : n.key = m.key) : n = m := by
  have hspan : n.span = m.span := congrArg Key.span hkey
  refine h.eq_of_contains hm hsort hsort' (h.mem_nodes_of_contains hn hm hsort hsort' ?_) ?_
  · rw [hspan]
    exact m.span.contains_self
  · rw [hspan]
    exact m.span.contains_self

end Spaced

namespace WellLaid

variable {root n m : Node}

theorem spaced (h : root.WellLaid) : root.Spaced Stated where
  laid := h.laid
  shrinking := fun outer ho hs => h.shrinking outer ho (.inr hs)
  nonempty := h.statements
  bounded := h.bounded

theorem mem_nodes_of_contains (h : root.WellLaid) (hn : n ∈ root.nodes) (hm : m ∈ root.nodes)
    (hstated : n.Stated) (hstated' : m.Stated) (hcontains : m.span.contains n.span) :
    n ∈ m.nodes :=
  h.spaced.mem_nodes_of_contains hn hm hstated hstated' hcontains

theorem eq_of_key_eq (h : root.WellLaid) (hn : n ∈ root.nodes) (hm : m ∈ root.nodes)
    (hstated : n.Stated) (hstated' : m.Stated) (hkey : n.key = m.key) : n = m :=
  h.spaced.eq_of_key_eq hn hm hstated hstated' hkey

end WellLaid

end Node

/-! ## The statements of a tree -/

namespace StatementGraph

open Node

theorem exists_of_vertexByKey? {graph : StatementGraph} {key : Key} {v : VertexId}
    (h : graph.vertexByKey? key = some v) : ∃ x, graph.vertex? v = some x ∧ x.key = key := by
  obtain ⟨hlt, hkey, -⟩ := Array.findIdx?_eq_some_iff_getElem.1 h
  exact ⟨graph.vertices[v], Array.getElem?_eq_getElem hlt, by simpa using hkey⟩

/-- The statements of a graph are statements of a tree, and each is there once. -/
structure Stands (root : Node) (graph : StatementGraph) : Prop where
  nodes : ∀ x ∈ graph.vertices, ∃ n ∈ root.nodes, root.HasStatement n ∧ x.key = n.key
  distinct : ∀ u v x y, graph.vertex? u = some x → graph.vertex? v = some y → x.key = y.key → u = v

namespace Stands

variable {root s : Node} {graph : StatementGraph} {u v : VertexId} {x : Vertex} {t : Span}

theorem mem_nodes (h : graph.Stands root) (hx : graph.vertex? u = some x) :
    ∃ n ∈ root.nodes, root.HasStatement n ∧ x.key = n.key :=
  h.nodes x (Array.mem_of_getElem? hx)

theorem of_vertices_eq {graph' : StatementGraph} (h : graph.Stands root)
    (hvertices : graph'.vertices = graph.vertices) : graph'.Stands root where
  nodes := by
    rw [hvertices]
    exact h.nodes
  distinct := by
    unfold vertex?
    rw [hvertices]
    exact h.distinct

theorem addVertex (h : graph.Stands root) (hs : s ∈ root.nodes) (hown : root.HasStatement s)
    (hkey : x.key = s.key) : (graph.addVertex x).2.Stands root where
  nodes := by
    intro y hy
    rcases mem_vertices_addVertex hy with hy | rfl
    · exact h.nodes y hy
    · exact ⟨s, hs, hown, hkey⟩
  distinct := by
    unfold StatementGraph.addVertex
    split
    · exact h.distinct
    · next hnone =>
      -- The new statement is the last, and its identity is that of no other.
      have hnew (v : VertexId) (y : Vertex) (hy : graph.vertex? v = some y) : y.key ≠ x.key := by
        intro heq
        have hall := Array.findIdx?_eq_none_iff.1 hnone y (Array.mem_of_getElem? hy)
        simp [heq] at hall
      intro u v y z hy hz heq
      unfold vertex? at hy hz
      rw [Array.getElem?_push] at hy hz
      by_cases hu : u = graph.vertices.size <;> by_cases hv : v = graph.vertices.size
      · rw [hu, hv]
      · rw [if_pos hu] at hy
        rw [if_neg hv] at hz
        cases hy
        exact absurd heq.symm (hnew v z hz)
      · rw [if_neg hu] at hy
        rw [if_pos hv] at hz
        cases hz
        exact absurd heq (hnew u y hy)
      · rw [if_neg hu] at hy
        rw [if_neg hv] at hz
        exact h.distinct u v y z hy hz heq

/-- A statement is found by its key. -/
theorem vertexByKey?_eq (h : graph.Stands root) (hx : graph.vertex? u = some x) :
    graph.vertexByKey? x.key = some u := by
  cases hfound : graph.vertexByKey? x.key with
  | none =>
    have hall := Array.findIdx?_eq_none_iff.1 hfound x (Array.mem_of_getElem? hx)
    simp at hall
  | some v =>
    obtain ⟨y, hy, hkey⟩ := exists_of_vertexByKey? hfound
    rw [h.distinct v u y x hy hx hkey]

/-- **The shortest statement around a piece of text is the one found for it**: all others that the
graph has around the piece lie around it and are longer. -/
theorem findVertex?_of_shortest (h : graph.Stands root) (hlaid : root.LaidOut)
    (hbounded : root.span.stop < Span.offsets) (hx : graph.vertex? u = some x) (hkey : x.key = s.key)
    (ht : t.Nonempty) (hst : s.span.contains t)
    (hinner : ∀ y ∈ graph.vertices, y.span.contains t → ∃ n ∈ root.nodes, y.key = n.key ∧
      s ∈ n.nodes ∧ (s ∈ n.descendants → s.span.length < n.span.length)) :
    graph.findVertex? t = some u := by
  have hspan : x.span = s.span := congrArg Key.span hkey
  have hxt : x.span.contains t := by rwa [hspan]
  obtain ⟨v, hv⟩ := Option.isSome_iff_exists.1 ((findVertex?_isSome_iff graph t).2
    ⟨x, Array.mem_of_getElem? hx, hxt⟩)
  obtain ⟨y, hy, hyt, hleast, -⟩ := findVertex?_eq_some_iff.1 hv
  obtain ⟨n, hn, hnkey, hsn, hlonger⟩ := hinner y (Array.mem_of_getElem? hy) hyt
  rcases mem_nodes_iff.1 hsn with rfl | hdescendant
  · rw [hv, h.distinct v u y x hy hx (hnkey.trans hkey.symm)]
  · -- A statement farther out would be farther away.
    have hyspan : y.span = n.span := congrArg Key.span hnkey
    have hlt := Span.distance_lt_of_contains
      (hlaid.nested.contains hn (mem_nodes_of_descendant hdescendant)) hst ht
      (hlonger hdescendant) (hlaid.stop_lt hbounded hn)
    have hle := hleast x (Array.mem_of_getElem? hx) hxt
    rw [hyspan, hspan] at hle
    exact absurd hlt (Nat.not_lt.2 hle)

/-- **The innermost statement around a piece of text is the one found for it**: it lies in all others
that the graph has around the piece. -/
theorem findVertex?_of_closest {sort : Node → Prop} (h : graph.Stands root)
    (hroot : root.Spaced sort) (hx : graph.vertex? u = some x) (hkey : x.key = s.key) (hs : sort s)
    (ht : t.Nonempty) (hst : s.span.contains t)
    (hinner : ∀ y ∈ graph.vertices, y.span.contains t → ∃ n ∈ root.nodes, sort n ∧ y.key = n.key ∧
      s ∈ n.nodes) : graph.findVertex? t = some u := by
  refine h.findVertex?_of_shortest hroot.laid hroot.bounded hx hkey ht hst fun y hy hyt => ?_
  obtain ⟨n, hn, hsort, hnkey, hsn⟩ := hinner y hy hyt
  exact ⟨n, hn, hnkey, hsn, fun hdescendant => hroot.shrinking n hn hsort s hdescendant hs⟩

/-- The innermost of all statements that a tree may have around a piece of text is the one found. -/
theorem findVertex?_of_innermost (h : graph.Stands root) (hroot : root.WellLaid)
    (hx : graph.vertex? u = some x) (hkey : x.key = s.key) (hstated : s.Stated) (ht : t.Nonempty)
    (hst : s.span.contains t)
    (hinner : ∀ n ∈ root.nodes, root.HasStatement n → n.span.contains t → s ∈ n.nodes) :
    graph.findVertex? t = some u := by
  refine h.findVertex?_of_closest hroot.spaced hx hkey hstated ht hst fun y hy hyt => ?_
  obtain ⟨n, hn, hown, hnkey⟩ := h.nodes y hy
  have hyspan : y.span = n.span := congrArg Key.span hnkey
  rw [hyspan] at hyt
  exact ⟨n, hn, hown.stated, hnkey, hinner n hn hown hyt⟩

/-- **The statement found for the range of a statement is that statement.** -/
theorem findVertex?_span (h : graph.Stands root) (hroot : root.WellLaid)
    (hx : graph.vertex? u = some x) : graph.findVertex? x.span = some u := by
  obtain ⟨s, hs, hown, hkey⟩ := h.mem_nodes hx
  have hspan : x.span = s.span := congrArg Key.span hkey
  rw [hspan]
  refine h.findVertex?_of_innermost hroot hx hkey hown.stated (hroot.statements s hs hown.stated)
    s.span.contains_self fun n hn hown' hcontains => ?_
  exact hroot.mem_nodes_of_contains hs hn hown.stated hown'.stated hcontains

end Stands

end StatementGraph

end DeadCode
