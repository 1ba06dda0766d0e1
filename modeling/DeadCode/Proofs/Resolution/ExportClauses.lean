import DeadCode.Proofs.Resolution.SoleBinder

/-! # What an export clause reads

The names that an export clause lists are resolved when linking comes to its statement, in the scope
of the file. Nothing else relates that statement to what it uses: the other statements and the
callables of the file lie beside it in the text. -/

namespace DeadCode

namespace Node

/-! ## Nodes with a place in the graph -/

section Placed

variable {root n c : Node}

/-- A namespace that makes up an expression statement. It is no statement of its own. -/
def Boxed (root n : Node) : Prop :=
  n.kind = .internalModule ∧ ∃ p ∈ root.nodes, p.kind = .expressionStatement ∧ n ∈ p.children

/-- A node that may have a statement and is not such a namespace. -/
def Placed (root n : Node) : Prop :=
  root.HasStatement n ∧ ¬ root.Boxed n

theorem placed_of_kind (h : root.HasStatement n) (hkind : n.kind ≠ .internalModule) :
    root.Placed n :=
  ⟨h, fun hboxed => hkind hboxed.1⟩

/-- What is below a node has a parent there. -/
theorem exists_parent {m n : Node} (h : m ∈ n.descendants) : ∃ p ∈ n.nodes, m ∈ p.children := by
  obtain ⟨c, hc, hm⟩ := mem_descendants_iff.1 h
  rcases mem_nodes_iff.1 hm with rfl | hm
  · exact ⟨n, self_mem_nodes n, hc⟩
  · obtain ⟨p, hp, hmp⟩ := exists_parent hm
    exact ⟨p, mem_nodes_trans hp (child_mem_nodes hc), hmp⟩
termination_by n.size
decreasing_by exact size_lt_of_mem hc

theorem not_boxed_of_child (hroot : root.WellSpaced) (hn : n ∈ root.nodes)
    (hkind : n.kind ≠ .expressionStatement) (hc : c ∈ n.children) : ¬ root.Boxed c := by
  rintro ⟨hmodule, p, hp, hexpression, hcp⟩
  have hne : c.span.Nonempty := hroot.statements c (mem_nodes_trans (child_mem_nodes hc) hn)
    (.inl (.inl (by rw [hmodule]; rfl)))
  obtain rfl : n = p := hroot.laid.parent_unique hn hp hc hcp hne
  exact hkind hexpression

theorem WellSpaced.spaced_placed (h : root.WellSpaced) : root.Spaced (Placed root) where
  laid := h.laid
  shrinking := by
    intro outer houter hplaced n hn hplaced'
    obtain ⟨p, hp, hnp⟩ := exists_parent hn
    refine h.shrinking outer houter (.inr hplaced.1.stated) p hp n hnp hplaced'.1.stated ?_
    exact fun hkind hmodule => hplaced'.2 ⟨hmodule, p, mem_nodes_trans hp houter, hkind, hnp⟩
  nonempty := fun n hn hplaced => h.statements n hn hplaced.1.stated
  bounded := h.bounded

/-- Statements are told apart by their keys. -/
theorem WellSpaced.eq_of_key (h : root.WellSpaced) {m : Node} (hn : n ∈ root.nodes)
    (hm : m ∈ root.nodes) {form : Form} (hform : n.kind.form? = some form) (hinert : form ≠ .inert)
    (hkey : n.key = m.key) : n = m := by
  have hkind : n.kind = m.kind := congrArg Key.kind hkey
  have hplaced {k : Node} (hk : k.kind = n.kind) : root.Placed k := by
    rw [← hk] at hform
    refine placed_of_kind (.of_form hform) fun hmodule => ?_
    rw [hmodule] at hform
    exact hinert (Option.some.inj hform).symm
  exact h.spaced_placed.eq_of_key_eq hn hm (hplaced rfl) (hplaced hkind.symm) hkey

/-- A statement inside another one is shorter. -/
theorem WellSpaced.length_lt (h : root.WellSpaced) (hn : n ∈ root.nodes) (hstated : n.Stated)
    (hkind : n.kind ≠ .expressionStatement) {m : Node} (hm : m ∈ n.descendants)
    (hstated' : m.Stated) : m.span.length < n.span.length := by
  obtain ⟨p, hp, hmp⟩ := exists_parent hm
  by_cases hboxed : p.kind = .expressionStatement ∧ m.kind = .internalModule
  · -- A namespace is not longer than the expression statement that it makes up.
    rcases mem_nodes_iff.1 hp with rfl | hp'
    · exact absurd hboxed.1 hkind
    obtain ⟨q, hq, hpq⟩ := exists_parent hp'
    have hlt := h.shrinking n hn (.inr hstated) q hq p hpq (.inl (.inl (by rw [hboxed.1]; rfl)))
      fun _ => by rw [hboxed.1]; decide
    have hcontains := h.laid.nested p (mem_nodes_trans hp hn) m hmp
    rw [Span.contains_iff] at hcontains
    unfold Span.length at hlt ⊢
    omega
  · exact h.shrinking n hn (.inr hstated) p hp m hmp hstated' fun hp hm => hboxed ⟨hp, hm⟩

/-- **The statement found for the range of a statement is that statement**, if it is neither an
expression statement nor a namespace. -/
theorem WellSpaced.findVertex?_span (h : root.WellSpaced) {graph : StatementGraph}
    (hstands : graph.Stands root) (hn : n ∈ root.nodes) (hstated : n.Stated)
    (hkind : n.kind ≠ .expressionStatement) (hmodule : n.kind ≠ .internalModule) {u : VertexId}
    {x : Vertex} (hx : graph.vertex? u = some x) (hkey : x.key = n.key) :
    graph.findVertex? n.span = some u := by
  have hne := h.statements n hn hstated
  refine hstands.findVertex?_of_shortest h.laid h.bounded hx hkey hne n.span.contains_self
    fun y hy hyn => ?_
  obtain ⟨m, hm, hown, hmkey⟩ := hstands.nodes y hy
  have hspan : y.span = m.span := congrArg Key.span hmkey
  rw [hspan] at hyn
  refine ⟨m, hm, hmkey, ?_, fun hnm => ?_⟩
  · rcases h.laid.comparable hn hm hne n.span.contains_self hyn with hnm | hmn
    · exact hnm
    rcases mem_nodes_iff.1 hmn with rfl | hmn
    · exact self_mem_nodes m
    have hlt := h.length_lt hn hstated hkind hmn hown.stated
    rw [Span.contains_iff] at hyn
    unfold Span.length at hlt
    omega
  · obtain ⟨p, hp, hnp⟩ := exists_parent hnm
    exact h.shrinking m hm (.inr hown.stated) p hp n hnp hstated fun _ => hmodule

end Placed

/-! ## Names listed in a clause -/

/-- **A name is listed in an export clause**: in a specifier of a statement that exports neither a
declaration nor a value nor what another module exports. -/
structure Specifies (s specifier name : Node) : Prop where
  kind : s.kind = .exportStatement
  declaration : s.child? .declaration = none
  value : s.child? .value = none
  origin : s.child? .source = none
  clause : ∃ clause ∈ s.namedChildren, clause.kind = .exportClause ∧
    specifier ∈ clause.namedChildren
  part : specifier.kind = .other "export_specifier"
  listed : specifier.child? .name = some name
  identifier : name.kind = .identifier
  leaf : name.children = []

namespace Specifies

variable {root s specifier name : Node}

theorem mem_nodes (h : s.Specifies specifier name) : name ∈ s.nodes := by
  obtain ⟨clause, hclause, -, hspecifier⟩ := h.clause
  exact mem_nodes_trans (child_mem_nodes (mem_children_of_child? h.listed))
    (mem_nodes_trans (child_mem_nodes (mem_children_of_namedChildren hspecifier))
      (child_mem_nodes (mem_children_of_namedChildren hclause)))

theorem nonempty (h : s.Specifies specifier name) (hnames : root.NamesFit) (hs : s ∈ root.nodes) :
    name.span.Nonempty :=
  hnames.refers name (mem_nodes_trans h.mem_nodes hs) (.inl (.inl h.identifier))

theorem placed (h : s.Specifies specifier name) : root.Placed s :=
  placed_of_kind (.inl (.inl (by rw [h.kind]; rfl))) (by rw [h.kind]; decide)

/-- What lies around the same text lies in the same child. -/
theorem mem_nodes_of_child {n c m : Node} {t : Span} (hlaid : root.LaidOut) (hn : n ∈ root.nodes)
    (hc : c ∈ n.children) (ht : t.Nonempty) (hct : c.span.contains t) (hm : m ∈ n.descendants)
    (hmt : m.span.contains t) : m ∈ c.nodes := by
  obtain ⟨k, hk, hmk⟩ := mem_descendants_iff.1 hm
  have hkn : k ∈ root.nodes := mem_nodes_trans (child_mem_nodes hk) hn
  obtain rfl : c = k := hlaid.child_unique hn hc hk ht hct
    (Span.contains_trans (hlaid.nested.contains hkn hmk) hmt)
  exact hmk

/-- **The statement is the innermost one around a name that it lists.** -/
theorem innermost (h : s.Specifies specifier name) (hlaid : root.LaidOut) (hnames : root.NamesFit)
    (hs : s ∈ root.nodes) {m : Node} (hm : m ∈ root.nodes) (hstatement : root.HasStatement m)
    (hcontains : m.span.contains name.span) : s ∈ m.nodes := by
  obtain ⟨clause, hclause, hkind, hspecifier⟩ := h.clause
  have hclause := mem_children_of_namedChildren hclause
  have hspecifier := mem_children_of_namedChildren hspecifier
  have hname := mem_children_of_child? h.listed
  have hcs : clause ∈ root.nodes := mem_nodes_trans (child_mem_nodes hclause) hs
  have hss : specifier ∈ root.nodes := mem_nodes_trans (child_mem_nodes hspecifier) hcs
  have hns : name ∈ root.nodes := mem_nodes_trans (child_mem_nodes hname) hss
  have hne := h.nonempty hnames hs
  have hsc : specifier.span.contains name.span := hlaid.nested specifier hss name hname
  have hcc : clause.span.contains name.span :=
    Span.contains_trans (hlaid.nested clause hcs specifier hspecifier) hsc
  have hscontains : s.span.contains name.span :=
    Span.contains_trans (hlaid.nested s hs clause hclause) hcc
  -- What an `export` statement declares is a child of it, so none of the parts of a clause is.
  have hpart {p c : Node} (hp : p ∈ root.nodes) (hc : c ∈ p.children)
      (hcontains : c.span.contains name.span) (hkind : ¬ c.Ownable)
      (hdeclaration : p.kind = .exportStatement → p.child? .declaration = none) (heq : m = c) :
      False := by
    subst heq
    rcases hstatement with hown | ⟨e, he, hexport, hfound⟩
    · exact hkind hown
    · obtain rfl : p = e := hlaid.parent_unique hp he hc (mem_children_of_child? hfound)
        (hne.of_contains hcontains)
      rw [hdeclaration hexport] at hfound
      cases hfound
  rcases hlaid.comparable hs hm hne hscontains hcontains with hmem | hmem
  · exact hmem
  rcases mem_nodes_iff.1 hmem with rfl | hmem
  · exact self_mem_nodes m
  exfalso
  have hmem := mem_nodes_of_child hlaid hs hclause hne hcc hmem hcontains
  rcases mem_nodes_iff.1 hmem with heq | hmem
  · refine hpart hs hclause hcc ?_ (fun _ => h.declaration) heq
    simp [Ownable, hkind, Kind.form?]
  have hmem := mem_nodes_of_child hlaid hcs hspecifier hne hsc hmem hcontains
  rcases mem_nodes_iff.1 hmem with heq | hmem
  · refine hpart hcs hspecifier hsc ?_ (fun hexport => ?_) heq
    · simp [Ownable, h.part, Kind.form?]
    · rw [hkind] at hexport
      cases hexport
  have hmem := mem_nodes_of_child hlaid hss hname hne name.span.contains_self hmem hcontains
  rcases mem_nodes_iff.1 hmem with heq | hmem
  · refine hpart hss hname name.span.contains_self ?_ (fun hexport => ?_) heq
    · simp [Ownable, h.identifier, Kind.form?]
    · rw [h.part] at hexport
      cases hexport
  · -- A name is a leaf.
    rw [descendants, h.leaf] at hmem
    cases hmem

end Specifies

/-- A node lies in another statement at the top of a file. -/
def Beside (root s n : Node) : Prop :=
  ∃ c ∈ root.namedChildren, c ≠ s ∧ n ∈ c.nodes

namespace Beside

variable {root s n : Node}

theorem mem_nodes (h : Beside root s n) : n ∈ root.nodes := by
  obtain ⟨c, hc, -, hn⟩ := h
  exact mem_nodes_trans hn (child_mem_nodes (mem_children_of_namedChildren hc))

theorem child {c : Node} (h : Beside root s n) (hc : c ∈ n.children) : Beside root s c := by
  obtain ⟨t, ht, hne, hn⟩ := h
  exact ⟨t, ht, hne, mem_nodes_trans (child_mem_nodes hc) hn⟩

/-- What is beside a statement is not in it. -/
theorem not_contains (h : Beside root s n) (hlaid : root.LaidOut) (hs : s ∈ root.namedChildren)
    (hn : n.span.Nonempty) : ¬ s.span.contains n.span := by
  intro hcontains
  obtain ⟨c, hc, hne, hmem⟩ := h
  have hc := mem_children_of_namedChildren hc
  exact hne (hlaid.child_unique (self_mem_nodes root) hc (mem_children_of_namedChildren hs) hn
    (hlaid.nested.contains (child_mem_nodes hc) hmem) hcontains)

/-- The other statements of a file are beside a statement. -/
theorem of_top {c : Node} (hroot : root.WellSpaced) (hc : c ∈ root.namedChildren) (hne : c ≠ s) :
    Beside root s c ∧ ¬ root.Boxed c :=
  ⟨⟨c, hc, hne, self_mem_nodes c⟩,
    not_boxed_of_child hroot (self_mem_nodes root) hroot.program (mem_children_of_namedChildren hc)⟩

end Beside

/-! ## Declarations in export statements -/

/-- An `export` statement declares what it exports. -/
def Wraps (s d : Node) : Prop :=
  s.kind = .exportStatement ∧ s.child? .declaration = some d

namespace Wraps

variable {root s d : Node}

theorem mem_children (h : s.Wraps d) : d ∈ s.children :=
  mem_children_of_child? h.2

theorem ownable (h : s.Wraps d) : s.Ownable :=
  .inl (by rw [h.1]; rfl)

theorem nonempty (h : s.Wraps d) (hroot : root.WellSpaced) (hs : s ∈ root.nodes) :
    s.span.Nonempty :=
  hroot.statements s hs (.inl h.ownable)

theorem placed (h : s.Wraps d) (hroot : root.WellSpaced) (hs : s ∈ root.nodes) : root.Placed d :=
  ⟨.inr ⟨s, hs, h⟩, not_boxed_of_child hroot hs (by rw [h.1]; decide) h.mem_children⟩

/-- What lies in the declaration and has a statement is shorter than the `export` statement. -/
theorem length_lt (h : s.Wraps d) (hroot : root.WellSpaced) (hs : s ∈ root.nodes) {n : Node}
    (hn : n ∈ d.nodes) (hstated : n.Stated) : n.span.length < s.span.length :=
  hroot.length_lt hs (.inl h.ownable) (by rw [h.1]; decide)
    (mem_descendants_iff.2 ⟨d, h.mem_children, hn⟩) hstated

end Wraps

/-- **A node lies apart from a statement**: beside it, or in the declaration that it `carried` into
the graph. -/
def Apart (root s : Node) (carried : Option Node) (n : Node) : Prop :=
  Beside root s n ∨ ∃ d ∈ carried, n ∈ d.nodes

namespace Apart

variable {root s n c : Node} {carried : Option Node}

theorem mem_nodes (h : Apart root s carried n) (hs : s ∈ root.namedChildren)
    (hwraps : ∀ d ∈ carried, s.Wraps d) : n ∈ root.nodes := by
  rcases h with hbeside | ⟨d, hd, hn⟩
  · exact hbeside.mem_nodes
  · exact mem_nodes_trans hn (mem_nodes_trans (child_mem_nodes (hwraps d hd).mem_children)
      (child_mem_nodes (mem_children_of_namedChildren hs)))

theorem child (h : Apart root s carried n) (hc : c ∈ n.children) : Apart root s carried c :=
  h.imp (·.child hc) fun ⟨d, hd, hn⟩ => ⟨d, hd, mem_nodes_trans (child_mem_nodes hc) hn⟩

theorem of_top (hroot : root.WellSpaced) (hc : c ∈ root.namedChildren) (hne : c ≠ s) :
    Apart root s carried c ∧ ¬ root.Boxed c :=
  (Beside.of_top hroot hc hne).imp_left .inl

theorem of_none (h : Apart root s none n) : Beside root s n :=
  h.resolve_right (by simp)

end Apart

end Node

namespace Builder

open Node

/-! ## A statement that is left alone -/

/-- **A statement uses nothing apart from `old` edges**, and these are there. All statements are
placed nodes of a tree, among them the declaration that the statement has `carried` there, and the
registered callables lie apart from the statement. -/
structure Spared (root s : Node) (carried : Option Node) (old : Edge → Prop) (b : Builder) :
    Prop where
  positive : 0 < b.scopes.size
  stands : b.graph.Stands root
  placed : ∀ x ∈ b.graph.vertices, ∃ n ∈ root.nodes, root.Placed n ∧ x.key = n.key
  spared : ∀ e ∈ b.graph.edges, ∃ x, b.graph.vertex? e.source = some x ∧
    (e.relation.kind.isUsage → x.key = s.key → old e)
  kept : ∀ e, old e → e ∈ b.graph.edges
  present : ∀ d ∈ carried, ∃ v, b.StandsFor v d
  callables : ∀ entry ∈ b.callables, Apart root s carried entry.2.node

namespace Spared

variable {root s n : Node} {carried : Option Node} {old : Edge → Prop} {b : Builder} {u : VertexId}
  {x : Vertex}

/-- At first there is nothing to spare. -/
theorem start (root s : Node) (path : Path) (ambient : List String) :
    (Builder.start path ambient).Spared root s none fun _ => False where
  positive := Nat.one_pos
  stands := ⟨by simp [Builder.start], by simp [Builder.start, StatementGraph.vertex?]⟩
  placed := by simp [Builder.start]
  spared := by simp [Builder.start]
  kept := fun _ h => h.elim
  present := by simp
  callables := by simp [Builder.start]

/-- The edges of the statement are those that are spared. -/
theorem old_iff (h : b.Spared root s carried old) {e : Edge} (hs : b.StandsFor e.source s)
    (husage : e.relation.kind.isUsage) : e ∈ b.graph.edges ↔ old e := by
  refine ⟨fun he => ?_, h.kept e⟩
  obtain ⟨x, hx, hold⟩ := h.spared e he
  obtain ⟨y, hy, hkey⟩ := hs
  obtain rfl : x = y := Option.some.inj (hx.symm.trans hy)
  exact hold husage hkey

/-- The innermost placed node around a piece of text is the one whose statement is found. -/
theorem findVertex?_of_innermost (h : b.Spared root s carried old) (hroot : root.WellSpaced)
    {t : Span} (hx : b.graph.vertex? u = some x) (hkey : x.key = n.key) (hn : root.Placed n)
    (ht : t.Nonempty) (hnt : n.span.contains t)
    (hinner : ∀ m ∈ root.nodes, root.Placed m → m.span.contains t → n ∈ m.nodes) :
    b.graph.findVertex? t = some u := by
  refine h.stands.findVertex?_of_closest hroot.spaced_placed hx hkey hn ht hnt fun y hy hyt => ?_
  obtain ⟨m, hm, hplaced, hmkey⟩ := h.placed y hy
  have hspan : y.span = m.span := congrArg Key.span hmkey
  rw [hspan] at hyt
  exact ⟨m, hm, hplaced, hmkey, hinner m hm hplaced hyt⟩

/-- A statement is found by its range. -/
theorem findVertex?_span (h : b.Spared root s carried old) (hroot : root.WellSpaced)
    (hx : b.graph.vertex? u = some x) : b.graph.findVertex? x.span = some u := by
  obtain ⟨n, hn, hplaced, hkey⟩ := h.placed x (Array.mem_of_getElem? hx)
  have hspaced := hroot.spaced_placed
  have hspan : x.span = n.span := congrArg Key.span hkey
  rw [hspan]
  refine h.findVertex?_of_innermost hroot hx hkey hplaced (hspaced.nonempty n hn hplaced)
    n.span.contains_self fun m hm hplaced' hcontains => ?_
  exact hspaced.mem_nodes_of_contains hn hm hplaced hplaced' hcontains

/-- **The statement found for a node that lies apart is another one.** -/
theorem not_standsFor_of_findVertex? (h : b.Spared root s carried old) (hroot : root.WellSpaced)
    (hs : s ∈ root.namedChildren) (hwraps : ∀ d ∈ carried, s.Wraps d) (hn : Apart root s carried n)
    (hne : n.span.Nonempty) (hfound : b.graph.findVertex? n.span = some u) : ¬ b.StandsFor u s := by
  rintro ⟨x, hx, hkey⟩
  obtain ⟨y, hy, hcontains, hleast, -⟩ := StatementGraph.findVertex?_eq_some_iff.1 hfound
  obtain rfl : x = y := Option.some.inj (hx.symm.trans hy)
  have hspan : x.span = s.span := congrArg Key.span hkey
  rw [hspan] at hcontains hleast
  rcases hn with hbeside | ⟨d, hd, hmem⟩
  · -- It lies around the node, so it is not the one beside.
    exact hbeside.not_contains hroot.laid hs hne hcontains
  · -- The declaration around the node is closer to it.
    have hsmem : s ∈ root.nodes := child_mem_nodes (mem_children_of_namedChildren hs)
    have hdmem : d ∈ root.nodes := mem_nodes_trans (child_mem_nodes (hwraps d hd).mem_children) hsmem
    obtain ⟨v, z, hz, hzkey⟩ := h.present d hd
    have hzspan : z.span = d.span := congrArg Key.span hzkey
    have hdn : d.span.contains n.span := hroot.laid.nested.contains hdmem hmem
    have hle := hleast z (Array.mem_of_getElem? hz) (by rwa [hzspan])
    have hlt := Span.distance_lt_of_contains
      (hroot.laid.nested s hsmem d (hwraps d hd).mem_children) hdn hne
      ((hwraps d hd).length_lt hroot hsmem (self_mem_nodes d)
        ((hwraps d hd).placed hroot hsmem).1.stated)
      (hroot.laid.stop_lt hroot.bounded hsmem)
    rw [hzspan] at hle
    exact absurd hlt (Nat.not_lt.2 hle)

/-- Adding a statement spares the edges. -/
theorem addVertex (h : b.Spared root s carried old) (hn : n ∈ root.nodes) (hplaced : root.Placed n)
    (hkey : x.key = n.key) :
    Spared root s carried old { b with graph := (b.graph.addVertex x).2 } :=
  { h with
    stands := h.stands.addVertex hn hplaced.1 hkey
    placed := by
      intro y hy
      rcases StatementGraph.mem_vertices_addVertex hy with hy | rfl
      · exact h.placed y hy
      · exact ⟨n, hn, hplaced, hkey⟩
    spared := by
      rw [StatementGraph.edges_addVertex]
      intro e he
      obtain ⟨y, hy, hold⟩ := h.spared e he
      exact ⟨y, b.graph.extends_addVertex x _ _ hy, hold⟩
    kept := by
      rw [StatementGraph.edges_addVertex]
      exact h.kept
    present := fun d hd => (h.present d hd).imp fun _ hv =>
      hv.mono ⟨b.graph.extends_addVertex x, Nat.le_refl _⟩ }

/-- Relating statements spares the edges of others. -/
theorem relate (h : b.Spared root s carried old) {new : Edge → Prop} {v : VertexId}
    {relation : Relation} {id : EdgeId} {graph : StatementGraph}
    (hconnect : b.graph.connect u v relation = .ok (id, graph)) (hold : ∀ e, old e → new e)
    (hkept : ∀ e, new e → old e ∨ e = ⟨u, v, relation⟩)
    (hspared : relation.kind.isUsage → b.StandsFor u s → new ⟨u, v, relation⟩) :
    Spared root s carried new { b with graph } := by
  obtain ⟨hu, -, hvertices, hedges⟩ := StatementGraph.of_connect hconnect
  have hvertex (w : VertexId) : graph.vertex? w = b.graph.vertex? w := by
    rw [StatementGraph.vertex?, hvertices]
    rfl
  refine { h with
    stands := h.stands.of_vertices_eq hvertices, placed := ?_, spared := ?_, kept := ?_
    present := fun d hd => (h.present d hd).imp fun _ hv =>
      hv.mono ⟨StatementGraph.extends_of_connect hconnect, Nat.le_refl _⟩ }
  · rw [hvertices]
    exact h.placed
  · intro e he
    rw [hvertex]
    rcases (hedges e).1 he with he | rfl
    · obtain ⟨x, hx, hused⟩ := h.spared e he
      exact ⟨x, hx, fun husage hkey => hold e (hused husage hkey)⟩
    · refine ⟨b.graph.vertices[u], Array.getElem?_eq_getElem hu, fun husage hkey => ?_⟩
      exact hspared husage ⟨_, Array.getElem?_eq_getElem hu, hkey⟩
  · exact fun e he => (hedges e).2 ((hkept e he).imp_left (h.kept e))

/-- A statement is related to another: if it is the one that is spared, it uses nothing by that. -/
theorem connect (h : b.Spared root s carried old) {v : VertexId} {relation : Relation} {id : EdgeId}
    {graph : StatementGraph} (hconnect : b.graph.connect u v relation = .ok (id, graph))
    (hspared : relation.kind.isUsage → ¬ b.StandsFor u s) :
    Spared root s carried old { b with graph } :=
  h.relate hconnect (fun _ he => he) (fun _ he => .inl he) fun husage hu =>
    absurd hu (hspared husage)

theorem of_scopes (h : b.Spared root s carried old) {scopes : ScopeTree}
    (hsize : b.scopes.size ≤ scopes.size) : Spared root s carried old { b with scopes } :=
  { h with positive := Nat.lt_of_lt_of_le h.positive hsize }

theorem declare (h : b.Spared root s carried old) {scope target : ScopeId} {binding : Binding}
    {hoist : Hoist} {scopes : ScopeTree}
    (hdeclare : b.scopes.declare scope binding hoist = .ok (target, scopes)) :
    Spared root s carried old { b with scopes } :=
  h.of_scopes (Nat.le_of_eq (ScopeTree.size_of_frame_eq (ScopeTree.frame_of_declare hdeclare)).symm)

end Spared

end Builder

namespace Build

open Builder Node

/-- **What lies apart from a statement leaves its uses alone.** -/
theorem upkeep_spared {source : String} {root s : Node} {carried : Option Node}
    {old : Edge → Prop} (hroot : root.WellSpaced) (hgrammar : root.Grammatical)
    (hnames : root.NamesFit) (hs : s ∈ root.namedChildren) (hwraps : ∀ d ∈ carried, s.Wraps d) :
    FileUpkeep source root (Apart root s carried)
      (fun n => Apart root s carried n ∧ ¬ root.Boxed n) (fun _ => True)
      (Spared root s carried old) where
  child := fun n c hn hc => hn.child hc
  noted := by
    intro b b' hb hgraph hscopes hcallables
    refine ⟨?_, ?_, ?_, ?_, ?_, ?_, ?_⟩
    · rw [hscopes]
      exact hb.positive
    · rw [hgraph]
      exact hb.stands
    · rw [hgraph]
      exact hb.placed
    · rw [hgraph]
      exact hb.spared
    · rw [hgraph]
      exact hb.kept
    · unfold StandsFor
      rw [hgraph]
      exact hb.present
    · rw [hcallables]
      exact hb.callables
  relate := by
    intro b n u v relation id graph hb hn hrefers _ hfound hconnect
    have hne := hnames.refers n (hn.mem_nodes hs hwraps) hrefers
    exact hb.connect hconnect fun _ =>
      hb.not_standsFor_of_findVertex? hroot hs hwraps hn hne hfound
  method := fun b n x hb hn hkind hkey _ =>
    hb.addVertex (hn.mem_nodes hs hwraps)
      (placed_of_kind (.inl (.inr hkind)) (by rw [hkind]; decide)) hkey
  own := fun b u v id graph hb hconnect => hb.connect hconnect fun h => by cases h
  register := by
    intro b n scope owner hb hn
    refine { hb with callables := fun entry hentry => ?_ }
    rcases mem_setCallable hentry with rfl | hentry
    · exact hn
    · exact hb.callables entry hentry
  store := by
    intro b scope chain update hb _
    refine hb.of_scopes (Nat.le_of_eq (ScopeTree.size_of_frame_eq ?_).symm)
    exact ScopeTree.frame_updateChain ..
  grammatical := hgrammar
  mem_nodes := fun n hn => hn.1.mem_nodes hs hwraps
  region_of_within := fun n hn => hn.1
  nested := by
    intro n c hn hholds hc
    refine ⟨hn.1.child hc, not_boxed_of_child hroot (hn.1.mem_nodes hs hwraps) (fun hkind => ?_) hc⟩
    rw [hkind] at hholds
    cases hholds
  carried := by
    intro n c hn hkind hc
    have hmem := mem_children_of_child? hc
    exact ⟨hn.1.child hmem,
      not_boxed_of_child hroot (hn.1.mem_nodes hs hwraps) (by rw [hkind]; decide) hmem⟩
  vertex := fun b n x hb hn hstatement hkey _ =>
    hb.addVertex (hn.1.mem_nodes hs hwraps) ⟨hstatement, hn.2⟩ hkey
  standing_exported := fun _ _ _ _ _ => trivial
  standing_labeled := fun _ _ _ _ _ => trivial
  exported := by
    intro b n u v name id graph hb hn hexport hu hconnect
    refine hb.connect hconnect fun _ hstands => ?_
    obtain ⟨x, hx, hkey⟩ := hu
    obtain ⟨y, hy, hkey'⟩ := hstands
    obtain rfl : x = y := Option.some.inj (hx.symm.trans hy)
    have hspan : s.span = n.span := congrArg Key.span (hkey'.symm.trans hkey)
    have hstated : n.Stated := .inl (.inl (by rw [hexport]; rfl))
    rcases hn.1 with hbeside | ⟨d, hd, hmem⟩
    · refine hbeside.not_contains hroot.laid hs (hroot.statements n hbeside.mem_nodes hstated) ?_
      rw [hspan]
      exact n.span.contains_self
    · have hlt := (hwraps d hd).length_lt hroot
        (child_mem_nodes (mem_children_of_namedChildren hs)) hmem hstated
      rw [hspan] at hlt
      exact Nat.lt_irrefl _ hlt
  host_lt := fun b hb => hb.positive
  scope := fun b parent kind scope scopes hb hadd =>
    hb.of_scopes (Nat.le_of_lt (ScopeTree.lt_size_of_addScope hadd))
  inner := fun b scope binding target scopes hb _ hdeclare => hb.declare hdeclare
  lexical := fun b n v binding target scopes hb _ _ _ _ _ _ hdeclare => hb.declare hdeclare
  hoisted := fun b n v scope binding target scopes hb _ _ _ _ _ hdeclare => hb.declare hdeclare
  entered := by
    intro b entry c hb hentry hc
    have hapart := (hb.callables entry hentry).child hc
    refine ⟨hapart, fun hkind => ⟨hapart, fun hboxed => ?_⟩⟩
    rw [Boxed, hkind] at hboxed
    cases hboxed.1
  returns := fun b u v id graph hb hconnect => hb.connect hconnect fun h => by cases h

/-! ## Linking the statement itself -/

section Reads

variable {source l : String} {root s specifier name n : Node} {b b' : Builder} {scope : ScopeId}

/-- The round of a loop for one of its elements. -/
theorem exists_of_mem_forM {γ : Type} {adds : Edge → Prop} {xs : List γ} {visit : γ → Build Unit}
    {x : γ} (hx : x ∈ xs)
    (h : ∀ y ∈ xs, ∀ b₁ b₂, Relates adds b b₁ → visit y b₁ = .ok ((), b₂) → Relates adds b₁ b₂)
    (hrun : xs.forM visit b = .ok ((), b')) :
    ∃ b₁ b₂, Relates adds b b₁ ∧ visit x b₁ = .ok ((), b₂) ∧ Relates adds b₂ b' := by
  induction xs generalizing b with
  | nil => cases hx
  | cons y rest ih =>
    rw [List.forM_eq_forM, List.forM_cons] at hrun
    obtain ⟨_, b₁, hy, hrest⟩ := exists_of_bind_ok hrun
    have hfirst := h y List.mem_cons_self b b₁ (.refl b) hy
    have hlater (z : γ) (hz : z ∈ rest) (b₂ b₃ : Builder) (hr : Relates adds b₁ b₂)
        (hvisit : visit z b₂ = .ok ((), b₃)) : Relates adds b₂ b₃ :=
      h z (List.mem_cons_of_mem _ hz) b₂ b₃ (hfirst.trans hr) hvisit
    rcases List.mem_cons.1 hx with rfl | hx
    · exact ⟨b, b₁, .refl b, hy, relates_of_forM hlater hrest⟩
    · obtain ⟨b₂, b₃, h₂, hvisit, h₃⟩ := ih hx hlater hrest
      exact ⟨b₂, b₃, hfirst.trans h₂, hvisit, h₃⟩

/-- What a reference adds. -/
theorem reference_ok {kind : RelationKind} (h : reference source n scope kind b = .ok ((), b')) :
    Relates (fun e => ∃ name, e.relation = .named kind name ∧ b.Refers scope n name e) b b' ∧
      ∀ name target, n.text? source = some name → b.scopes.declarationOf? scope name = some target →
        ∃ e ∈ b'.graph.edges, e.relation = .named kind name ∧ b.Joins n target e := by
  unfold reference at h
  cases htext : n.text? source with
  | none =>
    rw [htext] at h
    cases h
    exact ⟨.refl b, by simp⟩
  | some name =>
    rw [htext] at h
    obtain ⟨hrelates, hedge⟩ := relateDeclaration_ok h
    refine ⟨hrelates.imp fun e he => ⟨name, he⟩, ?_⟩
    rintro _ target ⟨⟩ htarget
    exact hedge target htarget

/-- An edge for a name that a clause lists. -/
def ReadsListed (b : Builder) (scope : ScopeId) (e : Edge) : Prop :=
  ∃ n name, e.relation = .named .read name ∧ b.Refers scope n name e

/-- **The names of a clause are read one after another.** -/
theorem exportedNames_ok (hspec : s.Specifies specifier name)
    (h : exportedNames source s scope b = .ok ((), b')) :
    Relates (ReadsListed b scope) b b' ∧
      ∀ target, name.text? source = some l → b.scopes.declarationOf? scope l = some target →
        ∃ e ∈ b'.graph.edges, e.relation = .named .read l ∧ b.Joins name target e := by
  -- Reading a name adds such edges, wherever in the loops it happens.
  have hread (specifier : Node) (b₁ b₂ : Builder) (h₁ : Relates (ReadsListed b scope) b b₁)
      (hrun : (specifier.child? .name).forM (fun name => reference source name scope .read) b₁ =
        .ok ((), b₂)) : Relates (ReadsListed b scope) b₁ b₂ := by
    cases hname : specifier.child? .name with
    | none =>
      rw [hname] at hrun
      cases hrun
      exact .refl b₁
    | some n =>
      rw [hname] at hrun
      refine (reference_ok hrun).1.imp ?_
      rintro e ⟨found, hrelation, hrefers⟩
      exact ⟨n, found, hrelation, h₁.refers hrefers⟩
  have hclause (clause : Node) (b₁ b₂ : Builder) (h₁ : Relates (ReadsListed b scope) b b₁)
      (hrun : clause.namedChildren.forM (fun specifier => (specifier.child? .name).forM fun name =>
        reference source name scope .read) b₁ = .ok ((), b₂)) :
      Relates (ReadsListed b scope) b₁ b₂ :=
    relates_of_forM (fun specifier _ b₂ b₃ h₂ => hread specifier b₂ b₃ (h₁.trans h₂)) hrun
  rw [exportedNames, hspec.origin] at h
  refine ⟨relates_of_forM (fun clause _ b₁ b₂ => hclause clause b₁ b₂) h,
    fun target htext htarget => ?_⟩
  obtain ⟨clause, hmem, hkind, hspecifier⟩ := hspec.clause
  obtain ⟨b₁, b₄, h₁, hrun, h₄⟩ := exists_of_mem_forM
    (List.mem_filter.2 ⟨hmem, decide_eq_true hkind⟩) (fun clause _ b₁ b₂ => hclause clause b₁ b₂) h
  obtain ⟨b₂, b₃, h₂, hrun, h₃⟩ := exists_of_mem_forM hspecifier
    (fun specifier _ b₂ b₃ h₂ => hread specifier b₂ b₃ (h₁.trans h₂)) hrun
  rw [hspec.listed] at hrun
  have h₁₂ := h₁.trans h₂
  obtain ⟨e, he, hrelation, hjoins⟩ := (reference_ok hrun).2 l target htext (by rwa [h₁₂.scopes])
  exact ⟨e, h₄.old e (h₃.old e he), hrelation, h₁₂.joins hjoins⟩

theorem withChild_of_none {α : Type} {field : Field} {otherwise : Build α}
    {visit : (c : Node) → c.size < n.size → Build α} (h : n.child? field = none) :
    n.withChild field otherwise visit = otherwise := by
  unfold Node.withChild
  split
  · next hfound =>
    rw [h] at hfound
    cases hfound
  · rfl

/-- Linking a statement with a clause adds the statement and resolves the names of the clause. -/
theorem exists_of_statement_ok (hspec : s.Specifies specifier name)
    (h : statement source s scope none b = .ok ((), b')) :
    ∃ u x, x.key = s.key ∧ StandsFor { b with graph := (b.graph.addVertex x).2 } u s ∧
      exportedNames source s scope { b with graph := (b.graph.addVertex x).2 } = .ok ((), b') := by
  rw [statement, hspec.kind] at h
  obtain ⟨u, b₁, hvertex, h⟩ := exists_of_bind_ok h
  obtain ⟨_, b₂, howner, h⟩ := exists_of_bind_ok h
  cases howner
  have hadded : Keeps (fun _ => True) b (statementVertex source s scope) _ :=
    Keeps.of_addVertex trivial
  obtain ⟨rfl, hstands⟩ := (hadded u b₁ hvertex).2
  refine ⟨u, _, rfl, hstands, ?_⟩
  dsimp only at h
  rw [withChild_of_none hspec.declaration, hspec.value] at h
  exact h

/-- **What a statement with a clause reads**: the declarations of the names that it lists, as far as
they are known when it is linked. -/
theorem reads_of_statement (hspec : s.Specifies specifier name) (htext : name.text? source = some l)
    (hroot : root.WellSpaced) (hnames : root.NamesFit) (hs : s ∈ root.namedChildren)
    (hb : b.Spared root s none fun _ => False)
    (h : statement source s scope none b = .ok ((), b')) :
    b.Later (Spared root s none (· ∈ b'.graph.edges)) b' ∧ ∃ u, b'.StandsFor u s ∧
      (∀ e ∈ b'.graph.edges, e.source = u → e.relation.kind.isUsage → ∃ name,
        e.relation = .named .read name ∧ b.scopes.declarationOf? scope name = some e.target) ∧
      ∀ v, b.scopes.declarationOf? scope l = some v →
        ⟨u, v, .named .read l⟩ ∈ b'.graph.edges := by
  obtain ⟨u, x, hkey, hu, hrun⟩ := exists_of_statement_ok hspec h
  obtain ⟨hrelates, hedge⟩ := exportedNames_ok hspec hrun
  have hsmem : s ∈ root.nodes := child_mem_nodes (mem_children_of_namedChildren hs)
  have h₁ := hb.addVertex hsmem hspec.placed hkey
  have htarget {n : Node} {v : VertexId} {e : Edge}
      (hjoins : Joins { b with graph := (b.graph.addVertex x).2 } n v e) : e.target = v := by
    obtain ⟨-, y, hy, hfound⟩ := hjoins
    exact Option.some.inj (hfound.symm.trans (h₁.findVertex?_span hroot hy))
  have hgrows : b.Grows { b with graph := (b.graph.addVertex x).2 } :=
    ⟨b.graph.extends_addVertex x, Nat.le_refl _⟩
  refine ⟨⟨hgrows.trans hrelates.grows, ?_, h₁.stands.of_vertices_eq hrelates.vertices, ?_,
    fun e he => ?_, fun _ he => he, by simp, ?_⟩, u, hu.mono hrelates.grows,
    fun e he hsource husage => ?_, fun v hv => ?_⟩
  · rw [hrelates.scopes]
    exact hb.positive
  · rw [hrelates.vertices]
    exact h₁.placed
  · have hvertex : ∃ y, (b.graph.addVertex x).2.vertex? e.source = some y := by
      rcases hrelates.new e he with he | ⟨_, _, -, _, -, hjoins⟩
      · exact (h₁.spared e he).imp fun _ hy => hy.1
      · exact (StatementGraph.exists_of_findVertex? hjoins.1).imp fun _ hy => hy.1
    exact hvertex.imp fun y hy => ⟨hrelates.grows.graph _ _ hy, fun _ _ => he⟩
  · rw [hrelates.callables]
    exact hb.callables
  · subst hsource
    rcases hrelates.new e he with he | ⟨_, found, hrelation, v, hv, hjoins⟩
    · exact ((h₁.old_iff hu husage).1 he).elim
    · rw [htarget hjoins]
      exact ⟨found, hrelation, hv⟩
  · obtain ⟨⟨source, target, relation⟩, he, rfl, hjoins⟩ := hedge v htext hv
    obtain rfl : target = v := htarget hjoins
    -- The edge starts at the innermost statement around the name.
    obtain ⟨y, hy, hykey⟩ := hu
    have hfound := h₁.findVertex?_of_innermost hroot hy hykey hspec.placed
      (hspec.nonempty hnames hsmem) (hroot.laid.nested.contains hsmem hspec.mem_nodes)
      fun m hm hplaced hcontains => hspec.innermost hroot.laid hnames hsmem hm hplaced.1 hcontains
    obtain rfl : u = source := Option.some.inj (hfound.symm.trans hjoins.1)
    exact he

end Reads

end Build

end DeadCode
