import DeadCode.Module.Export
import DeadCode.Proofs.Resolution.Keeps
import DeadCode.Proofs.Resolution.Seats

/-! # Statements arranged as in the tree

While a file is resolved, the statements of the graph are nodes of the tree that have a seat, each is
there once, and ownership leads to a node from its owner. What is resolved in an expression counts for
the statement that holds the expression. -/

namespace DeadCode

namespace Node

/-- An `export` statement exports something under a name. -/
def Exposes (source : String) (n : Node) : Prop :=
  n.kind = .exportStatement → n.statementExports source ≠ []

/-- A node for which a statement may be related to a declaration. -/
def Refers (n : Node) : Prop :=
  n.Spells ∨ n.kind = .memberExpression ∨ n.kind = .subscriptExpression ∨
    n.kind = .callExpression ∨ n.kind = .newExpression

theorem Refers.of_member {n : Node}
    (h : n.kind = .memberExpression ∨ n.kind = .subscriptExpression) : n.Refers :=
  .inr (h.imp_right .inl)

theorem Refers.of_call {n : Node} (h : n.kind = .callExpression ∨ n.kind = .newExpression) :
    n.Refers :=
  .inr (.inr (.inr h))

instance (n : Node) : Decidable n.Refers :=
  inferInstanceAs (Decidable (n.Spells ∨ n.kind = .memberExpression ∨
    n.kind = .subscriptExpression ∨ n.kind = .callExpression ∨ n.kind = .newExpression))

/-- What the grammar promises of names: what refers to a declaration is not empty, and an `export`
statement that is not about another module lists names. -/
structure NamesFit (root : Node) : Prop where
  refers : ∀ n ∈ root.nodes, n.Refers → n.span.Nonempty
  listed : ∀ n ∈ root.nodes, n.kind = .exportStatement → n.child? .source = none →
    ∀ clause ∈ n.namedChildren, clause.kind = .exportClause → ∀ specifier ∈ clause.namedChildren,
      specifier.kind.isPlain ∧ ∀ name ∈ specifier.child? .name,
        name.kind = .identifier ∨ name.kind = .stringLiteral

instance (root : Node) : Decidable root.NamesFit :=
  decidable_of_iff ((∀ n ∈ root.nodes, n.Refers → n.span.Nonempty) ∧
      ∀ n ∈ root.nodes, n.kind = .exportStatement → n.child? .source = none →
        ∀ clause ∈ n.namedChildren, clause.kind = .exportClause →
          ∀ specifier ∈ clause.namedChildren, specifier.kind.isPlain ∧
            ∀ name ∈ specifier.child? .name,
              name.kind = .identifier ∨ name.kind = .stringLiteral)
    ⟨fun ⟨refers, listed⟩ => ⟨refers, listed⟩, fun h => ⟨h.refers, h.listed⟩⟩

/-- A tree that is spaced well and keeps what the grammar promises of statements. -/
structure Regular (root : Node) : Prop where
  spaced : root.WellSpaced
  grammatical : root.Grammatical
  declarations : root.DeclarationsFit

end Node

namespace Builder

open Node

/-! ## Nodes that a statement holds -/

/-- A node is visited in some way, in the course of a statement: that of the innermost node with a seat
around it. -/
structure Held (source : String) (root : Node) (b : Builder) (visit : Visit) (o n : Node) : Prop where
  way : Way root visit n
  holder : n.span.Nonempty → Holder root o n
  seated : Seated root o
  vertex : ∃ v, b.StandsFor v o
  exposes : root.NamesFit → o.Exposes source

/-- A statement stands for the node that holds a node, unless that node is empty. -/
def Backs (b : Builder) (owner : VertexId) (o n : Node) : Prop :=
  n.span.Nonempty → b.StandsFor owner o

/-- A callable is left for later with the statement that holds it. -/
def Deferred (source : String) (root : Node) (b : Builder) (n : Node) (owner : VertexId) : Prop :=
  ∃ visit o, b.Held source root visit o n ∧ visit.defers n.kind ∧ b.Backs owner o n

section Held

variable {source : String} {root o n c : Node} {b b' : Builder} {visit : Visit}

theorem StandsFor.of_extends {v : VertexId} (h : b.StandsFor v n)
    (hg : b.graph.Extends b'.graph) : b'.StandsFor v n := by
  obtain ⟨x, hx, hkey⟩ := h
  exact ⟨x, hg v x hx, hkey⟩

theorem Held.of_extends (h : b.Held source root visit o n) (hg : b.graph.Extends b'.graph) :
    b'.Held source root visit o n :=
  { h with vertex := h.vertex.imp fun _ hv => hv.of_extends hg }

theorem Held.later {inv : Builder → Prop} (h : b.Held source root visit o n)
    (hlater : b.Later inv b') : b'.Held source root visit o n :=
  h.of_extends hlater.grows.graph

theorem Deferred.of_extends {owner : VertexId} (h : b.Deferred source root n owner)
    (hg : b.graph.Extends b'.graph) : b'.Deferred source root n owner := by
  obtain ⟨visit, o, hheld, hdefers, howner⟩ := h
  exact ⟨visit, o, hheld.of_extends hg, hdefers, fun hne => (howner hne).of_extends hg⟩

theorem Backs.later {inv : Builder → Prop} {owner : VertexId} (h : b.Backs owner o n)
    (hlater : b.Later inv b') : b'.Backs owner o n :=
  fun hne => (h hne).mono hlater.grows

theorem Backs.child {owner : VertexId} (h : b.Backs owner o n) (hroot : root.WellSpaced)
    (hn : n ∈ root.nodes) (hc : c ∈ n.children) : b.Backs owner o c :=
  fun hne => h (hne.of_contains (hroot.laid.nested n hn c hc))

theorem Held.self (hway : Way root visit n) (hseated : Seated root n)
    {v : VertexId} (hv : b.StandsFor v n) (hexposes : root.NamesFit → n.Exposes source) :
    b.Held source root visit n n where
  way := hway
  holder := fun _ => .self hseated
  seated := hseated
  vertex := ⟨v, hv⟩
  exposes := hexposes

theorem Held.owner (h : b.Held source root visit o n) (hroot : root.WellSpaced)
    (hc : c ∈ n.children) (hne : c.span.Nonempty) : Owner root o c :=
  (h.holder (hne.of_contains (hroot.laid.nested n h.way.mem_nodes c hc))).owner hroot.laid
    h.way.mem_nodes hc hne

/-- What a statement holds, its children included. -/
theorem Held.child (h : b.Held source root visit o n) (hroot : root.WellSpaced)
    (hc : c ∈ n.children) (hnot : ¬ Seats visit n c) :
    b.Held source root (visit.inside n.kind c.kind) o c :=
  { h with
    way := h.way.child hc
    holder := fun hne => (h.owner hroot hc hne).holder fun hseated =>
      hnot (hseated.seats hroot h.way hc) }

theorem Held.part (h : b.Held source root visit o n) (hroot : root.WellSpaced)
    (hreads : visit.Reads n.kind) (hplain : n.kind.isPlain) (hc : c ∈ n.children) :
    b.Held source root .resolve o c := by
  obtain ⟨hvalue, hclass, hobject⟩ := Kind.isPlain_iff.1 hplain
  have hinside : visit.inside n.kind c.kind = .resolve := by
    rw [Visit.inside, hreads.defers_eq, hvalue, hreads.below_eq]
    simp [Visit.below, hclass, hobject]
  rw [← hinside]
  exact h.child hroot hc (not_seats_of_reads hreads)

theorem Held.objectPart (h : b.Held source root visit o n) (hroot : root.WellSpaced)
    (hreads : visit.Reads n.kind) (hkind : n.kind = .objectLiteral) (hc : c ∈ n.children) :
    b.Held source root .member o c := by
  have hinside : visit.inside n.kind c.kind = .member := by
    rw [Visit.inside, hreads.defers_eq, hreads.below_eq, hkind]
    rfl
  rw [← hinside]
  exact h.child hroot hc (not_seats_of_reads hreads)

theorem Held.classPart (h : b.Held source root visit o n) (hroot : root.WellSpaced)
    (hvisit : Build.IsClassVisit visit n) (hc : c ∈ n.children) :
    b.Held source root (.ofClassPart c.kind) o c := by
  have hinside : visit.inside n.kind c.kind = .ofClassPart c.kind := by
    rw [Visit.inside, hvisit.defers, ← hvisit.below]
    rfl
  rw [← hinside]
  exact h.child hroot hc (not_seats_of_class hvisit)

theorem Held.classBody (h : b.Held source root visit o n) (hroot : root.Regular)
    (hvisit : Build.IsClassVisit visit n) (hc : n.child? .body = some c) :
    b.Held source root .members o c := by
  have hmem := mem_children_of_child? hc
  have hpart := h.classPart hroot.spaced hvisit hmem
  rwa [Visit.ofClassPart, if_neg ((hroot.grammatical n h.way.mem_nodes).body hvisit.isClass c hmem
    (field_of_child? hc))] at hpart

/-- The parts of a callable that is entered are held. -/
theorem Held.enteredPart (h : b.Held source root visit o n) (hroot : root.WellSpaced)
    (hdefers : visit.defers n.kind) (hc : c ∈ n.children) :
    b.Held source root (Visit.callable.below n.kind c.kind) o c := by
  have hinside : visit.inside n.kind c.kind = Visit.callable.below n.kind c.kind := if_pos hdefers
  rw [← hinside]
  exact h.child hroot hc (not_seats_of_defers hdefers)

/-- What has no seat in a statement or a clause is visited in the course of the statement around it. -/
theorem Held.nested (h : b.Held source root .link o n) (hroot : root.WellSpaced)
    (hkind : n.kind.holdsStatements) (hc : c ∈ n.children) (hnot : ¬ Seats .link n c) :
    b.Held source root (.ofStatement c.kind) o c :=
  { h.child hroot hc hnot with way := h.way.nested hkind hc }

theorem Held.block (h : b.Held source root .link o n) (hroot : root.Regular)
    (hkind : n.kind.holdsStatements) (hc : c ∈ n.children) (hform : c.kind.form? = some .block) :
    b.Held source root .link o c := by
  rw [← Visit.ofStatement_eq_link (Kind.holdsStatements_of_form hform rfl)]
  exact h.nested hroot.spaced hkind hc fun hseats =>
    not_seated_of_block hroot.declarations hform ⟨.link, n, h.way, hc, hseats⟩

theorem Held.clause (h : b.Held source root .link o n) (hroot : root.WellSpaced)
    (hkind : n.kind.holdsDirectly) (hc : c ∈ n.children) (hclause : c.kind.isClause) :
    b.Held source root .link o c := by
  rw [← Visit.ofStatement_eq_link (Kind.holdsStatements_of_isClause hclause)]
  refine h.nested hroot (Kind.holdsStatements_of_holdsDirectly hkind) hc ?_
  rintro ⟨-, hitem | ⟨hexport, -⟩, -⟩
  · exact Kind.not_isItem_of_isClause hclause hitem
  · simp [Kind.holdsDirectly, hexport] at hkind

/-- The parts of a header are held. -/
theorem Held.header (h : b.Held source root .link o n) (hroot : root.Regular)
    (hkind : n.kind.holdsStatements) (hheader : c ∈ n.headers)
    (hform : ¬ c.kind.form?.any Form.declaresVariables) : b.Held source root .resolve o c := by
  have hc := (of_mem_headers hheader).1
  have hcompound : ¬ c.kind.isCompound :=
    (hroot.grammatical n h.way.mem_nodes).header (Kind.isCompound_of_holdsStatements hkind) c hc
      (field_isHeader_of_mem_headers hheader)
  have hheld := h.nested hroot.spaced hkind hc fun hseats => hform (hseats.2.2 hheader)
  rwa [Visit.ofStatement, if_neg hcompound] at hheld

end Held

/-! ## The invariant -/

/-- **The statements are arranged as in the tree.** -/
structure Arranged (source : String) (root : Node) (b : Builder) : Prop where
  /-- No node has two statements. -/
  distinct : ∀ u v x y, b.graph.vertex? u = some x → b.graph.vertex? v = some y →
    x.key = y.key → u = v
  /-- Statements stand for nodes that have a seat. -/
  vertices : ∀ x ∈ b.graph.vertices, ∃ n, Seated root n ∧ x.key = n.key ∧
    (x.isTerminal → n.isTerminal source)
  /-- No edge is there twice. -/
  edges : b.graph.edges.toList.Nodup
  /-- Ownership leads to a node from its owner. -/
  owned : ∀ e ∈ b.graph.edges, e.relation.kind = .decl → e.relation = { kind := .decl } ∧
    ∃ o n, b.StandsFor e.source o ∧ b.StandsFor e.target n ∧ Seated root n ∧ Owner root o n
  /-- Callables are left for later with the statement that holds them. -/
  callables : ∀ entry ∈ b.callables, entry.2.node.kind.isClass = false →
    b.Deferred source root entry.2.node entry.2.owner
  /-- An `export` statement that uses something exports something. -/
  uses : root.NamesFit → ∀ e ∈ b.graph.edges, e.relation.kind ≠ .decl →
    e.relation.kind ≠ .returns → ∃ o, Seated root o ∧ b.StandsFor e.source o ∧ o.Exposes source

namespace Arranged

variable {source : String} {root o n : Node} {b b' : Builder}

/-- At first all is arranged. -/
theorem start (source : String) (root : Node) (path : Path) (ambient : List String) :
    (Builder.start path ambient).Arranged source root where
  distinct := by
    intro u v x y hx
    simp [Builder.start, StatementGraph.vertex?] at hx
  vertices := by simp [Builder.start]
  edges := by simp [Builder.start]
  owned := by simp [Builder.start]
  callables := by simp [Builder.start]
  uses := by simp [Builder.start]

theorem stands (h : b.Arranged source root) : b.graph.Stands root where
  nodes := by
    intro x hx
    obtain ⟨n, hn, hkey, -⟩ := h.vertices x hx
    exact ⟨n, hn.mem_nodes, hn.hasStatement, hkey⟩
  distinct := h.distinct

/-- Being arranged is a matter of statements and callables. -/
theorem of_eq (h : b.Arranged source root) (hgraph : b'.graph = b.graph)
    (hcallables : b'.callables = b.callables) : b'.Arranged source root := by
  have hextends : b.graph.Extends b'.graph := by
    rw [hgraph]
    exact .refl _
  have hstands {v : VertexId} {n : Node} (hv : b.StandsFor v n) : b'.StandsFor v n :=
    hv.of_extends hextends
  refine ⟨?_, ?_, ?_, ?_, ?_, ?_⟩
  · rw [hgraph]
    exact h.distinct
  · rw [hgraph]
    exact h.vertices
  · rw [hgraph]
    exact h.edges
  · rw [hgraph]
    intro e he hkind
    obtain ⟨hrelation, o, n, ho, hn, howner⟩ := h.owned e he hkind
    exact ⟨hrelation, o, n, hstands ho, hstands hn, howner⟩
  · rw [hcallables]
    exact fun entry hentry hclass => (h.callables entry hentry hclass).of_extends hextends
  · rw [hgraph]
    intro hnames e he hdecl hreturns
    obtain ⟨o, hseated, ho, hexposes⟩ := h.uses hnames e he hdecl hreturns
    exact ⟨o, hseated, hstands ho, hexposes⟩

/-- A seated statement may be added. -/
theorem addVertex (h : b.Arranged source root) {x : Vertex} (hn : Seated root n)
    (hkey : x.key = n.key) (hterminal : x.isTerminal → n.isTerminal source) :
    Arranged source root { b with graph := (b.graph.addVertex x).2 } := by
  have hextends : b.graph.Extends (b.graph.addVertex x).2 := b.graph.extends_addVertex x
  refine ⟨(h.stands.addVertex hn.mem_nodes hn.hasStatement hkey).distinct, ?_, ?_, ?_, ?_, ?_⟩
  · intro y hy
    rcases StatementGraph.mem_vertices_addVertex hy with hy | rfl
    · exact h.vertices y hy
    · exact ⟨n, hn, hkey, hterminal⟩
  · rw [StatementGraph.edges_addVertex]
    exact h.edges
  · rw [StatementGraph.edges_addVertex]
    intro e he hkind
    obtain ⟨hrelation, o, n, ho, hn, howner⟩ := h.owned e he hkind
    exact ⟨hrelation, o, n, ho.of_extends hextends, hn.of_extends hextends, howner⟩
  · exact fun entry hentry hclass => (h.callables entry hentry hclass).of_extends hextends
  · rw [StatementGraph.edges_addVertex]
    intro hnames e he hdecl hreturns
    obtain ⟨o, hseated, ho, hexposes⟩ := h.uses hnames e he hdecl hreturns
    exact ⟨o, hseated, ho.of_extends hextends, hexposes⟩

/-- Two statements are related: an owner to what it owns, or a statement to what it uses. -/
theorem connect (h : b.Arranged source root) {u v : VertexId} {relation : Relation} {id : EdgeId}
    {graph : StatementGraph} (hconnect : b.graph.connect u v relation = .ok (id, graph))
    (hown : relation.kind = .decl → relation = { kind := .decl } ∧
      ∃ o n, b.StandsFor u o ∧ b.StandsFor v n ∧ Seated root n ∧ Owner root o n)
    (huse : root.NamesFit → relation.kind ≠ .decl → relation.kind ≠ .returns →
      ∃ o, Seated root o ∧ b.StandsFor u o ∧ o.Exposes source) :
    Arranged source root { b with graph } := by
  have hextends : b.graph.Extends graph := StatementGraph.extends_of_connect hconnect
  obtain ⟨-, -, hvertices, hedges⟩ := StatementGraph.of_connect hconnect
  refine ⟨(h.stands.of_vertices_eq hvertices).distinct, ?_, ?_, ?_, ?_, ?_⟩
  · rw [hvertices]
    exact h.vertices
  · exact StatementGraph.nodup_edges_of_connect hconnect h.edges
  · intro e he hkind
    have hfound : e.relation = { kind := .decl } ∧
        ∃ o n, b.StandsFor e.source o ∧ b.StandsFor e.target n ∧ Seated root n ∧ Owner root o n := by
      rcases (hedges e).1 he with he | rfl
      · exact h.owned e he hkind
      · exact hown hkind
    obtain ⟨hrelation, o, n, ho, hn, howner⟩ := hfound
    exact ⟨hrelation, o, n, ho.of_extends hextends, hn.of_extends hextends, howner⟩
  · exact fun entry hentry hclass => (h.callables entry hentry hclass).of_extends hextends
  · intro hnames e he hdecl hreturns
    have hfound : ∃ o, Seated root o ∧ b.StandsFor e.source o ∧ o.Exposes source := by
      rcases (hedges e).1 he with he | rfl
      · exact h.uses hnames e he hdecl hreturns
      · exact huse hnames hdecl hreturns
    obtain ⟨o, hseated, ho, hexposes⟩ := hfound
    exact ⟨o, hseated, ho.of_extends hextends, hexposes⟩

/-- A callable that is held may be registered. -/
theorem register (h : b.Arranged source root) {scope : ScopeId} {owner : VertexId}
    (hn : n.kind.isClass = false → b.Deferred source root n owner) :
    Arranged source root
      { b with callables := setCallable b.callables n.key ⟨n, scope, owner⟩ } :=
  { h with
    callables := by
      intro entry hentry hclass
      rcases mem_setCallable hentry with rfl | hentry
      · exact (hn hclass).of_extends (.refl b.graph)
      · exact (h.callables entry hentry hclass).of_extends (.refl b.graph) }

/-- **The statement found for an expression is the one that holds it.** -/
theorem findVertex? (h : b.Arranged source root) {visit : Visit}
    (hn : b.Held source root visit o n) (hroot : root.WellSpaced)
    (hvisit : visit = .resolve ∨ visit = .member) (hne : n.span.Nonempty) :
    ∃ v, b.graph.findVertex? n.span = some v ∧ b.StandsFor v o := by
  obtain ⟨v, x, hx, hkey⟩ := hn.vertex
  have hholder := hn.holder hne
  refine ⟨v, ?_, x, hx, hkey⟩
  refine h.stands.findVertex?_of_closest hroot.spaced hx hkey hn.seated hne
    (hroot.laid.nested.contains hn.seated.mem_nodes hholder.mem) fun y hy hcontains => ?_
  obtain ⟨m, hm, hmkey, -⟩ := h.vertices y hy
  have hspan : y.span = m.span := congrArg Key.span hmkey
  rw [hspan] at hcontains
  exact ⟨m, hm.mem_nodes, hm, hmkey,
    hholder.mem_nodes_of_contains hroot hn.way hvisit hne hm hcontains⟩

end Arranged

end Builder

end DeadCode
