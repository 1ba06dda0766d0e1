import DeadCode.Proofs.Resolution.Bindings

/-! # Block scoping in the graph

What `let` and `const` declare is visible in the region around the declaration and not outside of it.
The edges of the graph keep to this: an edge for reading, writing or passing a name leads to a `let`
or `const` declaration only from inside the regions around the declaration, or from a statement that
has the declaration in it. -/

namespace DeadCode

open Node

namespace StatementGraph

/-- An edge that leads to a `let` or `const` declaration comes from inside the regions around the
declaration, or from a statement around it. -/
def Confines (root : Node) (graph : StatementGraph) (e : Edge) : Prop :=
  ∃ u l, graph.vertex? e.source = some u ∧ graph.vertex? e.target = some l ∧
    (l.key.kind = .lexicalDeclaration → ∀ d ∈ root.nodes, d.key = l.key →
      ∀ r ∈ root.nodes, root.IsRegion r → d ∈ r.nodes →
        r.span.contains u.span ∨ u.span.contains l.span)

theorem Confines.mono {root : Node} {graph graph' : StatementGraph} {e : Edge}
    (h : graph.Confines root e) (hgraph : graph.Extends graph') : graph'.Confines root e := by
  obtain ⟨u, l, hu, hl, hregion⟩ := h
  exact ⟨u, l, hgraph _ u hu, hgraph _ l hl, hregion⟩

end StatementGraph

/-- Of two nodes around a text one contains the other. -/
theorem Node.LaidOut.contains_or_contains {root n r d : Node} {t : Span} (h : root.LaidOut)
    (hn : n ∈ root.nodes) (hr : r ∈ root.nodes) (hd : d ∈ r.nodes) (ht : t.Nonempty)
    (hnt : n.span.contains t) (hrt : r.span.contains t) :
    r.span.contains n.span ∨ n.span.contains d.span := by
  rcases h.comparable hn hr ht hnt hrt with hnr | hrn
  · exact .inl (h.nested.contains hr hnr)
  · exact .inr (h.nested.contains hn (mem_nodes_trans hd hrn))

namespace Trace

variable {path : Path} {ambient : List String} {source : String} {root : Node} {w w' : Trace}

/-! ## Where the edges of names come from -/

/-- An event that adds an edge for a name uses the name, or relates an export to its declaration. -/
theorem Event.edges (h : Event source root w w') {e : Edge} (he : e ∈ w'.builder.graph.edges)
    (hname : e.relation.kind.isName) :
    e ∈ w.builder.graph.edges ∨
      (∃ scope m name, scope < w.builder.scopes.size ∧ m ∈ root.nodes ∧ m.Spells ∧
        w.Within scope m ∧ w.builder.Refers scope m name e) ∨
      ∃ n ∈ root.nodes, ∃ c ∈ n.children,
        w.builder.StandsFor e.source n ∧ w.builder.StandsFor e.target c := by
  cases h with
  | enter => exact .inl he
  | act hact =>
    cases hact with
    | @use u scope during b hu hmem hin hopen hperforms =>
      refine ((hperforms.relates hu).new e he).imp_right fun hnew => .inl ?_
      obtain ⟨m, hm, hspells, name, hrefers⟩ := hnew hname
      obtain ⟨p, hp, hup⟩ := hin
      exact ⟨scope, m, name, hopen.lt, mem_nodes_trans hm hmem, hspells,
        ⟨p, hp, mem_nodes_trans hm hup⟩, hrefers⟩
    | vertex =>
      change e ∈ (w.builder.graph.addVertex _).2.edges at he
      rw [StatementGraph.edges_addVertex] at he
      exact .inl he
    | connect hkind hconnect =>
      rcases ((StatementGraph.of_connect hconnect).2.2.2 e).1 he with he | rfl
      · exact .inl he
      · rw [hkind] at hname
        cases hname
    | @exported u v n c name id graph hn hc hu hv hconnect =>
      rcases ((StatementGraph.of_connect hconnect).2.2.2 e).1 he with he | rfl
      · exact .inl he
      · exact .inr (.inr ⟨n, hn, c, hc, hu, hv⟩)
    | note hgraph =>
      change e ∈ StatementGraph.edges _ at he
      rw [hgraph] at he
      exact .inl he
    | _ => exact .inl he

/-! ## Edges that keep to the regions -/

/-- A place lies in every region around a declaration that is bound on its scope, and so does all
that is used there. -/
theorem Houses.contains (hroot : root.WellLaid) (hgrammar : root.Grammatical)
    (hsound : w.Sound root) {scope : ScopeId} {v : VertexId} {l : Vertex} {m d r : Node}
    (h : w.Houses root scope v) (hl : w.builder.graph.vertex? v = some l)
    (hkind : l.key.kind = .lexicalDeclaration) (hin : w.Within scope m) (hd : d ∈ root.nodes)
    (hkey : d.key = l.key) (hr : r ∈ root.nodes) (hregion : root.IsRegion r) (hdr : d ∈ r.nodes) :
    r.span.contains m.span := by
  have hnested := hroot.laid.nested
  have hkind' : d.kind = .lexicalDeclaration := by
    rw [← hkind, ← hkey]
    rfl
  have hstated {n : Node} (hn : n.kind = .lexicalDeclaration) : n.Stated :=
    .inl (.inl (by rw [hn]; rfl))
  obtain ⟨p, hp, hcase⟩ := h
  obtain ⟨q, hq, hm⟩ := hin
  obtain rfl : p = q := Option.some.inj (hp.symm.trans hq)
  have hlies := hsound.lies p (List.mem_of_getElem? hp)
  have hpmem : p.node ∈ root.nodes := by
    rcases hlies with hway | ⟨-, visit, hway, -⟩
    · exact hway.mem_nodes
    · exact hway.mem_nodes
  rcases hcase with ⟨d', hd', ⟨l', hl', hkey'⟩, hholds⟩ | ⟨-, l', hl', hcontains⟩
  · -- The declaration stands in the place.
    obtain rfl : l = l' := Option.some.inj (hl.symm.trans hl')
    have hkind'' : d'.kind = .lexicalDeclaration := by
      rw [← hkind, hkey']
      rfl
    obtain rfl := hroot.eq_of_key_eq hd hd' (hstated hkind') (hstated hkind'') (hkey.trans hkey')
    have hfile : p.visit = .file → p.node = root := by
      intro hvisit
      rcases hlies with hway | ⟨hcallable, -⟩
      · exact hway.eq_root hvisit
      · rw [hvisit] at hcallable
        cases hcallable
    have hcallable : p.visit = .callable → p.node.kind.isCallable ∧ p.node.kind.isClass = false := by
      intro hvisit
      rcases hlies with hway | ⟨-, visit, -, hdefers⟩
      · exact absurd hvisit hway.ne_callable
      · exact Visit.isCallable_of_defers hdefers
    have hpr := hholds.mem_of_region hroot.laid hgrammar hfile hcallable hpmem
      (hroot.statements d hd (hstated hkind')) hkind' hr hregion hdr
    exact hnested.contains hr (mem_nodes_trans hm hpr)
  · -- The place is a callable in the declaration.
    obtain rfl : l = l' := Option.some.inj (hl.symm.trans hl')
    have hspan : l.span = d.span := congrArg Key.span hkey.symm
    have hdm : d.span.contains m.span := by
      rw [← hspan]
      exact Span.contains_trans (hcontains hnested) (hnested.contains hpmem hm)
    exact Span.contains_trans (hnested.contains hr hdr) hdm

/-- **An edge from a use of a name keeps to the regions.** -/
theorem Reached.confines_of_refers (hroot : root.WellLaid) (hgrammar : root.Grammatical)
    (h : Reached path ambient source root w) {scope : ScopeId} {m : Node} {name : String} {e : Edge}
    (hlt : scope < w.builder.scopes.size) (hm : m ∈ root.nodes) (hspells : m.Spells)
    (hin : w.Within scope m) (hrefers : w.builder.Refers scope m name e) :
    w.builder.graph.Confines root e := by
  have hstands := h.stands
  obtain ⟨target, hdeclaration, hsource, y, hy, htarget⟩ := hrefers
  -- The edge ends at the declaration itself.
  obtain rfl : target = e.target :=
    Option.some.inj ((hstands.findVertex?_span hroot hy).symm.trans htarget)
  obtain ⟨x, hlookup, hx⟩ := Option.bind_eq_some_iff.1 hdeclaration
  obtain ⟨outer, houter, hlocal⟩ := List.exists_of_findSome?_eq_some hlookup
  obtain ⟨l, hl, hhouses⟩ := h.houses hlocal hx
  obtain ⟨u, hu, hum⟩ := StatementGraph.exists_of_findVertex? hsource
  obtain ⟨n, hn, -, hnkey⟩ := hstands.mem_nodes hu
  have huspan : u.span = n.span := congrArg Key.span hnkey
  refine ⟨u, l, hu, hl, fun hkind d hd hkey r hr hregion hdr => ?_⟩
  have hrm := (hhouses hkind).contains hroot hgrammar h.sound hl hkind
    (h.sound.within_of_mem_chain hlt houter hin) hd hkey hr hregion hdr
  have hlspan : l.span = d.span := congrArg Key.span hkey.symm
  rw [huspan] at hum ⊢
  rw [hlspan]
  exact hroot.laid.contains_or_contains hn hr hdr (hroot.names m hm hspells) hum hrm

/-- **All edges of names keep to the regions**, in the whole history. -/
theorem Reached.confines (hroot : root.WellLaid) (hgrammar : root.Grammatical)
    (h : Reached path ambient source root w) {e : Edge} (he : e ∈ w.builder.graph.edges)
    (hname : e.relation.kind.isName) : w.builder.graph.Confines root e := by
  induction h with
  | refl => simp [start, Builder.start] at he
  | @tail w₁ w₂ hreached hevent ih =>
    have hgraph := hevent.grows.graph
    rcases hevent.edges he hname with hold | ⟨scope, m, name, hlt, hm, hspells, hin, hrefers⟩ |
      ⟨n, hn, c, hc, ⟨u, hu, hukey⟩, l, hl, hlkey⟩
    · exact (ih hold).mono hgraph
    · exact (Reached.confines_of_refers hroot hgrammar hreached hlt hm hspells hin hrefers).mono hgraph
    · -- An export has the declaration in it.
      refine ⟨u, l, hgraph _ u hu, hgraph _ l hl, fun _ _ _ _ _ _ _ _ => .inr ?_⟩
      have huspan : u.span = n.span := congrArg Key.span hukey
      have hlspan : l.span = c.span := congrArg Key.span hlkey
      rw [huspan, hlspan]
      exact hroot.laid.nested n hn c hc

end Trace

/-- **Block scoping.** In the graph of a file an edge for reading, writing or passing a name that leads
to a `let` or `const` declaration comes from inside every region around the declaration, or from a
statement that has the declaration in it. -/
theorem StatementGraph.region_contains_of_nameEdge {path : Path} {source : String} {root : Node}
    {ambient : List String} {graph : StatementGraph} {scopes : ScopeTree} (hroot : root.WellLaid)
    (hgrammar : root.Grammatical)
    (h : StatementGraph.build? path source root ambient = .ok (graph, scopes))
    {e : Edge} (he : e ∈ graph.edges) (hname : e.relation.kind.isName) {u l : Vertex}
    (hu : graph.vertex? e.source = some u) (hl : graph.vertex? e.target = some l)
    (hkind : l.key.kind = .lexicalDeclaration) {d : Node} (hd : d ∈ root.nodes)
    (hkey : d.key = l.key) {r : Node} (hr : r ∈ root.nodes) (hregion : root.IsRegion r)
    (hdr : d ∈ r.nodes) : r.span.contains u.span ∨ u.span.contains l.span := by
  obtain ⟨w, hbetween, rfl, -⟩ := Trace.exists_of_build? hroot.laid.nested hgrammar h
  obtain ⟨u', l', hu', hl', hconfined⟩ := hbetween.reached.confines hroot hgrammar he hname
  obtain rfl : u = u' := Option.some.inj (hu.symm.trans hu')
  obtain rfl : l = l' := Option.some.inj (hl.symm.trans hl')
  exact hconfined hkind d hd hkey r hr hregion hdr

/-! The parameters of a function and its body share one scope. So in
`function g(a = () => { x; }) { let x = 1; }` the statement `x;` refers to the declaration, although it
stands outside of the block with the declaration. It stands inside the function, as it has to. -/

/-- The declaration in `function g(a = () => { x; }) { let x = 1; }`. -/
def bodyLet : Node :=
  .of .lexicalDeclaration 31 41
    [.part .kind (.token "let" 31 34),
     .of .variableDeclarator 35 40
       [.part .name (.of .identifier 35 36), .token "=" 37 38,
        .part .value (.of .numberLiteral 39 40)], .token ";" 40 41]

/-- The body of the function in `function g(a = () => { x; }) { let x = 1; }`. -/
def bodyBlock : Node :=
  .part .body (.of .statementBlock 29 43 [.token "\x7b" 29 30, bodyLet, .token "\x7d" 42 43])

/-- The function in `function g(a = () => { x; }) { let x = 1; }`. -/
def defaultArrow : Node :=
  let arrow : Node :=
    .part .right (.of .arrowFunction 15 27
      [.part .parameters (.of .formalParameters 15 17 [.token "(" 15 16, .token ")" 16 17]),
       .token "=>" 18 20,
       .part .body (.of .statementBlock 21 27
         [.token "\x7b" 21 22,
          .of .expressionStatement 23 25 [.of .identifier 23 24, .token ";" 24 25],
          .token "\x7d" 26 27])])
  let parameters : Node :=
    .part .parameters (.of .formalParameters 10 28
      [.token "(" 10 11,
       .of .assignmentPattern 11 27 [.part .left (.of .identifier 11 12), .token "=" 13 14, arrow],
       .token ")" 27 28])
  .of .functionDeclaration 0 43
    [.keyword .functionLiteral 0 8, .part .name (.of .identifier 9 10), parameters, bodyBlock]

/-- The tree of `function g(a = () => { x; }) { let x = 1; }`. -/
def defaultArrowFile : Node :=
  .of (.other "program") 0 43 [defaultArrow]

theorem wellLaid_defaultArrowFile : defaultArrowFile.WellLaid ∧ defaultArrowFile.Grammatical := by
  decide +kernel

theorem mem_defaultArrowFile :
    bodyLet ∈ bodyBlock.children ∧ bodyLet ∈ defaultArrow.nodes ∧
      defaultArrow ∈ defaultArrowFile.nodes := by
  have hlet : bodyLet ∈ bodyBlock.children := List.mem_cons_of_mem _ List.mem_cons_self
  have hblock : bodyBlock ∈ defaultArrow.children := List.mem_of_getLast? rfl
  exact ⟨hlet, mem_nodes_trans (child_mem_nodes hlet) (child_mem_nodes hblock),
    child_mem_nodes List.mem_cons_self⟩

theorem exists_edge_defaultArrow : ∃ graph scopes,
    StatementGraph.build? ⟨"a.js"⟩ "function g(a = () => { x; }) { let x = 1; }" defaultArrowFile []
      = .ok (graph, scopes) ∧
    ∃ e ∈ graph.edges, e.relation.kind.isName ∧ ∃ u l, graph.vertex? e.source = some u ∧
      graph.vertex? e.target = some l ∧ u.span = ⟨23, 25⟩ ∧ l.key = bodyLet.key := by
  obtain ⟨⟨graph, scopes⟩, hbuild, e, he, hname, hsource, htarget⟩ := exists_ok_of_decide
    (x := StatementGraph.build? ⟨"a.js"⟩ "function g(a = () => { x; }) { let x = 1; }" defaultArrowFile
      [])
    (p := fun r => ∃ e ∈ r.1.edges, e.relation.kind.isName ∧
      (r.1.vertex? e.source).any (·.span = ⟨23, 25⟩) ∧
      (r.1.vertex? e.target).any (·.key = bodyLet.key)) (by decide +kernel)
  obtain ⟨u, hu, huspan⟩ := (Option.any_eq_true _ _).1 hsource
  obtain ⟨l, hl, hlkey⟩ := (Option.any_eq_true _ _).1 htarget
  exact ⟨graph, scopes, hbuild, e, he, hname, u, l, hu, hl, of_decide_eq_true huspan,
    of_decide_eq_true hlkey⟩

/-- The statement `x;` stands in the function around the declaration that it refers to. -/
theorem region_contains_defaultArrow : ∃ graph scopes,
    StatementGraph.build? ⟨"a.js"⟩ "function g(a = () => { x; }) { let x = 1; }" defaultArrowFile []
      = .ok (graph, scopes) ∧
    ∃ e ∈ graph.edges, e.relation.kind.isName ∧ ∃ u l, graph.vertex? e.source = some u ∧
      graph.vertex? e.target = some l ∧ l.key = bodyLet.key ∧
      (defaultArrow.span.contains u.span ∨ u.span.contains l.span) := by
  obtain ⟨hroot, hgrammar⟩ := wellLaid_defaultArrowFile
  obtain ⟨-, hlet, harrow⟩ := mem_defaultArrowFile
  obtain ⟨graph, scopes, hbuild, e, he, hname, u, l, hu, hl, -, hkey⟩ := exists_edge_defaultArrow
  refine ⟨graph, scopes, hbuild, e, he, hname, u, l, hu, hl, hkey, ?_⟩
  exact StatementGraph.region_contains_of_nameEdge hroot hgrammar hbuild he hname hu hl
    (by rw [hkey]; rfl) (mem_nodes_trans hlet harrow) hkey.symm harrow (.callable rfl) hlet

/-- **The body of a function is no region by itself**: the statement `x;` in a parameter refers to the
declaration in the block of the body, and neither stands in that block nor has the declaration in
it. -/
theorem bodyBlock_not_contains :
    defaultArrowFile.WellLaid ∧ defaultArrowFile.Grammatical ∧
    bodyBlock.kind = .statementBlock ∧ bodyLet ∈ bodyBlock.children ∧ ∃ graph scopes,
      StatementGraph.build? ⟨"a.js"⟩ "function g(a = () => { x; }) { let x = 1; }" defaultArrowFile []
        = .ok (graph, scopes) ∧
      ∃ e ∈ graph.edges, e.relation.kind.isName ∧ ∃ u l, graph.vertex? e.source = some u ∧
        graph.vertex? e.target = some l ∧ l.key = bodyLet.key ∧
        ¬ bodyBlock.span.contains u.span ∧ ¬ u.span.contains l.span := by
  obtain ⟨hroot, hgrammar⟩ := wellLaid_defaultArrowFile
  obtain ⟨hlet, -, -⟩ := mem_defaultArrowFile
  obtain ⟨graph, scopes, hbuild, e, he, hname, u, l, hu, hl, huspan, hkey⟩ := exists_edge_defaultArrow
  refine ⟨hroot, hgrammar, rfl, hlet, graph, scopes, hbuild, e, he, hname, u, l, hu, hl, hkey, ?_, ?_⟩
  · rw [huspan]
    decide
  · have hlspan : l.span = bodyLet.span := congrArg Key.span hkey
    rw [huspan, hlspan]
    decide

end DeadCode
