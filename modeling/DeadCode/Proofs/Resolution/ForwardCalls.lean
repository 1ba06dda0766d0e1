import DeadCode.Proofs.Resolution.Bindings

/-! # Calls of hoisted functions

A function declaration is hoisted to the top of the body it stands in, from any depth of nested
statements. A call of it is related to it wherever in the body the call stands, before the declaration
or after it, in the body itself or in a callable inside. -/

namespace DeadCode

open Node

/-! ## Bodies -/

/-- A body to whose top functions are hoisted: the file, or the block of a callable. -/
def Node.IsHoistBody (root body : Node) : Prop :=
  body = root ∨ ∃ c ∈ root.inner, c.kind.isClass = false ∧ c.child? .body = some body ∧
    body.kind = .statementBlock

/-- If a callable were not left for later, the statements in its block would be visited as
expressions. -/
theorem Visit.inside_block {visit : Visit} {kind : Kind} (hcallable : kind.isCallable)
    (hclass : kind.isClass = false) (hfile : visit ≠ .file) (hvisit : visit ≠ .callable)
    (hdefers : visit.defers kind = false) (child : Kind) :
    (visit.inside kind .statementBlock).inside .statementBlock child = .resolve := by
  have hkind : kind ≠ .classLiteral ∧ kind ≠ .objectLiteral ∧ kind.form? ≠ some .classDecl ∧
      (kind.form? ≠ some .functionDecl → kind.isCompound = false) := by
    cases kind <;> simp [Kind.isCallable, Kind.isClass] at hcallable hclass <;>
      simp [Kind.form?, Kind.isCompound, Kind.isClause]
  obtain ⟨hliteral, hobject, hdeclaration, hcompound⟩ := hkind
  unfold inside
  rw [hdefers]
  cases visit with
  | file => exact absurd rfl hfile
  | callable => exact absurd rfl hvisit
  | members => rfl
  | resolve | member =>
    simp [below, hliteral, hobject, defers, Kind.isFunctionValue, Kind.isFunctionLiteral]
  | link =>
    have hfunction : kind.form? ≠ some .functionDecl := by simpa [defers] using hdefers
    simp [below, hdeclaration, hcompound hfunction, defers, Kind.isFunctionValue,
      Kind.isFunctionLiteral]

namespace Node

variable {root body f c : Node}

/-- The functions of a body are declared in it. -/
theorem mem_nodes_of_bodyFunctions (h : f ∈ body.bodyFunctions) :
    f.kind.form? = some .functionDecl ∧ ∃ x ∈ body.children, Along .resolve x .resolve f := by
  obtain ⟨x, hx, hf⟩ := List.mem_flatMap.1 h
  obtain ⟨hform, halong⟩ := of_mem_hoistedFunctions x hf
  exact ⟨hform, x, mem_children_of_namedChildren hx, halong⟩

theorem IsHoistBody.mem_nodes (h : root.IsHoistBody body) : body ∈ root.nodes := by
  rcases h with rfl | ⟨c, hc, -, hbody, -⟩
  · exact self_mem_nodes _
  · exact mem_nodes_trans (child_mem_nodes (mem_children_of_child? hbody))
      (mem_nodes_of_descendant (mem_inner.1 hc).1)

/-- **A callable with a function in its block was left for later**, if the function is visited as a
statement. -/
theorem exists_defers (hroot : root.LaidOut) (hc : c ∈ root.inner) (hclass : c.kind.isClass = false)
    (hbody : c.child? .body = some body) (hblock : body.kind = .statementBlock)
    (hf : f ∈ body.bodyFunctions) (hne : f.span.Nonempty) (hway : Way root .link f) :
    ∃ visit, Way root visit c ∧ visit.defers c.kind := by
  obtain ⟨hdescendant, hcallable⟩ := mem_inner.1 hc
  obtain ⟨-, x, hx, halong⟩ := mem_nodes_of_bodyFunctions hf
  have hbody' := mem_children_of_child? hbody
  have hfc : f ∈ c.nodes := mem_nodes_trans halong.mem_nodes
    (mem_nodes_trans (child_mem_nodes hx) (child_mem_nodes hbody'))
  obtain ⟨visit, hvisit⟩ := hway.through hroot hne (mem_nodes_of_descendant hdescendant) hfc
  refine ⟨visit, hvisit, ?_⟩
  by_contra hdefers
  have hfile : visit ≠ .file := by
    intro heq
    rw [hvisit.eq_root heq] at hdescendant
    exact Nat.lt_irrefl _ (size_lt_of_descendant hdescendant)
  -- Then the function would be visited as an expression.
  have hwayx := (hvisit.child hbody').child hx
  rw [hblock, Visit.inside_block hcallable hclass hfile hvisit.ne_callable (by simpa using hdefers)]
    at hwayx
  cases Way.unique hroot hway (hwayx.along halong) hne

end Node

/-! ## Calls -/

/-- An expression statement whose expression is the call of a name. -/
structure Node.Calls (source : String) (s call target : Node) (name : String) : Prop where
  statement : s.kind = .expressionStatement
  call_mem : call ∈ s.namedChildren
  call_kind : call.kind = .callExpression
  callee : call.child? .function = some target
  callee_kind : target.kind = .identifier
  callee_text : target.text? source = some name

namespace Node.Calls

variable {source name : String} {root s call target n : Node}

theorem stated (h : s.Calls source call target name) : s.Stated :=
  .inl (.inl (by rw [h.statement]; rfl))

theorem call_child (h : s.Calls source call target name) : call ∈ s.children :=
  mem_children_of_namedChildren h.call_mem

theorem callee_child (h : s.Calls source call target name) : target ∈ call.children :=
  mem_children_of_child? h.callee

/-- A call by name is a leaf of its statement. -/
theorem mem_leaves (h : s.Calls source call target name) :
    .use (.call call target name) ∈ partLeaves source s := by
  refine List.mem_flatMap.2 ⟨call, h.call_mem, ?_⟩
  rw [expressionLeaves, h.call_kind]
  change _ ∈ callLeaves source call .function
  rw [callLeaves]
  refine List.mem_append_left _ (mem_under.2 ⟨target, h.callee, ?_⟩)
  rw [calleeLeaves, h.callee_kind]
  simp [h.callee_text]

theorem callee_nonempty (h : s.Calls source call target name) (hroot : root.WellLaid)
    (hs : s ∈ root.nodes) : target.span.Nonempty := by
  have hcall := mem_nodes_trans (child_mem_nodes h.call_child) hs
  exact hroot.names target (mem_nodes_trans (child_mem_nodes h.callee_child) hcall)
    (.inl h.callee_kind)

theorem call_nonempty (h : s.Calls source call target name) (hroot : root.WellLaid)
    (hs : s ∈ root.nodes) : call.span.Nonempty :=
  (h.callee_nonempty hroot hs).of_contains (hroot.laid.nested call
    (mem_nodes_trans (child_mem_nodes h.call_child) hs) target h.callee_child)

/-- **The innermost statement around the call is the expression statement.** -/
theorem mem_nodes_of_contains (h : s.Calls source call target name) (hroot : root.WellLaid)
    (hs : s ∈ root.nodes) (hn : n ∈ root.nodes) (hown : root.HasStatement n)
    (hcontains : n.span.contains call.span) : s ∈ n.nodes := by
  have hcall := mem_nodes_trans (child_mem_nodes h.call_child) hs
  have htarget := mem_nodes_trans (child_mem_nodes h.callee_child) hcall
  have hcne := h.call_nonempty hroot hs
  have hne := h.callee_nonempty hroot hs
  have hct := hroot.laid.nested call hcall target h.callee_child
  -- Neither the call nor the name of the callee has a statement of its own.
  have hplain {m p : Node} (hp : p ∈ root.nodes) (hm : m ∈ p.children) (hmne : m.span.Nonempty)
      (hform : m.kind.form? = none) (hmethod : m.kind ≠ .methodDefinition)
      (hpkind : p.kind ≠ .exportStatement) : ¬ root.HasStatement m := by
    rintro ((hsome | hm') | ⟨e, he, hekind, hdeclaration⟩)
    · rw [hform] at hsome
      cases hsome
    · exact hmethod hm'
    · obtain rfl := hroot.laid.parent_unique hp he hm (mem_children_of_child? hdeclaration) hmne
      exact hpkind hekind
  have hncall : n ≠ call := by
    rintro rfl
    exact hplain hs h.call_child hcne (by rw [h.call_kind]; rfl) (by rw [h.call_kind]; decide)
      (by rw [h.statement]; decide) hown
  have hntarget : n ≠ target := by
    rintro rfl
    exact hplain hcall h.callee_child hne (by rw [h.callee_kind]; rfl)
      (by rw [h.callee_kind]; decide) (by rw [h.call_kind]; decide) hown
  rcases hroot.laid.comparable hcall hn hcne call.span.contains_self hcontains with hcn | hnc
  · -- A node around the call is around the statement.
    rcases mem_nodes_iff.1 hcn with heq | hcn
    · exact absurd heq.symm hncall
    · exact hroot.laid.mem_nodes_of_child hs hn h.call_child hcne hcn
  · -- A node inside the call does not reach around the name of the callee.
    exfalso
    rcases mem_nodes_iff.1 hnc with heq | hnc
    · exact hncall heq
    rcases hroot.laid.comparable htarget hn hne target.span.contains_self
      (Span.contains_trans hcontains hct) with htn | hnt
    · rcases mem_nodes_iff.1 htn with heq | htn
      · exact hntarget heq.symm
      · exact hroot.laid.not_between hcall h.callee_child hne hnc htn
    · rcases mem_nodes_iff.1 hnt with heq | hnt
      · exact hntarget heq
      · obtain ⟨x, hx, -⟩ := mem_descendants_iff.1 hnt
        rw [hroot.leaves target htarget h.callee_kind] at hx
        cases hx

end Node.Calls

/-! ## Functions that are in reach -/

namespace Trace

variable {path : Path} {ambient : List String} {source name : String} {root body f s : Node}
  {w w₀ : Trace}

/-- **Around the scope in which a part of a body is visited** there is one whose place the functions of
the body are hoisted to. -/
theorem Reached.exists_host (hroot : root.WellLaid) (h : Reached path ambient source root w)
    (hbody : root.IsHoistBody body) (hf : f ∈ body.bodyFunctions) (hway : Way root .link f)
    {scope : ScopeId} {visit : Visit} (hs : s ∈ body.descendants) (hne : s.span.Nonempty)
    (hat : w.At scope visit s) :
    ∃ outer ∈ w.builder.scopes.chain scope, ∃ p, w.places[outer]? = some p ∧ f ∈ p.hoists := by
  have hsound := h.sound
  rcases hbody with rfl | ⟨c, hc, hclass, hbody, hblock⟩
  · obtain ⟨p, hp, -⟩ := hat
    have hlt : scope < w.builder.scopes.size := by
      rw [← hsound.fits]
      exact (List.getElem?_eq_some_iff.1 hp).1
    exact ⟨_, hsound.tree.globalId_mem_chain hlt, _, hsound.file, hf⟩
  · have hfmem : f ∈ root.nodes := hway.mem_nodes
    have hfne : f.span.Nonempty := by
      refine hroot.statements f hfmem (.inl (.inl ?_))
      rw [(mem_nodes_of_bodyFunctions hf).1]
      rfl
    obtain ⟨visit', hvisit', hdefers⟩ :=
      exists_defers hroot.laid hc hclass hbody hblock hf hfne hway
    have hsc : s ∈ c.descendants :=
      mem_descendants_of_child (mem_children_of_child? hbody) (mem_nodes_of_descendant hs)
    obtain ⟨outer, houter, hplace⟩ :=
      hsound.exists_callable hroot.laid hat hne hvisit' hdefers hsc
    exact ⟨outer, houter, _, hplace, by simpa [ScopePlace.hoists, hbody, hblock] using hf⟩

/-- A statement is found by its key. -/
theorem Reached.vertexByKey?_eq (h : Reached path ambient source root w) {n : Node} {v : VertexId}
    (hv : w.builder.StandsFor v n) : w.builder.graph.vertexByKey? n.key = some v := by
  obtain ⟨x, hx, hkey⟩ := hv
  rw [← hkey]
  exact h.stands.vertexByKey?_eq hx

/-- **A call is met in the course of its statement**, once the statement is in the graph. -/
theorem Between.exists_made (hroot : root.WellLaid) (h : w.Between path ambient source root)
    {call target : Node} (hs : s ∈ root.nodes) (hcalls : s.Calls source call target name)
    {u : VertexId} (hu : w.builder.graph.vertexByKey? s.key = some u) :
    ∃ scope w₀ b, w.At scope .resolve s ∧
      w.Made path ambient source root (.call call target name) scope (some s) w₀ b := by
  obtain ⟨x, hx, hxkey⟩ := StatementGraph.exists_of_vertexByKey? hu
  obtain ⟨n, hn, hkey, scope, hat, hcame⟩ := h.finished x (Array.mem_of_getElem? hx) (by
    rw [hxkey]
    exact hcalls.statement)
  have hnkind : n.kind = .expressionStatement :=
    (congrArg Key.kind (hkey.trans hxkey)).trans hcalls.statement
  have hnstated : n.Stated := .inl (.inl (by rw [hnkind]; rfl))
  obtain rfl := hroot.eq_of_key_eq hn hs hnstated hcalls.stated (hkey.trans hxkey)
  obtain ⟨⟨leaf, scope', during⟩, hentry, rfl, rfl, rfl⟩ := hcame _ hcalls.mem_leaves
  obtain ⟨w₀, b, hmade⟩ := h.reached.exists_made hentry
  exact ⟨scope', w₀, b, hat, hmade⟩

namespace Made

variable {scope : ScopeId} {b : Builder}

/-- **A use finds a function that is hoisted to a scope around it.** In the header of a callable this
need not be so for the functions of its own body, but it is for those of the file. -/
theorem exists_lookup {u : Use} {during : Option Node} {outer : ScopeId} {p : ScopePlace}
    (h : w.Made path ambient source root u scope during w₀ b)
    (hf : root.NamedOnce source f name) (houter : outer ∈ w.builder.scopes.chain scope)
    (hplace : w.places[outer]? = some p) (hhoists : f ∈ p.hoists)
    (hheader : during = none → outer = ScopeTree.globalId) :
    ∃ x, w₀.builder.scopes.lookup? scope name = some x ∧ w₀.Denotes f x := by
  rw [h.grows.chain h.opened.lt] at houter
  have hhoisted : (f, outer) ∈ w₀.hoisted := by
    rcases h.opened.primed outer houter with ⟨q, hq, hoisted⟩ | ⟨hnone, -, hpos⟩
    · obtain rfl : q = p := Option.some.inj ((h.grows.place hq).symm.trans hplace)
      exact hoisted f hhoists (by rw [hf.named]; rfl)
    · rw [hheader hnone] at hpos
      exact absurd hpos (Nat.lt_irrefl 0)
  exact (h.reached.knows hf).lookup? h.reached.sound.tree h.opened.lt houter hhoisted

/-- **A use finds a function of the file**, wherever it is made. -/
theorem exists_lookup_of_file {u : Use} {during : Option Node}
    (h : w.Made path ambient source root u scope during w₀ b)
    (hf : root.NamedOnce source f name) (hbody : f ∈ root.bodyFunctions) :
    ∃ x, w₀.builder.scopes.lookup? scope name = some x ∧ w₀.Denotes f x := by
  have hsound := h.reached.sound
  have houter := hsound.tree.globalId_mem_chain h.opened.lt
  rw [← h.grows.chain h.opened.lt] at houter
  exact h.exists_lookup hf houter (h.grows.place hsound.file) hbody fun _ => rfl

/-- **A call of a function that is found** leads to an edge from its statement to the function. -/
theorem call_mem_edges (hroot : root.WellLaid) {call target : Node}
    (h : w.Made path ambient source root (.call call target name) scope (some s) w₀ b)
    (hs : s ∈ root.nodes) (hcalls : s.Calls source call target name) {x : Binding}
    (hlookup : w₀.builder.scopes.lookup? scope name = some x)
    (hx : w₀.Denotes f x) :
    ∃ u v, w.builder.StandsFor u s ∧ w.builder.StandsFor v f ∧
      (⟨u, v, .named .call name⟩ : Edge) ∈ w.builder.graph.edges := by
  have hgraph := h.reached.stands
  obtain ⟨v, hdeclaration, hv⟩ := hx.declaration
  obtain ⟨u, hu⟩ := h.opened.during s rfl
  obtain ⟨e, he, hrelation, hsource, y, hy, htarget⟩ :=
    Use.exists_edge_of_call h.performs hlookup hdeclaration hx.callable
  refine ⟨u, v, hu.mono h.grows.grows, hv.mono h.grows.grows, ?_⟩
  -- The edge starts at the innermost statement around the call and ends at the function.
  have hsource' : e.source = u := by
    obtain ⟨z, hz, hzkey⟩ := hu
    have hfind := hgraph.findVertex?_of_innermost hroot hz hzkey hcalls.stated
      (hcalls.call_nonempty hroot hs) (hroot.laid.nested s hs call hcalls.call_child)
      fun n hn hown hcontains => hcalls.mem_nodes_of_contains hroot hs hn hown hcontains
    exact Option.some.inj (hsource.symm.trans hfind)
  have htarget' : e.target = v :=
    Option.some.inj (htarget.symm.trans (hgraph.findVertex?_span hroot hy))
  rw [← hsource', ← htarget', ← hrelation]
  exact h.edges e he

end Made

end Trace

/-- **Forward calls resolve.** An expression statement that calls a function by its name has an edge to
the declaration of the function, wherever it stands in the body to whose top the function is hoisted,
if the name is bound once in the file. -/
theorem StatementGraph.call_mem_edges_of_hoisted {path : Path} {source name : String}
    {root body f s call target : Node} {ambient : List String} {graph : StatementGraph}
    {scopes : ScopeTree} {u v : VertexId} (hroot : root.WellLaid) (hgrammar : root.Grammatical)
    (h : StatementGraph.build? path source root ambient = .ok (graph, scopes))
    (hbody : root.IsHoistBody body) (hf : f ∈ body.bodyFunctions)
    (hname : f.name? source = some name) (honce : root.BoundOnce source name)
    (hfree : name ∉ implicitNames) (hs : s ∈ body.descendants)
    (hcalls : s.Calls source call target name) (hu : graph.vertexByKey? s.key = some u)
    (hv : graph.vertexByKey? f.key = some v) :
    (⟨u, v, .named .call name⟩ : Edge) ∈ graph.edges := by
  obtain ⟨w, hbetween, rfl, -⟩ := Trace.exists_of_build? hroot.laid.nested hgrammar h
  have hreached := hbetween.reached
  obtain ⟨hform, x, hx, halong⟩ := mem_nodes_of_bodyFunctions hf
  have hs' : s ∈ root.nodes := mem_nodes_trans (mem_nodes_of_descendant hs) hbody.mem_nodes
  have hf' : f ∈ root.nodes := mem_nodes_trans halong.mem_nodes
    (mem_nodes_trans (child_mem_nodes hx) hbody.mem_nodes)
  -- The function is in the graph, so it is visited as a statement.
  have hway : Way root .link f := by
    obtain ⟨y, hy, hykey⟩ := exists_of_vertexByKey? hv
    obtain ⟨n, hnkey, hnstated, hway⟩ := hreached.exists_way (Array.mem_of_getElem? hy) (by
      rw [hykey]
      exact hform)
    have hfstated : f.Stated := .inl (.inl (by rw [hform]; rfl))
    obtain rfl := hroot.eq_of_key_eq hway.mem_nodes hf' hnstated.stated hfstated
      (hnkey.trans hykey)
    exact hway
  -- The call was met in a scope around which the function was hoisted.
  obtain ⟨scope, w₀, b, hat, hmade⟩ := hbetween.exists_made hroot hs' hcalls hu
  obtain ⟨outer, houter, p, hplace, hhoists⟩ := hreached.exists_host hroot hbody hf hway hs
    (hroot.statements s hs' hcalls.stated) hat
  obtain ⟨found, hlookup, hdenotes⟩ := hmade.exists_lookup ⟨hf', hform, hname, honce, hfree⟩ houter
    hplace hhoists nofun
  obtain ⟨u', v', hu', hv', hedge⟩ := hmade.call_mem_edges hroot hs' hcalls hlookup hdenotes
  obtain rfl : u' = u := Option.some.inj ((hreached.vertexByKey?_eq hu').symm.trans hu)
  obtain rfl : v' = v := Option.some.inj ((hreached.vertexByKey?_eq hv').symm.trans hv)
  exact hedge

/-! In `function g() { () => { f(); }; { function f() {} } }` the call stands before the function, and in
an arrow function beside the block with the function. -/

/-- The function that is called in `function g() { () => { f(); }; { function f() {} } }`. -/
def laterFunction : Node :=
  .of .functionDeclaration 33 48
    [.keyword .functionLiteral 33 41, .part .name (.of .identifier 42 43),
     .part .parameters (.of .formalParameters 43 45 [.token "(" 43 44, .token ")" 44 45]),
     .part .body (.of .statementBlock 46 48 [.token "\x7b" 46 47, .token "\x7d" 47 48])]

/-- The name of the callee in `f();`. -/
def earlyCallee : Node :=
  .part .function (.of .identifier 23 24)

/-- The call in `f();`. -/
def earlyCall : Node :=
  .of .callExpression 23 26
    [earlyCallee,
     .part .arguments (.of (.other "arguments") 24 26 [.token "(" 24 25, .token ")" 25 26])]

/-- The statement `f();`. -/
def earlyStatement : Node :=
  .of .expressionStatement 23 27 [earlyCall, .token ";" 26 27]

/-- The arrow function around `f();`. -/
def earlyArrow : Node :=
  .of .arrowFunction 15 29
    [.part .parameters (.of .formalParameters 15 17 [.token "(" 15 16, .token ")" 16 17]),
     .token "=>" 18 20,
     .part .body (.of .statementBlock 21 29
       [.token "\x7b" 21 22, earlyStatement, .token "\x7d" 28 29])]

/-- The body of `g`. -/
def hostBody : Node :=
  .part .body (.of .statementBlock 13 52
    [.token "\x7b" 13 14, .of .expressionStatement 15 30 [earlyArrow, .token ";" 29 30],
     .of .statementBlock 31 50 [.token "\x7b" 31 32, laterFunction, .token "\x7d" 49 50],
     .token "\x7d" 51 52])

/-- The function `g`. -/
def hostFunction : Node :=
  .of .functionDeclaration 0 52
    [.keyword .functionLiteral 0 8, .part .name (.of .identifier 9 10),
     .part .parameters (.of .formalParameters 10 12 [.token "(" 10 11, .token ")" 11 12]), hostBody]

/-- The tree of `function g() { () => { f(); }; { function f() {} } }`. -/
def hostFile : Node :=
  .of (.other "program") 0 52 [hostFunction]

/-- The call before the function has an edge to it. -/
theorem call_mem_edges_hostFile : ∃ graph scopes u v,
    StatementGraph.build? ⟨"a.js"⟩ "function g() { () => { f(); }; { function f() {} } }" hostFile []
      = .ok (graph, scopes) ∧
    graph.vertexByKey? earlyStatement.key = some u ∧
    graph.vertexByKey? laterFunction.key = some v ∧
    earlyStatement.span.stop < laterFunction.span.start ∧
    (⟨u, v, .named .call "f"⟩ : Edge) ∈ graph.edges := by
  have hbody : hostFile.IsHoistBody hostBody := by
    refine .inr ⟨hostFunction, mem_inner.2 ⟨child_mem_descendants List.mem_cons_self, rfl⟩, rfl, ?_,
      rfl⟩
    cbv
  have hfunctions : hostBody.bodyFunctions = [laterFunction] := by cbv
  have hfunction : laterFunction ∈ hostBody.bodyFunctions := by
    rw [hfunctions]
    exact List.mem_cons_self
  have hstatement : earlyStatement ∈ hostBody.descendants := by
    refine mem_descendants_of_child (List.mem_cons_of_mem _ List.mem_cons_self) ?_
    refine mem_nodes_trans ?_ (child_mem_nodes List.mem_cons_self)
    exact mem_nodes_trans (child_mem_nodes (List.mem_cons_of_mem _ List.mem_cons_self))
      (child_mem_nodes (List.mem_cons_of_mem _ (List.mem_cons_of_mem _ List.mem_cons_self)))
  have hcalls : earlyStatement.Calls "function g() { () => { f(); }; { function f() {} } }" earlyCall
      earlyCallee "f" :=
    ⟨rfl, List.mem_cons_self, rfl, rfl, rfl, by decide +kernel⟩
  obtain ⟨⟨graph, scopes⟩, hbuild, hu, hv⟩ := exists_ok_of_decide
    (x := StatementGraph.build? ⟨"a.js"⟩ "function g() { () => { f(); }; { function f() {} } }" hostFile
      [])
    (p := fun r => (r.1.vertexByKey? earlyStatement.key).isSome ∧
      (r.1.vertexByKey? laterFunction.key).isSome) (by decide +kernel)
  obtain ⟨u, hu⟩ := Option.isSome_iff_exists.1 hu
  obtain ⟨v, hv⟩ := Option.isSome_iff_exists.1 hv
  refine ⟨graph, scopes, u, v, hbuild, hu, hv, by decide, ?_⟩
  exact StatementGraph.call_mem_edges_of_hoisted (by decide +kernel) (by decide +kernel) hbuild hbody
    hfunction (by decide +kernel) (by decide +kernel) (by decide) hstatement hcalls hu hv

end DeadCode
