import DeadCode.Proofs.Resolution.Steps
import DeadCode.Proofs.Syntax.Uses
import DeadCode.Proofs.Graph.Closest

/-! # What a use of names adds

A use of names adds edges to the graph and nothing else that later lookups depend on. This file says
which edges. -/

namespace DeadCode

/-- Whether relations of a kind are those of a name by itself: it is read, written or passed. -/
def RelationKind.isName : RelationKind → Bool
  | read | write | arg => true
  | call | readProp | writeProp | deleteProp | returns | param | decl | imports | exports => false

namespace Builder

variable {adds : Edge → Prop} {b b' b'' : Builder} {n : Node} {e : Edge}

/-- Only edges are added, and calls are noted and queued. -/
structure Relates (adds : Edge → Prop) (b b' : Builder) : Prop where
  vertices : b'.graph.vertices = b.graph.vertices
  scopes : b'.scopes = b.scopes
  callables : b'.callables = b.callables
  expanded : b'.expanded = b.expanded
  old : ∀ e ∈ b.graph.edges, e ∈ b'.graph.edges
  new : ∀ e ∈ b'.graph.edges, e ∈ b.graph.edges ∨ adds e

namespace Relates

theorem refl (b : Builder) : Relates adds b b :=
  ⟨rfl, rfl, rfl, rfl, fun _ h => h, fun _ h => .inl h⟩

theorem trans (h : Relates adds b b') (h' : Relates adds b' b'') : Relates adds b b'' where
  vertices := h'.vertices.trans h.vertices
  scopes := h'.scopes.trans h.scopes
  callables := h'.callables.trans h.callables
  expanded := h'.expanded.trans h.expanded
  old := fun e he => h'.old e (h.old e he)
  new := by
    intro e he
    rcases h'.new e he with he | he
    · exact h.new e he
    · exact .inr he

theorem imp {adds' : Edge → Prop} (h : Relates adds b b') (hadds : ∀ e, adds e → adds' e) :
    Relates adds' b b' :=
  { h with new := fun e he => (h.new e he).imp_right (hadds e) }

theorem grows (h : Relates adds b b') : b.Grows b' where
  graph := .of_vertices_eq h.vertices
  scopes := Nat.le_of_eq (congrArg ScopeTree.size h.scopes.symm)

end Relates

/-- An edge from the statement around a node to the statement around that of a declaration. -/
def Joins (b : Builder) (n : Node) (target : VertexId) (e : Edge) : Prop :=
  b.graph.findVertex? n.span = some e.source ∧
    ∃ x, b.graph.vertex? target = some x ∧ b.graph.findVertex? x.span = some e.target

/-- An edge from the statement around a node to the declaration of a name seen from a scope. -/
def Refers (b : Builder) (scope : ScopeId) (n : Node) (name : String) (e : Edge) : Prop :=
  ∃ target, b.scopes.declarationOf? scope name = some target ∧ b.Joins n target e

theorem Joins.of_vertices_eq {target : VertexId} (h : b'.Joins n target e)
    (hvertices : b'.graph.vertices = b.graph.vertices) : b.Joins n target e := by
  unfold Joins StatementGraph.findVertex? StatementGraph.vertex? at h ⊢
  rwa [hvertices] at h

theorem Relates.joins {target : VertexId} (h : Relates adds b b') (he : b'.Joins n target e) :
    b.Joins n target e :=
  he.of_vertices_eq h.vertices

theorem Relates.refers {scope : ScopeId} {name : String} (h : Relates adds b b')
    (he : b'.Refers scope n name e) : b.Refers scope n name e := by
  obtain ⟨target, htarget, hjoins⟩ := he
  rw [h.scopes] at htarget
  exact ⟨target, htarget, h.joins hjoins⟩

end Builder

namespace Build

open Builder

variable {b b' : Builder} {adds : Edge → Prop}

/-! ## Steps that end well -/

/-- The steps of a run that ends well. -/
theorem exists_of_bind_ok {α β : Type} {step : Build α} {next : α → Build β} {r : β × Builder}
    (h : (step >>= next) b = .ok r) : ∃ a b₁, step b = .ok (a, b₁) ∧ next a b₁ = .ok r := by
  cases hstep : step b with
  | error e =>
    rw [bind_apply_of_error hstep] at h
    cases h
  | ok first =>
    obtain ⟨a, b₁⟩ := first
    rw [bind_apply_of_ok hstep] at h
    exact ⟨a, b₁, rfl, h⟩

theorem relates_of_forM {γ : Type} {xs : List γ} {visit : γ → Build Unit}
    (h : ∀ x ∈ xs, ∀ b₁ b₂, Relates adds b b₁ → visit x b₁ = .ok ((), b₂) → Relates adds b₁ b₂)
    (hrun : xs.forM visit b = .ok ((), b')) : Relates adds b b' := by
  induction xs generalizing b with
  | nil =>
    cases hrun
    exact .refl _
  | cons x rest ih =>
    rw [List.forM_eq_forM, List.forM_cons] at hrun
    obtain ⟨_, b₁, hx, hrest⟩ := exists_of_bind_ok hrun
    have hfirst := h x List.mem_cons_self b b₁ (.refl b) hx
    refine hfirst.trans (ih (fun y hy b₂ b₃ hr => ?_) hrest)
    exact h y (List.mem_cons_of_mem _ hy) b₂ b₃ (hfirst.trans hr)

/-! ## Single references -/

variable {n : Node} {scope : ScopeId} {target : VertexId} {relation : Relation} {source : String}

/-- **Relating a node to a declaration adds the one edge between them.** -/
theorem relate_ok (h : relate n target relation b = .ok ((), b')) :
    ∃ e ∈ b'.graph.edges, e.relation = relation ∧ b.Joins n target e ∧ Relates (· = e) b b' := by
  obtain ⟨x, u, w, id, graph, hx, hu, hw, hc, rfl⟩ := exists_of_relate_ok h
  obtain ⟨-, -, hvertices, hedges⟩ := StatementGraph.of_connect hc
  refine ⟨⟨u, w, relation⟩, (hedges _).2 (.inr rfl), rfl, ⟨hu, x, hx, hw⟩, ?_⟩
  exact ⟨hvertices, rfl, rfl, rfl, fun e he => (hedges e).2 (.inl he), fun e he => (hedges e).1 he⟩

theorem relateDeclaration_ok {name : String}
    (h : (do
      match ← declarationOf? scope name with
      | none => pure ()
      | some target => relate n target relation : Build Unit) b = .ok ((), b')) :
    Relates (fun e => e.relation = relation ∧ b.Refers scope n name e) b b' ∧
      ∀ target, b.scopes.declarationOf? scope name = some target →
        ∃ e ∈ b'.graph.edges, e.relation = relation ∧ b.Joins n target e := by
  obtain ⟨found, b₁, hfound, h⟩ := exists_of_bind_ok h
  have hpair : (b.scopes.declarationOf? scope name, b) = (found, b₁) := Except.ok.inj hfound
  obtain ⟨rfl, rfl⟩ := Prod.mk.inj hpair
  cases htarget : b.scopes.declarationOf? scope name with
  | none =>
    rw [htarget] at h
    cases h
    exact ⟨.refl b, by simp⟩
  | some target =>
    rw [htarget] at h
    obtain ⟨e, he, hrelation, hjoins, hrelates⟩ := relate_ok h
    refine ⟨hrelates.imp ?_, ?_⟩
    · rintro _ rfl
      exact ⟨hrelation, target, htarget, hjoins⟩
    · rintro _ ⟨⟩
      exact ⟨e, he, hrelation, hjoins⟩

theorem textReference_ok {relation : String → Relation}
    (h : (match n.text? source with
      | none => pure ()
      | some name => do
        match ← declarationOf? scope name with
        | none => pure ()
        | some target => relate n target (relation name) : Build Unit) b = .ok ((), b')) :
    Relates (fun e => ∃ name, b.Refers scope n name e) b b' ∧
      ∀ name target, n.text? source = some name → b.scopes.declarationOf? scope name = some target →
        ∃ e ∈ b'.graph.edges, e.relation = relation name ∧ b.Joins n target e := by
  cases htext : n.text? source with
  | none =>
    rw [htext] at h
    cases h
    exact ⟨.refl b, by simp⟩
  | some name =>
    rw [htext] at h
    obtain ⟨hrelates, hedge⟩ := relateDeclaration_ok h
    refine ⟨hrelates.imp fun e he => ⟨name, he.2⟩, ?_⟩
    rintro _ target ⟨⟩ htarget
    exact hedge target htarget

/-- What using a member adds. -/
theorem memberReference_ok {chain : List String} {kind : RelationKind}
    (h : memberReference n chain scope kind b = .ok ((), b')) :
    Relates (·.relation.kind = kind) b b' ∧ ∀ target,
      ((b.scopes.resolvePrefix? scope chain).bind (·.1.declaration)) = some target →
        ∃ e ∈ b'.graph.edges, e.relation.kind = kind ∧ b.Joins n target e := by
  rw [memberReference, get_bind_apply] at h
  cases htarget : (b.scopes.resolvePrefix? scope chain).bind (·.1.declaration) with
  | none =>
    rw [htarget] at h
    cases h
    exact ⟨.refl b, by simp⟩
  | some target =>
    rw [htarget] at h
    obtain ⟨e, he, hrelation, hjoins, hrelates⟩ := relate_ok h
    have hkind : e.relation.kind = kind := by rw [hrelation]; rfl
    refine ⟨hrelates.imp ?_, ?_⟩
    · rintro _ rfl
      exact hkind
    · rintro _ ⟨⟩
      exact ⟨e, he, hkind, hjoins⟩

/-! ## Calls -/

/-- What passing arguments adds. -/
theorem parameterReferences_ok {key : Key} {count : Nat}
    (h : parameterReferences source n target key count b = .ok ((), b')) :
    Relates (·.relation.kind = .param) b b' := by
  rw [parameterReferences, get_bind_apply] at h
  cases hparameters : (b.callable? key).bind (·.node.parameters?) with
  | none =>
    rw [hparameters] at h
    cases h
    exact .refl b
  | some parameters =>
    rw [hparameters] at h
    refine relates_of_forM (fun parameter _ b₁ b₂ _ hrun => ?_) h
    obtain ⟨name?, index⟩ := parameter
    cases name? with
    | none =>
      cases hrun
      exact .refl b₁
    | some name =>
      obtain ⟨e, -, hrelation, -, hrelates⟩ := relate_ok hrun
      refine hrelates.imp ?_
      rintro _ rfl
      rw [hrelation]
      rfl

theorem noteCall_ok {key : Key} (h : (do
      if let some site ← enclosing? n then noteCall key site
      enqueue key : Build Unit) b = .ok ((), b')) : Relates adds b b' := by
  obtain ⟨site?, b₁, hsite, h⟩ := exists_of_bind_ok h
  have hpair : (b.graph.findVertex? n.span, b) = (site?, b₁) := Except.ok.inj hsite
  obtain ⟨rfl, rfl⟩ := Prod.mk.inj hpair
  cases hfound : b.graph.findVertex? n.span with
  | none =>
    rw [hfound] at h
    cases h
    exact ⟨rfl, rfl, rfl, rfl, fun _ he => he, fun _ he => .inl he⟩
  | some site =>
    rw [hfound] at h
    cases h
    exact ⟨rfl, rfl, rfl, rfl, fun _ he => he, fun _ he => .inl he⟩

/-- **What calling a name or a chain of names adds**: a known callable gets an edge from the call, and
any other declaration one from the callee. -/
theorem namedCallee_ok {callee : Node} {count : Nat} {chain : List String} {fallback : RelationKind}
    (h : namedCallee source n callee scope count chain fallback b = .ok ((), b')) :
    Relates (fun e => e.relation.kind = .call ∨ e.relation.kind = .param ∨
        e.relation.kind = .readProp ∨ e.relation.kind = fallback ∧
          ∃ x target, b.scopes.lookupChain? scope chain = some x ∧ x.declaration = some target ∧
            b.Joins callee target e) b b' ∧
      (∀ x target, b.scopes.lookupChain? scope chain = some x → x.declaration = some target →
        x.callable.isSome → ∃ e ∈ b'.graph.edges,
          e.relation = .named .call (".".intercalate chain) ∧ b.Joins n target e) ∧
      (b.scopes.lookupChain? scope chain = none → 1 < chain.length →
        memberReference callee chain scope .readProp
          { b with calls := b.calls.push (b.lookUp n chain scope) } = .ok ((), b')) := by
  obtain ⟨_, _, hlink, h⟩ := exists_of_bind_ok h
  cases hlink
  have hlink {adds : Edge → Prop} :
      Relates adds b { b with calls := b.calls.push (b.lookUp n chain scope) } :=
    ⟨rfl, rfl, rfl, rfl, fun _ he => he, fun _ he => .inl he⟩
  rw [get_bind_apply] at h
  dsimp only at h
  cases hfound : b.scopes.lookupChain? scope chain with
  | none =>
    rw [hfound] at h
    refine ⟨?_, by simp, fun _ hlength => ?_⟩
    · by_cases hlength : 1 < chain.length
      · rw [if_pos hlength] at h
        exact hlink.trans ((memberReference_ok h).1.imp fun e he => .inr (.inr (.inl he)))
      · rw [if_neg hlength] at h
        cases h
        exact hlink
    · rwa [if_pos hlength] at h
  | some x =>
    obtain ⟨name, declaration, origin, exportName, callable, members⟩ := x
    rw [hfound] at h
    cases declaration with
    | none =>
      -- Without a declaration at most the queue changes.
      refine ⟨?_, by rintro _ _ ⟨⟩ ⟨⟩, by simp⟩
      cases callable with
      | none =>
        cases h
        exact hlink
      | some key =>
        cases h
        exact ⟨rfl, rfl, rfl, rfl, fun _ he => he, fun _ he => .inl he⟩
    | some target =>
      cases callable with
      | none =>
        obtain ⟨e, -, hrelation, hjoins, h₁⟩ := relate_ok h
        refine ⟨hlink.trans (h₁.imp ?_), by rintro _ _ ⟨⟩ _ ⟨⟩, by simp⟩
        rintro _ rfl
        exact .inr (.inr (.inr ⟨by rw [hrelation]; rfl, _, target, rfl, rfl, hjoins⟩))
      | some key =>
        obtain ⟨_, b₁, hcall, h⟩ := exists_of_bind_ok h
        obtain ⟨_, b₂, hparameters, h⟩ := exists_of_bind_ok h
        obtain ⟨e, he, hrelation, hjoins, h₁⟩ := relate_ok hcall
        have h₂ := parameterReferences_ok hparameters
        have h₃ : Relates (fun _ => False) b₂ b' := noteCall_ok h
        refine ⟨?_, ?_, by simp⟩
        · refine hlink.trans ((h₁.imp ?_).trans
            ((h₂.imp fun e he => .inr (.inl he)).trans (h₃.imp (by simp))))
          rintro _ rfl
          exact .inl (by rw [hrelation]; rfl)
        · rintro _ _ ⟨⟩ ⟨⟩ _
          exact ⟨e, h₃.old e (h₂.old e he), hrelation, hjoins⟩

end Build

/-! ## Uses -/

namespace Use

open Build Builder Node

/-- What happens at a use of names. -/
def Performs (source : String) (scope : ScopeId) (b b' : Builder) : Use → Prop
  | name n kind => reference source n scope kind b = .ok ((), b')
  | argument n => ∃ index, argumentReference source n scope index b = .ok ((), b')
  | member n chain kind => memberReference n chain scope kind b = .ok ((), b')
  | call n target callee =>
    ∃ count, namedCallee source n target scope count [callee] .read b = .ok ((), b')
  | memberCall n target chain =>
    ∃ count, namedCallee source n target scope count chain .readProp b = .ok ((), b')
  | pattern n => patternReferences source n scope b = .ok ((), b')

/-- A use as it is met in a tree: names are read from nodes that spell them, and members are used as
members. -/
def Proper (source : String) : Use → Prop
  | name n kind => n.Spells ∧ (kind = .read ∨ kind = .write)
  | argument n | pattern n => n.Spells
  | member _ _ kind => kind = .readProp ∨ kind = .writeProp ∨ kind = .deleteProp
  | call n target callee =>
    target ∈ n.children ∧ target.kind = .identifier ∧ target.text? source = some callee
  | memberCall n target chain => target ∈ n.children ∧ 1 < chain.length

/-! ### The edges of names -/

variable {source name : String} {scope : ScopeId} {b b' : Builder} {u : Use} {x : Binding}
  {target : VertexId}

theorem declarationOf?_of_lookupChain? {callee : String}
    (hx : b.scopes.lookupChain? scope [callee] = some x) (htarget : x.declaration = some target) :
    b.scopes.declarationOf? scope callee = some target := by
  obtain ⟨base, hbase, hd⟩ := Option.bind_eq_some_iff.1 hx
  cases hd
  exact Option.bind_eq_some_iff.2 ⟨_, hbase, htarget⟩

/-- **The edges of names lead to the declarations of the names**, seen from the scope of the use. -/
theorem Performs.relates (h : u.Performs source scope b b') (hu : u.Proper source) :
    Relates (fun e => e.relation.kind.isName → ∃ m ∈ u.node.nodes, m.Spells ∧
      ∃ name, b.Refers scope m name e) b b' := by
  cases u with
  | name n kind => exact (textReference_ok h).1.imp fun e he _ => ⟨n, self_mem_nodes n, hu.1, he⟩
  | argument n =>
    obtain ⟨index, h⟩ := h
    exact (textReference_ok h).1.imp fun e he _ => ⟨n, self_mem_nodes n, hu, he⟩
  | member n chain kind =>
    refine (memberReference_ok h).1.imp fun e he hname => ?_
    rw [he] at hname
    rcases hu with rfl | rfl | rfl <;> cases hname
  | call n target callee =>
    obtain ⟨count, h⟩ := h
    obtain ⟨hmem, hkind, -⟩ := hu
    refine (namedCallee_ok h).1.imp fun e he hname => ?_
    rcases he with he | he | he | ⟨-, x, vertex, hx, hvertex, hjoins⟩
    · rw [he] at hname
      cases hname
    · rw [he] at hname
      cases hname
    · rw [he] at hname
      cases hname
    · exact ⟨target, child_mem_nodes hmem, .inl hkind, callee, vertex,
        declarationOf?_of_lookupChain? hx hvertex, hjoins⟩
  | memberCall n target chain =>
    obtain ⟨count, h⟩ := h
    refine (namedCallee_ok h).1.imp fun e he hname => ?_
    rcases he with he | he | he | ⟨he, -⟩ <;> rw [he] at hname <;> cases hname
  | pattern n =>
    refine relates_of_forM (fun name _ b₁ b₂ hr hrun => ?_) h
    refine (relateDeclaration_ok hrun).1.imp fun e he _ => ?_
    exact ⟨n, self_mem_nodes n, hu, name, hr.refers he.2⟩

/-! ### Uses of a known function -/

theorem descendFar_of_members_nil (hx : x.members = []) (segments : List String) :
    (x.descendFar segments).1 = x := by
  induction segments with
  | nil => rfl
  | cons segment rest ih =>
    unfold Binding.descendFar Binding.member?
    split
    · next found hfound =>
      split at hfound
      · cases hfound
        exact ih
      · rw [hx] at hfound
        cases hfound
    · rfl

theorem descend?_of_members_nil {y : Binding} (hx : x.members = []) {segments : List String}
    (h : x.descend? segments = some y) : y = x := by
  induction segments with
  | nil =>
    cases h
    rfl
  | cons segment rest ih =>
    obtain ⟨found, hfound, h⟩ := Option.bind_eq_some_iff.1 h
    unfold Binding.member? at hfound
    split at hfound
    · cases hfound
      exact ih h
    · rw [hx] at hfound
      cases hfound

/-- The chain of members of a function whose members are not known leads to the function. -/
theorem exists_edge_of_member {n : Node} {rest : List String} {kind : RelationKind}
    (h : memberReference n (name :: rest) scope kind b = .ok ((), b'))
    (hx : b.scopes.lookup? scope name = some x) (htarget : x.declaration = some target)
    (hmembers : x.members = []) :
    ∃ e ∈ b'.graph.edges, e.relation.kind = kind ∧ b.Joins n target e := by
  refine (memberReference_ok h).2 target ?_
  simp [ScopeTree.resolvePrefix?, hx, descendFar_of_members_nil hmembers, htarget]

/-- **A call of a known function adds an edge for the call.** -/
theorem exists_edge_of_call {n callee : Node} (h : (call n callee name).Performs source scope b b')
    (hx : b.scopes.lookup? scope name = some x) (htarget : x.declaration = some target)
    (hcallable : x.callable.isSome) :
    ∃ e ∈ b'.graph.edges, e.relation = .named .call name ∧ b.Joins n target e := by
  obtain ⟨count, h⟩ := h
  have hlookup : b.scopes.lookupChain? scope [name] = some x := by
    simp [ScopeTree.lookupChain?, hx, Binding.descend?]
  obtain ⟨e, he, hrelation, hjoins⟩ := (namedCallee_ok h).2.1 x target hlookup htarget hcallable
  exact ⟨e, he, hrelation.trans (by simp), hjoins⟩

/-- **Every use of a known function that counts adds an edge to it**, from a statement around the node
that spells it. The members of the function must not be known where the use is one of members. -/
theorem Performs.exists_edge (h : u.Performs source scope b b') (hu : u.Proper source)
    (hbase : u.base? source = some name) (hx : b.scopes.lookup? scope name = some x)
    (htarget : x.declaration = some target) (hcallable : x.callable.isSome)
    (hmembers : u.isPlain = false → x.members = []) :
    ∃ e ∈ b'.graph.edges, e.relation.kind.isUsage ∧
      ∃ m, u.spot ∈ m.nodes ∧ m ∈ u.node.nodes ∧ b.Joins m target e := by
  have hdeclaration : b.scopes.declarationOf? scope name = some target :=
    Option.bind_eq_some_iff.2 ⟨x, hx, htarget⟩
  cases u with
  | name n kind =>
    obtain ⟨-, rfl | rfl⟩ := hu
    · obtain ⟨e, he, hrelation, hjoins⟩ := (textReference_ok h).2 name target hbase hdeclaration
      exact ⟨e, he, by rw [hrelation]; rfl, n, self_mem_nodes n, self_mem_nodes n, hjoins⟩
    · cases hbase
  | argument n =>
    obtain ⟨index, h⟩ := h
    obtain ⟨e, he, hrelation, hjoins⟩ := (textReference_ok h).2 name target hbase hdeclaration
    exact ⟨e, he, by rw [hrelation]; rfl, n, self_mem_nodes n, self_mem_nodes n, hjoins⟩
  | member n chain kind =>
    obtain ⟨rest, rfl⟩ := List.head?_eq_some_iff.1 hbase
    obtain ⟨e, he, hkind, hjoins⟩ := exists_edge_of_member h hx htarget (hmembers rfl)
    refine ⟨e, he, ?_, n, self_mem_nodes n, self_mem_nodes n, hjoins⟩
    rw [hkind]
    rcases hu with rfl | rfl | rfl <;> rfl
  | call n callee name' =>
    cases hbase
    obtain ⟨e, he, hrelation, hjoins⟩ := exists_edge_of_call h hx htarget hcallable
    exact ⟨e, he, by rw [hrelation]; rfl, n, child_mem_nodes hu.1, self_mem_nodes n, hjoins⟩
  | memberCall n callee chain =>
    obtain ⟨rest, rfl⟩ := List.head?_eq_some_iff.1 hbase
    obtain ⟨hmem, hlength⟩ := hu
    obtain ⟨count, h⟩ := h
    cases hchain : b.scopes.lookupChain? scope (name :: rest) with
    | none =>
      -- An unknown member counts as one that is read.
      have hmember := (namedCallee_ok h).2.2 hchain hlength
      obtain ⟨e, he, hkind, hjoins⟩ := exists_edge_of_member hmember hx htarget (hmembers rfl)
      exact ⟨e, he, by rw [hkind]; rfl, callee, self_mem_nodes callee, child_mem_nodes hmem, hjoins⟩
    | some y =>
      obtain ⟨base, hbase', hd⟩ := Option.bind_eq_some_iff.1 hchain
      obtain rfl : x = base := Option.some.inj (hx.symm.trans hbase')
      obtain rfl := descend?_of_members_nil (hmembers rfl) hd
      obtain ⟨e, he, hrelation, hjoins⟩ := (namedCallee_ok h).2.1 y target hchain htarget hcallable
      exact ⟨e, he, by rw [hrelation]; rfl, n, child_mem_nodes hmem, self_mem_nodes n, hjoins⟩
  | pattern n => cases hbase

end Use

end DeadCode
