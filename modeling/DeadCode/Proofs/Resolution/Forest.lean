import DeadCode.Proofs.Resolution.Arranged.File

/-! # Ownership is a forest

Every statement of a file has at most one owner, which strictly contains it. So the statements form
trees, and the roots of the trees are the statements at the top level. -/

namespace DeadCode

theorem length_le_one_of_forall_eq {α : Type} {xs : List α} (hnodup : xs.Nodup)
    (heq : ∀ x ∈ xs, ∀ y ∈ xs, x = y) : xs.length ≤ 1 := by
  match xs with
  | [] => exact Nat.zero_le 1
  | [_] => exact Nat.le_refl 1
  | x :: y :: rest =>
    have hxy : x = y := heq x (by simp) y (by simp)
    exact absurd (List.mem_cons.2 (.inl hxy)) (List.nodup_cons.1 hnodup).1

namespace StatementGraph

/-- A statement owns another directly. -/
def IsOwner (graph : StatementGraph) (u v : VertexId) : Prop :=
  ∃ e ∈ graph.edges, e.relation.kind = .decl ∧ e.source = u ∧ e.target = v

/-- **Ownership is a forest.** -/
structure IsForest (graph : StatementGraph) : Prop where
  /-- At most one edge of ownership arrives at a statement. -/
  sole : ∀ v, ((graph.incoming v).filter (·.relation.kind = .decl)).length ≤ 1
  /-- The range of an owner strictly contains that of what it owns. -/
  inside : ∀ e ∈ graph.edges, e.relation.kind = .decl → ∃ owner owned,
    graph.vertex? e.source = some owner ∧ graph.vertex? e.target = some owned ∧
      owner.span.contains owned.span ∧ owned.span.length < owner.span.length
  /-- Every statement is reached along ownership from exactly one statement at the top level. -/
  rooted : ∀ v < graph.vertices.size,
    ∃! top, top ∈ graph.topLevel ∧ Relation.ReflTransGen graph.IsOwner top v

section Roots

variable {graph : StatementGraph} {t t' u v : VertexId}

theorem not_isOwner_of_mem_topLevel (h : v ∈ graph.topLevel) : ¬ graph.IsOwner u v := by
  rintro ⟨e, he, hkind, -, htarget⟩
  exact (mem_topLevel.1 h).2 e he hkind htarget

/-- If owners are larger than what they own, every statement is reached from the top level. -/
theorem exists_topLevel
    (hlarger : ∀ e ∈ graph.edges, e.relation.kind = .decl → ∃ owner child,
      graph.vertex? e.source = some owner ∧ graph.vertex? e.target = some child ∧
        child.span.length < owner.span.length) (hv : v < graph.vertices.size) :
    ∃ top ∈ graph.topLevel, Relation.ReflTransGen graph.IsOwner top v := by
  let Reached (v : VertexId) : Prop :=
    ∃ top ∈ graph.topLevel, Relation.ReflTransGen graph.IsOwner top v
  have htop (top : VertexId) (h : top ∈ graph.topLevel) : Reached top := ⟨top, h, .refl⟩
  have hown (e : Edge) (he : e ∈ graph.edges) (hkind : e.relation.kind = .decl)
      (hsource : Reached e.source) : Reached e.target := by
    obtain ⟨top, htop, hpath⟩ := hsource
    exact ⟨top, htop, hpath.tail ⟨e, he, hkind, rfl, rfl⟩⟩
  exact topLevel_induction hlarger htop hown hv

/-- If every statement has at most one owner, it is reached from at most one at the top level: two
chains of owners go back through the same statements. -/
theorem topLevel_unique
    (hsole : ∀ {u u' v : VertexId}, graph.IsOwner u v → graph.IsOwner u' v → u = u')
    (ht : t ∈ graph.topLevel) (ht' : t' ∈ graph.topLevel)
    (h : Relation.ReflTransGen graph.IsOwner t v)
    (h' : Relation.ReflTransGen graph.IsOwner t' v) : t = t' := by
  induction h with
  | refl =>
    rcases h'.cases_tail with rfl | ⟨w, -, hw⟩
    · rfl
    · exact absurd hw (not_isOwner_of_mem_topLevel ht)
  | tail _ howner ih =>
    rcases h'.cases_tail with rfl | ⟨w, hw, howner'⟩
    · exact absurd howner (not_isOwner_of_mem_topLevel ht')
    · obtain rfl := hsole howner howner'
      exact ih hw

end Roots

end StatementGraph

namespace Builder.Arranged

open Node

variable {source : String} {root : Node} {b : Builder} {e e' : Edge}

/-- Nothing has two owners. -/
theorem owned_unique (h : b.Arranged source root) (hroot : root.WellSpaced)
    (he : e ∈ b.graph.edges) (he' : e' ∈ b.graph.edges) (hkind : e.relation.kind = .decl)
    (hkind' : e'.relation.kind = .decl) (htarget : e.target = e'.target) : e = e' := by
  obtain ⟨hrelation, o, n, ⟨x, hx, hxkey⟩, ⟨y, hy, hykey⟩, hn, howner⟩ := h.owned e he hkind
  obtain ⟨hrelation', o', n', ⟨x', hx', hxkey'⟩, ⟨y', hy', hykey'⟩, hn', howner'⟩ :=
    h.owned e' he' hkind'
  rw [← htarget] at hy'
  obtain rfl : y = y' := Option.some.inj (hy.symm.trans hy')
  -- The statement stands for one node, the node has one owner, and the owner one statement.
  obtain rfl : n = n' := hroot.spaced.eq_of_key_eq hn.mem_nodes hn'.mem_nodes hn hn'
    (hykey.symm.trans hykey')
  obtain rfl : o = o' := howner.unique howner'
  have hsource : e.source = e'.source :=
    h.distinct _ _ x x' hx hx' (hxkey.trans hxkey'.symm)
  obtain ⟨u, v, relation⟩ := e
  obtain ⟨u', v', relation'⟩ := e'
  dsimp only at hsource htarget hrelation hrelation'
  rw [hsource, htarget, hrelation, hrelation']

/-- What is owned lies inside its owner. -/
theorem owned_inside (h : b.Arranged source root) (hroot : root.WellSpaced)
    (he : e ∈ b.graph.edges) (hkind : e.relation.kind = .decl) : ∃ owner owned,
      b.graph.vertex? e.source = some owner ∧ b.graph.vertex? e.target = some owned ∧
        owner.span.contains owned.span ∧ owned.span.length < owner.span.length := by
  obtain ⟨-, o, n, ⟨x, hx, hxkey⟩, ⟨y, hy, hykey⟩, hn, howner⟩ := h.owned e he hkind
  have hxspan : x.span = o.span := congrArg Key.span hxkey
  have hyspan : y.span = n.span := congrArg Key.span hykey
  refine ⟨x, y, hx, hy, ?_, ?_⟩
  · rw [hxspan, hyspan]
    exact hroot.laid.nested.contains howner.seated.mem_nodes (mem_nodes_of_descendant howner.mem)
  · rw [hxspan, hyspan]
    exact hn.length_lt_of_mem hroot howner.seated.mem_nodes (.inr howner.seated.stated) howner.mem

theorem length_owned_le_one (h : b.Arranged source root) (hroot : root.WellSpaced) (v : VertexId) :
    ((b.graph.incoming v).filter (·.relation.kind = .decl)).length ≤ 1 := by
  have hmem (e : Edge) (he : e ∈ (b.graph.incoming v).filter (·.relation.kind = .decl)) :
      e ∈ b.graph.edges ∧ e.relation.kind = .decl ∧ e.target = v := by
    simpa [StatementGraph.incoming, and_assoc] using he
  refine length_le_one_of_forall_eq ?_ fun e he e' he' => ?_
  · exact (List.nodup_reverse.2 (h.edges.filter _)).filter _
  · obtain ⟨he, hkind, htarget⟩ := hmem e he
    obtain ⟨he', hkind', htarget'⟩ := hmem e' he'
    exact h.owned_unique hroot he he' hkind hkind' (htarget.trans htarget'.symm)

end Builder.Arranged

namespace StatementGraph

/-- **The statement graph of a file is a forest along ownership**, if its tree is spaced well and keeps
what the grammar promises of statements: every statement has at most one owner, the owner strictly
contains it, and every statement is reached from exactly one statement at the top level. -/
theorem exists_isForest_build? (path : Path) (source : String) {root : Node}
    (ambient : List String) (hroot : root.WellSpaced) (hgrammar : root.Grammatical)
    (hdeclarations : root.DeclarationsFit) :
    ∃ graph scopes, build? path source root ambient = .ok (graph, scopes) ∧ graph.IsForest := by
  obtain ⟨b, hbuild, h⟩ :=
    exists_arranged_build? ⟨hroot, hgrammar, hdeclarations⟩ path source ambient
  refine ⟨b.graph, b.scopes, hbuild, ?_, ?_, ?_⟩
  · exact h.length_owned_le_one hroot
  · exact fun e he hkind => h.owned_inside hroot he hkind
  · intro v hv
    have hlarger (e : Edge) (he : e ∈ b.graph.edges) (hkind : e.relation.kind = .decl) :
        ∃ owner owned, b.graph.vertex? e.source = some owner ∧
          b.graph.vertex? e.target = some owned ∧ owned.span.length < owner.span.length := by
      obtain ⟨owner, owned, howner, howned, -, hlt⟩ := h.owned_inside hroot he hkind
      exact ⟨owner, owned, howner, howned, hlt⟩
    obtain ⟨top, htop, hpath⟩ := exists_topLevel hlarger hv
    refine ⟨top, ⟨htop, hpath⟩, ?_⟩
    rintro top' ⟨htop', hpath'⟩
    refine topLevel_unique ?_ htop' htop hpath' hpath
    rintro u u' v ⟨e, he, hkind, rfl, rfl⟩ ⟨e', he', hkind', rfl, htarget⟩
    rw [h.owned_unique hroot he he' hkind hkind' htarget.symm]

/-- The graph of `class A { m() { () => 0 } }` is a forest. -/
theorem isForest_classWithMethod : classWithMethod.WellSpaced ∧ classWithMethod.Grammatical ∧
    classWithMethod.DeclarationsFit ∧ ∃ graph scopes,
      build? ⟨"a.js"⟩ "class A { m() { () => 0 } }" classWithMethod [] = .ok (graph, scopes) ∧
        graph.IsForest :=
  ⟨by decide +kernel, by decide +kernel, by decide +kernel,
    exists_isForest_build? _ _ _ (by decide +kernel) (by decide +kernel) (by decide +kernel)⟩

/-- A tree for `while(function f(){(class{m(){}});})0;` that no grammar allows: the function in the
condition is a declaration. -/
def declarationInCondition : Node :=
  let method : Node :=
    .of .methodDefinition 26 31
      [.part .name (.of .propertyIdentifier 26 27),
       .part .parameters (.of .formalParameters 27 29 [.token "(" 27 28, .token ")" 28 29]),
       .part .body (.of .statementBlock 29 31 [.token "\x7b" 29 30, .token "\x7d" 30 31])]
  let literal : Node :=
    .of .classLiteral 20 32
      [.keyword .classLiteral 20 25,
       .part .body (.of (.other "class_body") 25 32
         [.token "\x7b" 25 26, method, .token "\x7d" 31 32])]
  let statement : Node :=
    .of .expressionStatement 19 34
      [.of .parenthesizedExpression 19 33 [.token "(" 19 20, literal, .token ")" 32 33],
       .token ";" 33 34]
  let function : Node :=
    .part .condition (.of .functionDeclaration 6 35
      [.keyword .functionLiteral 6 14, .part .name (.of .identifier 15 16),
       .part .parameters (.of .formalParameters 16 18 [.token "(" 16 17, .token ")" 17 18]),
       .part .body (.of .statementBlock 18 35
         [.token "\x7b" 18 19, statement, .token "\x7d" 34 35])])
  .of (.other "program") 0 38
    [.of .whileStatement 0 38
       [.token "while" 0 5, .token "(" 5 6, function, .token ")" 35 36,
        .part .body (.of .expressionStatement 36 38 [.of .numberLiteral 36 37, .token ";" 37 38])]]

-- Good spacing is not enough. Here the method is owned twice: the function in the condition is hoisted
-- and entered, and it is read as an expression too.
example : declarationInCondition.WellSpaced ∧ declarationInCondition.DeclarationsFit ∧
    ¬ declarationInCondition.Grammatical ∧
    ((build? ⟨"a.js"⟩ "while(function f()\x7b(class\x7bm()\x7b\x7d\x7d);\x7d)0;"
      declarationInCondition []).toOption.any
      fun r => (List.range r.1.vertices.size).any fun v =>
        1 < ((r.1.incoming v).filter (·.relation.kind = .decl)).length) := by
  decide +kernel

end StatementGraph

end DeadCode
