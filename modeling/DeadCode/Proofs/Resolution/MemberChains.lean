import DeadCode.Proofs.Resolution.History
import DeadCode.Proofs.Scope.Chains

/-! # What a static member chain is related to

A chain of names such as `a.b.c` is resolved as far as its members are known, and the statement
around it is related to the declaration of the last one that is. In every state that a history
reaches the members of declared names are declared too. The one exception is the member `exports` of
`module`, which the host environment provides: a name that is a copy of `module` has it as well, and
what leads through it to no known member is related to nothing, not even to the copy. -/

namespace DeadCode

/-! ## Relating a node to a statement -/

open Build in
/-- **A node can be related to any statement**, which adds the one edge from the statement around
the node, if statements are found by their own ranges. -/
theorem Builder.relate_eq {b : Builder} {n : Node} {u v : VertexId} {x : Vertex}
    (hu : b.graph.findVertex? n.span = some u)
    (hx : b.graph.vertex? v = some x) (hv : b.graph.findVertex? x.span = some v)
    (relation : Relation) :
    ∃ graph, relate n v relation b = .ok ((), { b with graph }) ∧
      ∀ e, e ∈ graph.edges ↔ e ∈ b.graph.edges ∨ e = ⟨u, v, relation⟩ := by
  obtain ⟨y, hy, -⟩ := StatementGraph.exists_of_findVertex? hu
  obtain ⟨id, graph, hconnect⟩ := StatementGraph.exists_connect
    (StatementGraph.lt_size_of_vertex? hy) (StatementGraph.lt_size_of_vertex? hx) relation
  refine ⟨graph, ?_, (StatementGraph.of_connect hconnect).2.2.2⟩
  rw [relate, onGraph_apply]
  simp [hx, StatementGraph.addEdge, hu, hv, hconnect, Except.map]

/-! ## Histories -/

namespace Trace

variable {path : Path} {ambient : List String} {source : String} {root : Node} {w : Trace}

/-- **A static member chain whose base is declared** is related to the declaration of its longest
known prefix, and nothing else changes, unless this prefix ends in the member `exports` of the host
environment, which nothing declares: then nothing changes at all. -/
theorem Reached.member_related_unless_exports (hroot : root.WellLaid)
    (h : Reached path ambient source root w) {n : Node} {scope : ScopeId} {kind : RelationKind}
    {name : String} {rest : List String} {base : Binding} {u v : VertexId}
    (hchain : n.memberChain? source = some (name :: rest))
    (hbase : w.builder.scopes.lookup? scope name = some base) (hv : base.declaration = some v)
    (hu : w.builder.graph.findVertex? n.span = some u) :
    ∃ b deepest depth, Build.member source n scope kind w.builder = .ok ((), b) ∧
      w.builder.scopes.Farthest scope (name :: rest) deepest depth ∧
      ((∃ target, deepest.declaration = some target ∧ b = { w.builder with graph := b.graph } ∧
          ∀ e, e ∈ b.graph.edges ↔ e ∈ w.builder.graph.edges ∨
            e = ⟨u, target, .named kind (".".intercalate (name :: rest))⟩) ∨
        deepest = .placeholder "exports" ∧ "exports" ∈ rest ∧ b = w.builder) := by
  have hresolve := ScopeTree.resolvePrefix?_of_lookup? hbase rest
  have hmember : Build.member source n scope kind w.builder =
      Build.memberReference n (name :: rest) scope kind w.builder := by
    rw [Build.member, hchain]
  rw [hmember, Build.memberReference, Build.get_bind_apply, hresolve, Option.bind_some]
  rcases h.grounded.resolvePrefix? hbase hv hresolve with ⟨target, htarget, hlt⟩ | hexports
  · -- The statement that declares the member is found by its range.
    obtain ⟨x, hx⟩ := StatementGraph.exists_vertex? hlt
    obtain ⟨graph, hrelate, hedges⟩ := Builder.relate_eq hu hx
      (h.stands.findVertex?_span hroot hx) (.named kind (".".intercalate (name :: rest)))
    rw [htarget]
    exact ⟨_, _, _, hrelate, ScopeTree.farthest_of_lookup? hbase,
      .inl ⟨target, htarget, rfl, hedges⟩⟩
  · refine ⟨w.builder, _, _, ?_, ScopeTree.farthest_of_lookup? hbase,
      .inr ⟨hexports.1, hexports.2, rfl⟩⟩
    rw [hexports.1]
    rfl

end Trace

/-! In `const m = {}; m.x = 1; m.x.y;` the second statement declares the member `x` of `m`. The
third is related to it, as nothing is known of `y`. -/

/-- The member expression `m.x.y` in `const m = {}; m.x = 1; m.x.y;`. -/
def laterMember : Node :=
  .of .memberExpression 23 28
    [.part .object (.of .memberExpression 23 26
       [.part .object (.of .identifier 23 24), .token "." 24 25,
        .part .property (.of .propertyIdentifier 25 26)]), .token "." 26 27,
     .part .property (.of .propertyIdentifier 27 28)]

/-- The tree of `const m = {}; m.x = 1; m.x.y;`. -/
def storedMemberFile : Node :=
  .of (.other "program") 0 29
    [.of .lexicalDeclaration 0 13
       [.part .kind (.token "const" 0 5),
        .of .variableDeclarator 6 12
          [.part .name (.of .identifier 6 7), .token "=" 8 9,
           .part .value (.of .objectLiteral 10 12 [.token "\x7b" 10 11, .token "\x7d" 11 12])],
        .token ";" 12 13],
     .of .expressionStatement 14 22
       [.of .assignmentExpression 14 21
          [.part .left (.of .memberExpression 14 17
             [.part .object (.of .identifier 14 15), .token "." 15 16,
              .part .property (.of .propertyIdentifier 16 17)]), .token "=" 18 19,
           .part .right (.of .numberLiteral 20 21)], .token ";" 21 22],
     .of .expressionStatement 23 29 [laterMember, .token ";" 28 29]]

/-- At the end of the file the chain is related to the statement that stores the member. -/
theorem member_related_storedMemberFile : ∃ w b,
    Trace.Reached ⟨"a.js"⟩ [] "const m = {}; m.x = 1; m.x.y;" storedMemberFile w ∧
      (StatementGraph.build? ⟨"a.js"⟩ "const m = {}; m.x = 1; m.x.y;" storedMemberFile []) =
        .ok (w.builder.graph, w.builder.scopes) ∧
      Build.member "const m = {}; m.x = 1; m.x.y;" laterMember ScopeTree.globalId .readProp
        w.builder = .ok ((), b) ∧
      (⟨2, 1, .named .readProp "m.x.y"⟩ : Edge) ∈ b.graph.edges := by
  obtain ⟨⟨graph, scopes⟩, hbuild, hu, hm, hx, hy⟩ := exists_ok_of_decide
    (x := StatementGraph.build? ⟨"a.js"⟩ "const m = {}; m.x = 1; m.x.y;" storedMemberFile [])
    (p := fun r => r.1.findVertex? laterMember.span = some 2 ∧
      (r.2.declarationOf? ScopeTree.globalId "m").isSome ∧
      (r.2.lookupChain? ScopeTree.globalId ["m", "x"]).bind (·.declaration) = some 1 ∧
      (r.2.lookupChain? ScopeTree.globalId ["m", "x", "y"]).isNone) (by decide +kernel)
  obtain ⟨v, hv⟩ := Option.isSome_iff_exists.1 hm
  obtain ⟨base, hbase, hbasev⟩ := Option.bind_eq_some_iff.1 hv
  obtain ⟨x, hfound, hx⟩ := Option.bind_eq_some_iff.1 hx
  have hchain : laterMember.memberChain? "const m = {}; m.x = 1; m.x.y;" =
      some ["m", "x", "y"] := by
    decide +kernel
  have hroot : storedMemberFile.WellLaid ∧ storedMemberFile.Grammatical := by decide +kernel
  obtain ⟨w, hw, rfl, rfl, -⟩ := Trace.exists_of_build? hroot.1.laid.nested hroot.2 hbuild
  obtain ⟨b, deepest, depth, hmember, hfarthest, hends⟩ :=
    hw.reached.member_related_unless_exports hroot.1 hchain hbase hbasev hu
  rcases hends with ⟨target, htarget, -, hedges⟩ | ⟨-, hexports, -⟩
  · refine ⟨w, b, hw.reached, hbuild, hmember, (hedges _).2 (.inr ?_)⟩
    have hdeepest : w.builder.scopes.Farthest ScopeTree.globalId ["m", "x", "y"] x 2 := by
      refine ⟨by decide, hfound, fun k hlt hle => ?_⟩
      obtain rfl : k = 3 := Nat.le_antisymm hle hlt
      simpa using hy
    obtain rfl := hfarthest.unique hdeepest
    obtain rfl : target = 1 := Option.some.inj (htarget.symm.trans hx)
    rfl
  · exact absurd hexports (by decide)

/-! In `const m = module; m.exports.x;` the chain leads to the member `exports` of `module`, which
`m` has as a copy. Nothing declares it, so that the second statement is not related to the first. -/

/-- The member expression `m.exports.x` in `const m = module; m.exports.x;`. -/
def copiedExports : Node :=
  .of .memberExpression 18 29
    [.part .object (.of .memberExpression 18 27
       [.part .object (.of .identifier 18 19), .token "." 19 20,
        .part .property (.of .propertyIdentifier 20 27)]), .token "." 27 28,
     .part .property (.of .propertyIdentifier 28 29)]

/-- The tree of `const m = module; m.exports.x;`. -/
def copiedModuleFile : Node :=
  .of (.other "program") 0 30
    [.of .lexicalDeclaration 0 17
       [.part .kind (.token "const" 0 5),
        .of .variableDeclarator 6 16
          [.part .name (.of .identifier 6 7), .token "=" 8 9, .part .value (.of .identifier 10 16)],
        .token ";" 16 17], .of .expressionStatement 18 30 [copiedExports, .token ";" 29 30]]

/-- The base of the chain is declared by the first statement, but there is no edge to it. -/
theorem copiedExports_unrelated :
    copiedExports.memberChain? "const m = module; m.exports.x;" = some ["m", "exports", "x"] ∧
      ∃ graph scopes, StatementGraph.build? ⟨"a.js"⟩ "const m = module; m.exports.x;"
          copiedModuleFile ["module"] = .ok (graph, scopes) ∧
        scopes.declarationOf? ScopeTree.globalId "m" = some 0 ∧
        graph.findVertex? copiedExports.span = some 1 ∧ graph.edges = #[] := by
  refine ⟨by decide +kernel, ?_⟩
  obtain ⟨⟨graph, scopes⟩, hbuild, h⟩ := exists_ok_of_decide
    (x := StatementGraph.build? ⟨"a.js"⟩ "const m = module; m.exports.x;" copiedModuleFile ["module"])
    (p := fun r => r.2.declarationOf? ScopeTree.globalId "m" = some 0 ∧
      r.1.findVertex? copiedExports.span = some 1 ∧ r.1.edges = #[]) (by decide +kernel)
  exact ⟨graph, scopes, hbuild, h⟩

end DeadCode
