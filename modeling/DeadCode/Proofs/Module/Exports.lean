import DeadCode.Proofs.Module.Basic
import DeadCode.Proofs.Resolution.Arranged.File

/-! # Statements that expose something and exports

Whether a statement exposes something outside its file is told from the statement alone, at any depth
and for any place below `module.exports` or `exports`. The exports of a file are taken from the
statements at the top of the tree and need a name. The two agree on `export` statements at the top.
They part on statements further down, and on assignments that publish nothing under a name. -/

namespace DeadCode

namespace Node

variable {source : String} {n value part : Node} {chain : List String}

/-! ## Assignments that publish a name -/

/-- The name of a member of an object literal, if the text fixes it: a spread member has none, and
neither has a computed key. -/
def memberName? (source : String) (part : Node) : Option String :=
  match part.kind with
  | .shorthandPropertyIdentifier => part.text? source
  | .pair => (part.child? .key).bind (·.staticKey? source)
  | .methodDefinition => (part.child? .name).bind (·.staticKey? source)
  | _ => none

/-- **The assignment of a value to a place publishes a name**: the place is the exports of the module
or a direct member of them, and an object that becomes the exports has a member with a name. -/
inductive Publishes (source : String) (value : Node) : List String → Prop
  | whole (h : value.kind ≠ .objectLiteral) : Publishes source value ["module", "exports"]
  | member {part : Node} (h : value.kind = .objectLiteral) (hpart : part ∈ value.namedChildren)
      (hname : (part.memberName? source).isSome) : Publishes source value ["module", "exports"]
  | below (name : String) : Publishes source value ["module", "exports", name]
  | short (name : String) : Publishes source value ["exports", name]

/-- An expression statement is an assignment that publishes a name. -/
def PublishesName (source : String) (n : Node) : Prop :=
  ∃ assignment left value chain, n.assignment? = some assignment ∧
    assignment.child? .left = some left ∧ assignment.child? .right = some value ∧
    left.memberChain? source = some chain ∧ Publishes source value chain

/-- The name that a member exports. -/
theorem map_fst_memberExports :
    (part.memberExports source).map Prod.fst = (part.memberName? source).toList := by
  unfold memberExports memberName?
  split <;> simp [*, Function.comp_def]

theorem memberExports_ne_nil_iff :
    part.memberExports source ≠ [] ↔ (part.memberName? source).isSome := by
  rw [ne_eq, ← List.map_eq_nil_iff, map_fst_memberExports]
  cases part.memberName? source <;> simp

/-- The assignments that export something. -/
theorem assignmentExports_ne_nil_iff :
    assignmentExports source chain value ≠ [] ↔ Publishes source value chain := by
  constructor
  · intro h
    unfold assignmentExports at h
    split at h
    · by_cases hkind : value.kind = .objectLiteral
      · rw [if_pos hkind] at h
        obtain ⟨name, hname⟩ := List.exists_mem_of_ne_nil _ h
        obtain ⟨part, hpart, hmem⟩ := List.mem_flatMap.1 hname
        exact .member hkind hpart (memberExports_ne_nil_iff.1 (List.ne_nil_of_mem hmem))
      · exact .whole hkind
    · exact .below _
    · exact .short _
    · exact absurd rfl h
  · intro h
    cases h with
    | whole hkind => simp [assignmentExports, hkind]
    | member hkind hpart hname =>
      obtain ⟨name, hmem⟩ := List.exists_mem_of_ne_nil _ (memberExports_ne_nil_iff.2 hname)
      rw [assignmentExports, if_pos hkind]
      exact List.ne_nil_of_mem (List.mem_flatMap.2 ⟨_, hpart, hmem⟩)
    | below name => simp [assignmentExports]
    | short name => simp [assignmentExports]

/-- The expression statements that export something. -/
theorem expressionExports_ne_nil_iff :
    n.expressionExports source ≠ [] ↔ n.PublishesName source := by
  unfold expressionExports PublishesName
  cases hassignment : n.assignment? with
  | none => simp
  | some assignment =>
    cases hleft : assignment.child? .left with
    | none => simp [hleft]
    | some left =>
      cases hright : assignment.child? .right with
      | none => simp [hleft, hright]
      | some value =>
        cases hchain : left.memberChain? source with
        | none => simp [hleft, hright, hchain]
        | some chain => simp [hleft, hright, hchain, ← assignmentExports_ne_nil_iff]

/-- The statements that expose something. -/
theorem kind_of_isTerminal (h : n.isTerminal source) :
    n.kind = .exportStatement ∨ n.kind = .expressionStatement := by
  unfold isTerminal at h
  split at h
  · next hkind => exact .inl hkind
  · next hkind => exact .inr hkind
  · cases h

end Node

/-! ## The statements that carry an export -/

/-- A statement exports something under a name. -/
def Node.ExportsName (source : String) (n : Node) : Prop :=
  n.kind = .exportStatement ∧ n.statementExports source ≠ [] ∨
    n.kind = .expressionStatement ∧ n.expressionExports source ≠ []

namespace Export

variable {source : String} {path : Path} {graph : StatementGraph} {n : Node} {v : VertexId}

/-- The statements that export something. -/
theorem ofStatement_ne_nil_iff (h : graph.vertexByKey? n.key = some v) :
    ofStatement source path graph n ≠ [] ↔ n.ExportsName source := by
  unfold ofStatement Node.ExportsName
  rw [h]
  dsimp only
  split
  · next hkind => simp [hkind]
  · next hkind => simp [hkind]
  · next hexport hexpression =>
    refine ⟨absurd rfl, ?_⟩
    rintro (⟨hkind, -⟩ | ⟨hkind, -⟩)
    · exact (hexport hkind).elim
    · exact (hexpression hkind).elim

/-- A statement carries an export if it is that of a node at the top of the tree that exports
something under a name. -/
theorem exists_vertex_eq_iff {root : Node} :
    (∃ r ∈ ofFile source path root graph, r.vertex = v) ↔
      ∃ n ∈ root.namedChildren, graph.vertexByKey? n.key = some v ∧ n.ExportsName source := by
  constructor
  · rintro ⟨r, hr, rfl⟩
    obtain ⟨n, hn, hmem⟩ := List.mem_flatMap.1 hr
    have hvertex := vertex_of_mem_ofStatement hmem
    exact ⟨n, hn, hvertex, (ofStatement_ne_nil_iff hvertex).1 (List.ne_nil_of_mem hmem)⟩
  · rintro ⟨n, hn, hvertex, hexports⟩
    obtain ⟨r, hr⟩ := List.exists_mem_of_ne_nil _ ((ofStatement_ne_nil_iff hvertex).2 hexports)
    refine ⟨r, List.mem_flatMap.2 ⟨n, hn, hr⟩, ?_⟩
    exact Option.some.inj ((vertex_of_mem_ofStatement hr).symm.trans hvertex)

end Export

/-! ## Agreement -/

namespace SourceModule

/-- A statement carries an export of its file. -/
def Carries (m : SourceModule) (v : VertexId) : Prop :=
  ∃ r ∈ m.exports, r.vertex = v

end SourceModule

namespace Builder.Arranged

open Node

variable {source : String} {root n : Node} {b : Builder} {v : VertexId} {x : Vertex}

/-- A node at the top of the tree that has the identity of a statement has that statement. -/
theorem vertexByKey?_eq (h : b.Arranged source root) (hx : b.graph.vertex? v = some x)
    (hkey : n.key = x.key) : b.graph.vertexByKey? n.key = some v := by
  rw [hkey]
  exact h.stands.vertexByKey?_eq hx

/-- **An `export` statement at the top that uses something exports something.** -/
theorem statementExports_ne_nil (h : b.Arranged source root) (hroot : root.WellSpaced)
    (hnames : root.NamesFit) (hx : b.graph.vertex? v = some x) (hn : n ∈ root.namedChildren)
    (hkey : n.key = x.key) (hkind : n.kind = .exportStatement) {e : Edge}
    (he : e ∈ b.graph.outgoing v) (husage : e.relation.kind.isUsage) :
    n.statementExports source ≠ [] := by
  obtain ⟨hmem, rfl⟩ : e ∈ b.graph.edges ∧ e.source = v := by
    simpa [StatementGraph.outgoing] using he
  obtain ⟨o, ho, ⟨y, hy, hykey⟩, hexposes⟩ := h.uses hnames e hmem
    (fun hk => by simp [hk, RelationKind.isUsage] at husage)
    (fun hk => by simp [hk, RelationKind.isUsage] at husage)
  obtain rfl : x = y := Option.some.inj (hx.symm.trans hy)
  have hseated : Seated root n := seated_of_top hn (by rw [hkind]; rfl)
  -- The edge was made in the course of a node with a seat, and only one has this identity.
  obtain rfl : n = o := hroot.spaced.eq_of_key_eq hseated.mem_nodes ho.mem_nodes hseated ho
    (hkey.trans hykey)
  exact hexposes hkind

/-- A statement that exposes something is an `export` statement or an expression statement. -/
theorem kind_of_isTerminal (h : b.Arranged source root) (hx : b.graph.vertex? v = some x)
    (hterminal : x.isTerminal) :
    x.key.kind = .exportStatement ∨ x.key.kind = .expressionStatement := by
  obtain ⟨n, -, hkey, hn⟩ := h.vertices x (Array.mem_of_getElem? hx)
  rw [hkey]
  exact Node.kind_of_isTerminal (hn hterminal)

end Builder.Arranged

namespace SourceModule

/-- **Which statements that expose something carry an export.** In a file whose tree is spaced well and
keeps what the grammar promises, a statement that exposes something and uses something carries an
export if and only if it stands at the top of the tree and, unless it is an `export` statement,
publishes a name. -/
theorem exists_carries_iff (path : Path) (source : String) (language : Language) {root : Node}
    (ambient : List String) (hroot : root.WellSpaced) (hgrammar : root.Grammatical)
    (hdeclarations : root.DeclarationsFit) (hnames : root.NamesFit) :
    ∃ m, ofTree path source language root ambient = .ok m ∧
      ∀ v x, m.graph.vertex? v = some x → x.isTerminal →
        (∃ e ∈ m.graph.outgoing v, e.relation.kind.isUsage) →
          (m.Carries v ↔ ∃ n ∈ root.namedChildren, n.key = x.key ∧
            (n.kind = .expressionStatement → n.PublishesName source)) := by
  obtain ⟨b, hbuild, h⟩ :=
    exists_arranged_build? ⟨hroot, hgrammar, hdeclarations⟩ path source ambient
  refine ⟨_, by rw [ofTree, hbuild], ?_⟩
  rintro v x hx hterminal ⟨e, he, husage⟩
  refine Export.exists_vertex_eq_iff.trans ⟨?_, ?_⟩
  · rintro ⟨n, hn, hvertex, hexports⟩
    obtain ⟨y, hy, hkey⟩ := StatementGraph.exists_of_vertexByKey? hvertex
    obtain rfl : x = y := Option.some.inj (hx.symm.trans hy)
    refine ⟨n, hn, hkey.symm, fun hkind => ?_⟩
    rcases hexports with ⟨hkind', -⟩ | ⟨-, hne⟩
    · rw [hkind'] at hkind
      cases hkind
    · exact Node.expressionExports_ne_nil_iff.1 hne
  · rintro ⟨n, hn, hkey, hpublishes⟩
    refine ⟨n, hn, h.vertexByKey?_eq hx hkey, ?_⟩
    -- The kind is part of the identity, so it tells the two ways of exporting apart.
    have hkind : n.kind = x.key.kind := congrArg Key.kind hkey
    rcases h.kind_of_isTerminal hx hterminal with hexport | hexpression
    · have hkind := hkind.trans hexport
      exact .inl ⟨hkind, h.statementExports_ne_nil hroot hnames hx hn hkey hkind he husage⟩
    · have hkind := hkind.trans hexpression
      exact .inr ⟨hkind, Node.expressionExports_ne_nil_iff.2 (hpublishes hkind)⟩

/-! ### The same assignment at the top and in a branch -/

/-- The function of `function helper() {}`. -/
def helperFunction : Node :=
  .of .functionDeclaration 0 20
    [.keyword .functionLiteral 0 8, .part .name (.of .identifier 9 15),
     .part .parameters (.of .formalParameters 15 17 [.token "(" 15 16, .token ")" 16 17]),
     .part .body (.of .statementBlock 18 20 [.token "\x7b" 18 19, .token "\x7d" 19 20])]

/-- The statement `module.exports = helper;` at an offset. -/
def assignsHelper (start : Nat) : Node :=
  let place : Node :=
    .part .left (.of .memberExpression start (start + 14)
      [.part .object (.of .identifier start (start + 6)), .token "." (start + 6) (start + 7),
       .part .property (.of .propertyIdentifier (start + 7) (start + 14))])
  .of .expressionStatement start (start + 24)
    [.of .assignmentExpression start (start + 23)
       [place, .token "=" (start + 15) (start + 16),
        .part .right (.of .identifier (start + 17) (start + 23))],
     .token ";" (start + 23) (start + 24)]

/-- A function, and an assignment to the exports at the top of the file. -/
def exportingText : String :=
  "function helper() \x7b\x7d\nmodule.exports = helper;"

/-- The tree of `exportingText`. -/
def exportingFile : Node :=
  .of (.other "program") 0 45 [helperFunction, assignsHelper 21]

/-- The assignment at the top of the file carries an export. -/
theorem exists_carries_exportingFile :
    exportingFile.WellSpaced ∧ exportingFile.Grammatical ∧ exportingFile.DeclarationsFit ∧
      exportingFile.NamesFit ∧ ∃ m,
        ofTree ⟨"/app/lib.js"⟩ exportingText .javaScript exportingFile ScopeTree.defaultAmbient =
          .ok m ∧ m.Carries 1 := by
  have hroot : exportingFile.WellSpaced ∧ exportingFile.Grammatical ∧
      exportingFile.DeclarationsFit ∧ exportingFile.NamesFit := by decide +kernel
  obtain ⟨hspaced, hgrammar, hdeclarations, hnames⟩ := hroot
  refine ⟨hspaced, hgrammar, hdeclarations, hnames, ?_⟩
  obtain ⟨m, hm, h⟩ := exists_carries_iff ⟨"/app/lib.js"⟩ exportingText .javaScript
    ScopeTree.defaultAmbient hspaced hgrammar hdeclarations hnames
  have hmem : assignsHelper 21 ∈ exportingFile.namedChildren :=
    List.mem_filter.2 ⟨List.mem_cons_of_mem _ List.mem_cons_self, rfl⟩
  have hpublishes : (assignsHelper 21).PublishesName exportingText :=
    ⟨_, _, _, ["module", "exports"], rfl, rfl, rfl, by decide +kernel, .whole (by decide)⟩
  obtain ⟨_, hm', hx, huse⟩ := exists_ok_of_decide
    (x := ofTree ⟨"/app/lib.js"⟩ exportingText .javaScript exportingFile ScopeTree.defaultAmbient)
    (p := fun m => (m.graph.vertex? 1).any (fun x => x.isTerminal ∧ (assignsHelper 21).key = x.key) ∧
      ∃ e ∈ m.graph.outgoing 1, e.relation.kind.isUsage) (by decide +kernel)
  cases hm.symm.trans hm'
  obtain ⟨x, hx, hstatement⟩ := (Option.any_eq_true _ _).1 hx
  obtain ⟨hterminal, hkey⟩ := of_decide_eq_true hstatement
  exact ⟨m, hm,
    (h 1 x hx hterminal huse).2 ⟨assignsHelper 21, hmem, hkey, fun _ => hpublishes⟩⟩

/-- The same with the assignment in a branch. -/
def branchingText : String :=
  "function helper() \x7b\x7d\nif (module) \x7b module.exports = helper; \x7d"

/-- The tree of `branchingText`. -/
def branchingFile : Node :=
  let body : Node :=
    .part .consequence (.of .statementBlock 33 61
      [.token "\x7b" 33 34, assignsHelper 35, .token "\x7d" 60 61])
  .of (.other "program") 0 61
    [helperFunction,
     .of .ifStatement 21 61
       [.token "if" 21 23,
        .part .condition (.of .parenthesizedExpression 24 32
          [.token "(" 24 25, .of .identifier 25 31, .token ")" 31 32]), body]]

/-- **In a branch it carries none**: the assignment exposes the function and uses it, and the file
exports nothing. -/
theorem branchingFile_not_carries :
    branchingFile.WellSpaced ∧ branchingFile.Grammatical ∧ branchingFile.DeclarationsFit ∧
      branchingFile.NamesFit ∧ ∃ m,
        ofTree ⟨"/app/lib.js"⟩ branchingText .javaScript branchingFile ScopeTree.defaultAmbient =
          .ok m ∧
          (∃ x, m.graph.vertex? 2 = some x ∧ x.isTerminal) ∧
          (∃ e ∈ m.graph.outgoing 2, e.relation.kind = .read) ∧ ¬ m.Carries 2 := by
  refine ⟨by decide +kernel, by decide +kernel, by decide +kernel, by decide +kernel, ?_⟩
  obtain ⟨m, hm, hx, huse, hnone⟩ := exists_ok_of_decide
    (x := ofTree ⟨"/app/lib.js"⟩ branchingText .javaScript branchingFile ScopeTree.defaultAmbient)
    (p := fun m => (m.graph.vertex? 2).any (·.isTerminal) ∧
      (∃ e ∈ m.graph.outgoing 2, e.relation.kind = .read) ∧ m.exports = []) (by decide +kernel)
  refine ⟨m, hm, (Option.any_eq_true _ _).1 hx, huse, ?_⟩
  rintro ⟨r, hr, -⟩
  rw [hnone] at hr
  cases hr

end SourceModule

end DeadCode
