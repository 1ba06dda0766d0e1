import DeadCode.Proofs.Project.DeadStatements
import DeadCode.Proofs.Project.Analyzed

/-! # Declarations that load modules

A declaration that nothing uses and that exports nothing is reported, with one exception: a
statement whose imports bind no name is taken to be there for running the modules. Imports are tied
to the innermost statement around them, wherever in it they stand. So a call of `require` or
`import` deep inside an initialiser or a parameter list is an import of the whole declaration, and
if none of them binds a name, nothing is reported. -/

namespace DeadCode

/-! ## Imports tied to a statement -/

/-- A call deep inside an expression: it is neither the value of a declarator or of an assignment
nor the object of a member expression. -/
def Node.IsDeepCall (around : List Node) (n : Node) : Prop :=
  n.kind = .callExpression ∧ ∀ parent ∈ around.head?, parent.kind ∉
    [.variableDeclarator, .assignmentExpression, .memberExpression]

namespace Import

variable {context : Context} {root n : Node} {around : List Node} {i : Import}

/-- An import of a file is tied to a statement: a node makes it, in its place in the tree, and the
statement is the innermost one around the node. -/
def Tied (path : Path) (source : String) (root : Node) (graph : StatementGraph) (v : VertexId)
    (i : Import) : Prop :=
  ∃ around n, root.Amid around n ∧ graph.findVertex? n.span = some v ∧
    i ∈ atNode { source, directory := path.parent?.getD ⟨"/"⟩, graph } around n

theorem tied_iff {path : Path} {source : String} {graph : StatementGraph} {v : VertexId} :
    Tied path source root graph v i ↔ i ∈ ofFile path source root graph ∧ i.vertex = some v := by
  rw [mem_ofFile_iff, Tied]
  constructor
  · rintro ⟨around, n, hamid, hv, hi⟩
    exact ⟨⟨around, n, hamid, hi⟩, by rw [vertex_of_mem_atNode hi, hv]⟩
  · rintro ⟨⟨around, n, hamid, hi⟩, hv⟩
    refine ⟨around, n, hamid, ?_, hi⟩
    rw [← hv, vertex_of_mem_atNode hi]

/-- **What a call deep inside an expression imports is bound to no name.** -/
theorem localName_of_isDeepCall (h : n.IsDeepCall around) (hi : i ∈ atNode context around n) :
    i.localName = none := by
  have hnames {specifier : String} {kind : ImportKind}
      {names : List (Option String × ImportedName)} (hall : ∀ entry ∈ names, entry.1 = none)
      (hi : i ∈ ofNames context n specifier kind names) : i.localName = none := by
    unfold ofNames at hi
    split at hi
    · cases hi
    · obtain ⟨entry, hentry, rfl⟩ := List.mem_map.1 hi
      exact hall entry hentry
  unfold atNode at hi
  rw [h.1] at hi
  dsimp only at hi
  split at hi
  · refine hnames (fun entry hentry => ?_) hi
    unfold Node.requireImports at hentry
    split at hentry
    · rw [List.mem_singleton] at hentry
      rw [hentry]
    · next parent outer =>
      have hparent := h.2 parent (by simp)
      split at hentry
      · next hk => simp [hk] at hparent
      · rw [List.mem_singleton] at hentry
        rw [hentry]
      · next hk => simp [hk] at hparent
      · next hk => simp [hk] at hparent
      · rw [List.mem_singleton] at hentry
        rw [hentry]
  · split at hi
    · refine hnames (fun entry hentry => ?_) hi
      rw [List.mem_singleton] at hentry
      rw [hentry]
    · cases hi

end Import

/-! ## Unused declarations -/

/-- A statement binds what it imports if no import is tied to it, or one that has a local name. -/
theorem SourceModule.bindsImports_iff {path : Path} {source : String} {root : Node}
    {ambient : List String} {m : SourceModule} {v : VertexId}
    (hm : SourceText.analyze ambient ⟨path, some source, some root⟩ = .ok m) :
    m.BindsImports v ↔ ((∃ i, Import.Tied path source root m.graph v i) →
      ∃ i, Import.Tied path source root m.graph v i ∧ i.localName.isSome) := by
  obtain ⟨language, htree⟩ := SourceText.exists_ofTree hm
  obtain ⟨-, -, himports, -⟩ := SourceModule.of_ofTree htree
  simp only [SourceModule.BindsImports, Import.tied_iff, ← himports, and_assoc]
  constructor
  · rintro (hnone | hsome) ⟨i, hi, hv⟩
    · exact absurd hv (hnone i hi)
    · exact hsome
  · intro h
    by_cases hex : ∃ i ∈ m.imports, i.vertex = some v
    · exact .inr (h hex)
    · exact .inl fun i hi hv => hex ⟨i, hi, hv⟩

namespace Project

/-- **Which unused declarations are reported.** Let a declaration of a reached file have no incoming
usage edge from a statement outside its own range, and let it produce no export. If no import is
tied to it, or one of those that are binds a name, then it has its entry in the report. If imports
are tied to it and none of them binds a name, nothing is found of it. This is so if only calls deep
inside it are imports. -/
theorem unused_reported_unless_tied {project : Project} {file : FileId} {path : Path}
    {source : String} {root : Node} {ambient : List String} {m : SourceModule} {v : VertexId}
    {x : Vertex} (hm : SourceText.analyze ambient ⟨path, some source, some root⟩ = .ok m)
    (hfile : project.file? file = some m)
    (hreached : file ∈ (project.reach project.entryFiles).files)
    (hx : m.graph.vertex? v = some x) (hdeclaration : x.isDeclaration)
    (hunused : ∀ e ∈ m.graph.edges, e.target = v → e.relation.kind ∈ RelationKind.usages →
      ∀ user, m.graph.vertex? e.source = some user → x.span.contains user.span)
    (hexport : ∀ e ∈ m.exports, e.producer ≠ v) :
    (((∃ i, Import.Tied path source root m.graph v i) →
        ∃ i, Import.Tied path source root m.graph v i ∧ i.localName.isSome) →
      entryOf m v x ∈ project.report.deadStatements) ∧
    ((∃ i, Import.Tied path source root m.graph v i) →
      (∀ i, Import.Tied path source root m.graph v i → i.localName = none) →
      project.finding? file v = none) ∧
    ((∃ i, Import.Tied path source root m.graph v i) →
      (∀ around n i, root.Amid around n → m.graph.findVertex? n.span = some v →
        i ∈ Import.atNode ⟨source, path.parent?.getD ⟨"/"⟩, m.graph⟩ around n →
          n.IsDeepCall around) →
      project.finding? file v = none) := by
  have hfinding {d : DeadStatement} : project.finding? file v = some d ↔
      ∃ m x, project.Dead ⟨file, v⟩ m x ∧ d = entryOf m v x :=
    @finding?_eq_some_iff project ⟨file, v⟩ d hreached
  have hnone (htied : ∃ i, Import.Tied path source root m.graph v i)
      (hlocal : ∀ i, Import.Tied path source root m.graph v i → i.localName = none) :
      project.finding? file v = none := by
    by_contra hfound
    obtain ⟨d, hd⟩ := Option.ne_none_iff_exists'.1 hfound
    obtain ⟨m', x', hdead, -⟩ := hfinding.1 hd
    obtain rfl : m' = m := Option.some.inj (hdead.file.symm.trans hfile)
    obtain ⟨i, hi, hsome⟩ := (SourceModule.bindsImports_iff hm).1 hdead.binds htied
    rw [hlocal i hi] at hsome
    cases hsome
  refine ⟨?_, hnone, fun htied hdeep => hnone htied ?_⟩
  · intro hbinds
    have hdead : project.Dead ⟨file, v⟩ m x := by
      refine ⟨hreached, hfile, hx, hdeclaration, (SourceModule.bindsImports_iff hm).2 hbinds,
        ?_, fun e he hproducer => absurd hproducer (hexport e he)⟩
      rintro ⟨e, he, htarget, hkind, user, huser, houtside, -⟩
      exact houtside (hunused e he htarget hkind user huser)
    exact mem_deadStatements.2 ⟨file, hreached, v, hfinding.2 ⟨m, x, hdead, rfl⟩⟩
  · rintro i ⟨around, n, hamid, hv, hi⟩
    exact Import.localName_of_isDeepCall (hdeep around n i hamid hv hi) hi

end Project

/-! In `const f = () => require('p');` and `const a = 1;` nothing uses the names. The call in the
arrow function binds none, so it is an import that makes up the purpose of the first declaration. -/

/-- The call in `const f = () => require('p');`. -/
def lazyCall : Node :=
  .part .body (.of .callExpression 16 28
    [.part .function (.of .identifier 16 23),
     .part .arguments (.of (.other "arguments") 23 28
       [.token "(" 23 24, .quoted "'" 24 27, .token ")" 27 28])])

/-- The arrow function around the call. -/
def lazyArrow : Node :=
  .part .value (.of .arrowFunction 10 28
    [.part .parameters (.of .formalParameters 10 12 [.token "(" 10 11, .token ")" 11 12]),
     .token "=>" 13 15, lazyCall])

/-- The declarator of `f`. -/
def lazyDeclarator : Node :=
  .of .variableDeclarator 6 28 [.part .name (.of .identifier 6 7), .token "=" 8 9, lazyArrow]

/-- The declaration `const f = () => require('p');`. -/
def lazyDeclaration : Node :=
  .of .lexicalDeclaration 0 29 [.part .kind (.token "const" 0 5), lazyDeclarator, .token ";" 28 29]

/-- The tree of `const f = () => require('p');` and `const a = 1;`. -/
def lazyFile : Node :=
  .of (.other "program") 0 42
    [lazyDeclaration,
     .of .lexicalDeclaration 30 42
       [.part .kind (.token "const" 30 35),
        .of .variableDeclarator 36 41
          [.part .name (.of .identifier 36 37), .token "=" 38 39,
           .part .value (.of .numberLiteral 40 41)], .token ";" 41 42]]

/-- The text of the file. -/
def lazyText : String :=
  "const f = () => require('p');\nconst a = 1;"

/-- The project whose one file, an entry, is this. -/
def lazyProject : Project :=
  .ofSources { root := ⟨"/app"⟩, entries := [⟨"index.js"⟩] } none
    [⟨⟨"/app/index.js"⟩, some lazyText, some lazyFile⟩]

/-- The second declaration is reported, and nothing is found of the first one. -/
theorem lazyProject_reported : ∃ m x y, lazyProject.file? 0 = some m ∧
    m.graph.vertex? 0 = some x ∧ m.graph.vertex? 1 = some y ∧
    lazyProject.finding? 0 0 = none ∧
    Project.entryOf m 1 y ∈ lazyProject.report.deadStatements := by
  have hrun : (lazyProject.file? 0).any fun m => (m.graph.vertex? 0).any (·.isDeclaration) ∧
      (m.graph.vertex? 1).any (·.isDeclaration) ∧ m.graph.edges = #[] ∧ m.exports = [] ∧
      (∃ i ∈ m.imports, i.vertex = some 0) ∧
      ∀ i ∈ m.imports, i.vertex = some 0 ∧ i.localName = none := by decide +kernel
  have hreached : 0 ∈ (lazyProject.reach lazyProject.entryFiles).files := by decide +kernel
  obtain ⟨m, hfile, hfacts⟩ := (Option.any_eq_true _ _).1 hrun
  obtain ⟨hx, hy, hedges, hexports, ⟨i, hi, hv⟩, himports⟩ := of_decide_eq_true hfacts
  obtain ⟨x, hx, hxdeclaration⟩ := (Option.any_eq_true _ _).1 hx
  obtain ⟨y, hy, hydeclaration⟩ := (Option.any_eq_true _ _).1 hy
  have hm := Project.analyze_of_file? hfile
  have htied {v : VertexId} {i : Import} :
      Import.Tied ⟨"/app/index.js"⟩ lazyText lazyFile m.graph v i ↔
        i ∈ m.imports ∧ i.vertex = some v := by
    obtain ⟨language, htree⟩ := SourceText.exists_ofTree hm
    rw [Import.tied_iff, (SourceModule.of_ofTree htree).2.2.1]
  have hunused (v : VertexId) (x : Vertex) : ∀ e ∈ m.graph.edges, e.target = v →
      e.relation.kind ∈ RelationKind.usages → ∀ user, m.graph.vertex? e.source = some user →
        x.span.contains user.span := by simp [hedges]
  have hexport (v : VertexId) : ∀ e ∈ m.exports, e.producer ≠ v := by simp [hexports]
  refine ⟨m, x, y, hfile, hx, hy, ?_, ?_⟩
  · refine (Project.unused_reported_unless_tied hm hfile hreached hx hxdeclaration (hunused 0 x)
      (hexport 0)).2.1 ⟨i, htied.2 ⟨hi, hv⟩⟩ fun j hj => ?_
    exact (himports j (htied.1 hj).1).2
  · refine (Project.unused_reported_unless_tied hm hfile hreached hy hydeclaration (hunused 1 y)
      (hexport 1)).1 ?_
    rintro ⟨j, hj⟩
    obtain ⟨hmem, hvertex⟩ := htied.1 hj
    rw [(himports j hmem).1] at hvertex
    cases hvertex

/-- **An unused declaration that is not reported**: nothing refers to `f`, its file is an entry and
exports nothing, but the only entry of the report is that of the other declaration. -/
theorem lazyDeclaration_missing :
    lazyProject.entryFiles = [0] ∧ (lazyProject.reach lazyProject.entryFiles).files = [0] ∧
    ((lazyProject.file? 0).any fun m =>
      (m.graph.vertex? 0).any (fun x => x.isDeclaration ∧ x.key = lazyDeclaration.key) ∧
      m.graph.edges = #[] ∧ m.exports = []) ∧
    lazyProject.report.deadStatements.map (fun d => (d.location.line, d.names)) = [(2, ["a"])] := by
  decide +kernel

end DeadCode
