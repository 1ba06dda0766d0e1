import DeadCode.Proofs.Project.Analyzed
import DeadCode.Proofs.Resolution.ForwardCalls
import DeadCode.Project.Findings

/-! # Functions that are used are not reported

A function at the top of an entry file is not reported dead if its name is used anywhere outside the
function, in a position that is visited. The positions that are visited are those of the leaves of the
file (`Node.Seen`). -/

namespace DeadCode

open Node

/-! ## Findings -/

namespace Project

variable {project : Project} {file : FileId} {id : VertexId} {m : SourceModule} {x : Vertex}

/-- What a project reports of a statement. -/
def finding? (project : Project) (file : FileId) (id : VertexId) : Option DeadStatement :=
  (project.file? file).bind fun m => (m.graph.vertex? id).bind fun vertex =>
    if vertex.isDeclaration then
      (project.deadReason? project.entryFiles file m id vertex).map fun reason =>
        { path := m.path, location := vertex.location, kind := vertex.key.kind.name
          names := m.boundNames id vertex, reason }
    else none

/-- **The dead statements of the report are the findings in the reached files.** -/
theorem mem_deadStatements {d : DeadStatement} : d ∈ project.report.deadStatements ↔
    ∃ file ∈ (project.reach project.entryFiles).files, ∃ id, project.finding? file id = some d := by
  change d ∈ project.deadStatements project.entryFiles (project.reach project.entryFiles) ↔ _
  rw [deadStatements, mem_sortBy, List.mem_flatMap]
  refine exists_congr fun file => and_congr_right fun _ => ?_
  unfold deadStatementsOf finding?
  cases project.file? file with
  | none => simp
  | some m =>
    simp only [List.mem_filterMap, Prod.exists, List.mem_zipIdx_iff_getElem?, Option.bind_some]
    constructor
    · rintro ⟨vertex, id, hvertex, hd⟩
      have hvertex' : m.graph.vertex? id = some vertex := by simpa [StatementGraph.vertex?] using hvertex
      exact ⟨id, by rw [hvertex', Option.bind_some, hd]⟩
    · rintro ⟨id, hd⟩
      obtain ⟨vertex, hvertex, hd⟩ := Option.bind_eq_some_iff.1 hd
      exact ⟨vertex, id, by simpa [StatementGraph.vertex?] using hvertex, hd⟩

/-- A use from outside keeps a statement of an entry file from being reported. -/
theorem finding?_eq_none_of_edge (hfile : project.file? file = some m)
    (hentry : file ∈ project.entryFiles) (hx : m.graph.vertex? id = some x) {e : Edge} {user : Vertex}
    (he : e ∈ m.graph.edges) (htarget : e.target = id) (husage : e.relation.kind.isUsage)
    (huser : m.graph.vertex? e.source = some user) (houtside : ¬ x.span.contains user.span) :
    project.finding? file id = none := by
  have hincoming : e ∈ m.graph.incoming id := by
    rw [StatementGraph.incoming, List.mem_reverse, List.mem_filter]
    exact ⟨Array.mem_toList_iff.2 he, by simpa using htarget⟩
  have huse : project.isUse project.entryFiles file m x e := by
    simp [isUse, husage, huser, houtside, isLiveExport, hentry]
  have hreason : project.deadReason? project.entryFiles file m id x = none := by
    unfold deadReason?
    split
    · rfl
    · rw [if_pos (List.any_eq_true.2 ⟨e, hincoming, huse⟩)]
  simp [finding?, hfile, hx, hreason]

end Project

/-- The one file of a project is the model of its source. -/
theorem Project.analyze_of_file? {config : Config} {manifest : Option Manifest}
    {source : SourceText} {m : SourceModule}
    (h : (ofSources config manifest [source]).file? 0 = some m) :
    source.analyze config.ambient = .ok m := by
  cases hanalyze : source.analyze config.ambient with
  | error e => simp [ofSources, ofFiles, file?, hanalyze, Except.toOption] at h
  | ok found =>
    obtain rfl : found = m := by
      simpa [ofSources, ofFiles, file?, hanalyze, Except.toOption] using h
    rfl

/-! ## Uses of a function -/

/-- Whether a leaf uses a name, in a way that counts, outside a range. -/
def Leaf.usesOutside (source name : String) (range : Span) : Leaf → Bool
  | use u => u.base? source = some name && !range.contains u.spot.span
  | defer _ => false

/-- The leaves that use a name outside a range. -/
theorem Leaf.usesOutside_iff {source name : String} {range : Span} {leaf : Leaf} :
    leaf.usesOutside source name range ↔
      ∃ u, leaf = .use u ∧ u.base? source = some name ∧ ¬ range.contains u.spot.span := by
  cases leaf <;> simp [usesOutside]

/-- A function is overwritten: something is assigned to its name, or to a member of it inside the
function. Assigning to a member outside is a use of the name. -/
def Node.Overwritten (source : String) (root f : Node) (name : String) : Prop :=
  root.Assigned source name fun left =>
    ¬ (targetLeaves source left).any (·.usesOutside source name f.span)

instance (source : String) (root f : Node) (name : String) :
    Decidable (root.Overwritten source f name) :=
  inferInstanceAs (Decidable (root.Assigned source name fun left =>
    ¬ (targetLeaves source left).any (·.usesOutside source name f.span)))

namespace Trace

variable {path : Path} {ambient : List String} {source name : String} {root f : Node} {w w' w₀ : Trace}
  {u : Use} {scope : ScopeId} {during : Option Node} {b : Builder}

/-- A statement outside a function uses it. -/
def UsedOutside (w : Trace) (f : Node) : Prop :=
  ∃ e ∈ w.builder.graph.edges, e.relation.kind.isUsage ∧ w.builder.StandsFor e.target f ∧
    ∃ user, w.builder.graph.vertex? e.source = some user ∧ ¬ f.span.contains user.span

theorem UsedOutside.mono (h : w.UsedOutside f) (hw : w.Extends w') : w'.UsedOutside f := by
  obtain ⟨e, he, husage, hstands, user, huser, houtside⟩ := h
  exact ⟨e, hw.edges e he, husage, hstands.mono hw.grows, user, hw.graph _ user huser, houtside⟩

/-- **A use outside a function that finds it** leads to an edge from a statement outside. Where a
member is used, the members of the function must not be known. -/
theorem Made.usedOutside (hroot : root.WellLaid)
    (h : w.Made path ambient source root u scope during w₀ b) {x : Binding}
    (hlookup : w₀.builder.scopes.lookup? scope name = some x) (hx : w₀.Denotes f x)
    (hbase : u.base? source = some name) (hmembers : u.isPlain = false → x.members = [])
    (houtside : ¬ f.span.contains u.spot.span) : w.UsedOutside f := by
  obtain ⟨v, hdeclaration, hv⟩ := hx.declaration
  obtain ⟨e, he, husage, m, hspot, hm, hsource, y, hy, htarget⟩ :=
    h.performs.exists_edge h.proper hbase hlookup hdeclaration hx.callable hmembers
  have hm' : m ∈ root.nodes := mem_nodes_trans hm h.mem
  obtain ⟨user, huser, hcontains⟩ := StatementGraph.exists_of_findVertex? hsource
  refine ⟨e, h.edges e he, husage, ?_, user, h.grows.graph _ user huser, fun hinside => ?_⟩
  · have heq : e.target = v :=
      Option.some.inj (htarget.symm.trans (h.reached.stands.findVertex?_span hroot hy))
    rw [heq]
    exact hv.mono h.grows.grows
  · -- A statement inside the function could not have the use in it.
    refine houtside (Span.contains_trans hinside (Span.contains_trans hcontains ?_))
    exact hroot.laid.nested.contains hm' hspot

/-! ### Members that are assigned

What is assigned to a member of a function is known of the function from then on, and later uses of the
member lead to the assignment and not to the function. But the assignment itself uses the function,
unless it stands inside. -/

/-- A function of which members are known is used outside, and so is one that was met outside. -/
structure Credits (source : String) (w : Trace) (f : Node) (name : String) : Prop where
  members : ∀ scope x, w.builder.scopes.local? scope name = some x → x.declaration.isSome →
    x.members = [] ∨ w.UsedOutside f
  uses : ∀ entry ∈ w.log, entry.leaf.usesOutside source name f.span → w.UsedOutside f

/-- What was assigned outside was used outside. -/
theorem Credits.of_assigned (h : w.Credits source f name) (hnot : ¬ root.Overwritten source f name)
    (hassigned : root.Assigned source name fun left => w.Came Anywhere (targetLeaves source left)) :
    w.UsedOutside f := by
  obtain ⟨n, hn, hkind, left, hleft, hhead, hcame⟩ := hassigned
  have hany : (targetLeaves source left).any (·.usesOutside source name f.span) := by
    by_contra hany
    exact hnot ⟨n, hn, hkind, left, hleft, hhead, hany⟩
  obtain ⟨leaf, hleaf, huses⟩ := List.any_eq_true.1 hany
  obtain ⟨entry, hentry, rfl, -⟩ := hcame leaf hleaf
  exact h.uses entry hentry huses

/-- **What an event keeps**: it changes what is known of the function only by an assignment whose left
side was met, and a new use finds the function. -/
theorem Credits.event (hroot : root.WellLaid) (hf : root.NamedOnce source f name)
    (hbody : f ∈ root.bodyFunctions) (hnot : ¬ root.Overwritten source f name)
    (hreached : Reached path ambient source root w) (h : w.Credits source f name)
    (hevent : Event source root w w') : w'.Credits source f name where
  members := by
    intro scope x hx hdeclared
    have hrebinds := hevent.rebinds scope name
    rw [hx] at hrebinds
    rcases hrebinds.of_bindsOnly hf.bindsOnly with
      ⟨v, -, rfl⟩ | ⟨y, update, hy, rfl, -, heq | hassigned⟩
    · exact .inl rfl
    · rw [heq]
      rw [heq] at hdeclared
      exact (h.members scope y hy hdeclared).imp_right fun hused => hused.mono hevent.grows
    · exact .inr ((h.of_assigned hnot hassigned).mono hevent.grows)
  uses := by
    rintro ⟨leaf, scope, during⟩ hentry huses
    obtain ⟨u, rfl, hbase, houtside⟩ := Leaf.usesOutside_iff.1 huses
    rcases hevent.exists_made hreached hentry with hold | ⟨b, hmade⟩
    · exact (h.uses _ hold huses).mono hevent.grows
    · obtain ⟨x, hlookup, hx⟩ := hmade.exists_lookup_of_file hf hbody
      obtain ⟨owner, -, hlocal⟩ := List.exists_of_findSome?_eq_some hlookup
      obtain ⟨v, hv, -⟩ := hx.declaration
      rcases h.members owner x hlocal (by rw [hv]; rfl) with hnil | hused
      · exact hmade.usedOutside hroot hlookup hx hbase (fun _ => hnil) houtside
      · exact hused.mono hevent.grows

/-- **A use of a function outside of it leads to an edge from outside**, in the whole history. -/
theorem Reached.credits (hroot : root.WellLaid) (hf : root.NamedOnce source f name)
    (hbody : f ∈ root.bodyFunctions) (hnot : ¬ root.Overwritten source f name)
    (h : Reached path ambient source root w) : w.Credits source f name := by
  induction h with
  | refl =>
    refine ⟨fun scope x hx hdeclared => ?_, fun entry hentry => ?_⟩
    · rw [(ScopeTree.of_local?_ofAmbient hx).2.1] at hdeclared
      cases hdeclared
    · cases hentry
  | tail hreached hevent ih => exact ih.event hroot hf hbody hnot hreached hevent

end Trace

/-- The graph of a model was built from its tree. -/
theorem SourceText.build?_of_analyze {path : Path} {source : String} {root : Node}
    {ambient : List String} {m : SourceModule}
    (h : SourceText.analyze ambient ⟨path, some source, some root⟩ = .ok m) :
    ∃ scopes, StatementGraph.build? path source root ambient = .ok (m.graph, scopes) := by
  obtain ⟨language, htree⟩ := SourceText.exists_ofTree h
  obtain ⟨scopes, hbuild, -⟩ := SourceModule.exists_build?_of_ofTree htree
  exact ⟨scopes, hbuild⟩

/-- **A function that is used is not reported.** In an entry file let a function be hoisted to the top,
its name bound once, and the name used outside the function in a position that is visited. Then the
function is no finding. Where a member of the function is used, nothing must be assigned to the
function, nor to its members inside it. -/
theorem Project.finding?_eq_none_of_seen {project : Project} {file : FileId} {path : Path}
    {source name : String} {root f : Node} {ambient : List String} {m : SourceModule} {u : Use}
    {v : VertexId} (hroot : root.WellLaid) (hgrammar : root.Grammatical)
    (hdistinct : root.DistinctCallables)
    (hanalyze : SourceText.analyze ambient ⟨path, some source, some root⟩ = .ok m)
    (hfile : project.file? file = some m) (hentry : file ∈ project.entryFiles)
    (hf : f ∈ root.bodyFunctions) (hname : f.name? source = some name)
    (honce : root.BoundOnce source name) (hfree : name ∉ implicitNames)
    (hv : m.graph.vertexByKey? f.key = some v) (hseen : root.Seen source (.use u))
    (hbase : u.base? source = some name) (hmembers : u.isPlain ∨ ¬ root.Overwritten source f name)
    (houtside : ¬ f.span.contains u.spot.span) : project.finding? file v = none := by
  obtain ⟨scopes, hbuild⟩ := SourceText.build?_of_analyze hanalyze
  obtain ⟨w, hbetween, hgraph, -, hmet⟩ :=
    Trace.exists_of_build? hroot.laid.nested hgrammar hbuild
  have hreached := hbetween.reached
  obtain ⟨hform, c, hc, halong⟩ := mem_nodes_of_bodyFunctions hf
  have hf' : f ∈ root.nodes := mem_nodes_trans halong.mem_nodes (child_mem_nodes hc)
  obtain ⟨⟨leaf, scope, during⟩, hentry', rfl, -⟩ := hmet hdistinct _ hseen
  have honly : root.NamedOnce source f name := ⟨hf', hform, hname, honce, hfree⟩
  have hused : w.UsedOutside f := by
    rcases hmembers with hplain | hnot
    · obtain ⟨w₀, b, hmade⟩ := hreached.exists_made hentry'
      obtain ⟨x, hlookup, hx⟩ := hmade.exists_lookup_of_file honly hf
      refine hmade.usedOutside hroot hlookup hx hbase (fun hmember => ?_) houtside
      rw [hplain] at hmember
      cases hmember
    · exact (hreached.credits hroot honly hf hnot).uses _ hentry'
        (Leaf.usesOutside_iff.2 ⟨u, rfl, hbase, houtside⟩)
  obtain ⟨e, he, husage, hstands, user, huser, houtside'⟩ := hused
  rw [← hgraph] at hv
  obtain ⟨y, hy, hykey⟩ := StatementGraph.exists_of_vertexByKey? hv
  have htarget : e.target = v :=
    Option.some.inj ((hreached.vertexByKey?_eq hstands).symm.trans hv)
  have hspan : y.span = f.span := congrArg Key.span hykey
  rw [hgraph] at hy he huser
  exact finding?_eq_none_of_edge hfile hentry hy he htarget husage huser (by rwa [hspan])

/-! In the following file the header of an arrow function that nothing calls uses a member of `f`, and
the member is assigned outside `f`:

```
(x = f.x) => 0;
function f() {}
f.x = 1;
``` -/

/-- The member `f.x` from some offset on. -/
def memberOfF (start : Nat) : Node :=
  .of .memberExpression start (start + 3)
    [.part .object (.of .identifier start (start + 1)), .token "." (start + 1) (start + 2),
     .part .property (.of .propertyIdentifier (start + 2) (start + 3))]

/-- The use of `f.x` in the header. -/
def headerMember : Node :=
  .part .right (memberOfF 5)

/-- The parameter `x = f.x`. -/
def headerParameter : Node :=
  .of .assignmentPattern 1 8 [.part .left (.of .identifier 1 2), .token "=" 3 4, headerMember]

/-- The arrow function `(x = f.x) => 0`. -/
def headerArrow : Node :=
  .of .arrowFunction 0 14
    [.part .parameters (.of .formalParameters 0 9
       [.token "(" 0 1, headerParameter, .token ")" 8 9]),
     .token "=>" 10 12, .part .body (.of .numberLiteral 13 14)]

/-- The function `f`. -/
def headerFunction : Node :=
  .of .functionDeclaration 16 31
    [.keyword .functionLiteral 16 24, .part .name (.of .identifier 25 26),
     .part .parameters (.of .formalParameters 26 28 [.token "(" 26 27, .token ")" 27 28]),
     .part .body (.of .statementBlock 29 31 [.token "\x7b" 29 30, .token "\x7d" 30 31])]

/-- The text of the file. -/
def headerText : String :=
  "(x = f.x) => 0;\nfunction f() {}\nf.x = 1;"

/-- The tree of the file. -/
def headerFile : Node :=
  .of (.other "program") 0 40
    [.of .expressionStatement 0 15 [headerArrow, .token ";" 14 15], headerFunction,
     .of .expressionStatement 32 40
       [.of .assignmentExpression 32 39
          [.part .left (memberOfF 32), .token "=" 36 37, .part .right (.of .numberLiteral 38 39)],
        .token ";" 39 40]]

/-- The project whose one file, an entry, is this file. -/
def headerProject : Project :=
  .ofSources { root := ⟨"/app"⟩, entries := [⟨"index.js"⟩] } none
    [⟨⟨"/app/index.js"⟩, some headerText, some headerFile⟩]

/-- The use in the header of the arrow function is visited once the arrow function is entered. -/
theorem seen_headerMember :
    headerFile.Seen headerText (.use (.member headerMember ["f", "x"] .readProp)) := by
  have harrow : statementLeaves headerText
      (.of .expressionStatement 0 15 [headerArrow, .token ";" 14 15]) = [.defer headerArrow] := by cbv
  have hparameters :
      headerArrow.parameters?.toList.flatMap namedChildren = [headerParameter] := by cbv
  have hdefault : Build.defaultValue? headerParameter = some headerMember := by cbv
  have hchain : headerMember.memberChain? headerText = some ["f", "x"] := by decide +kernel
  have hmember : expressionLeaves headerText headerMember =
      [.use (.member headerMember ["f", "x"] .readProp)] := by
    rw [expressionLeaves]
    change memberLeaves headerText headerMember .readProp = _
    rw [memberLeaves, hchain]
  refine .enter (.file (List.mem_flatMap.2 ⟨_, List.mem_cons_self, ?_⟩)) (d := headerArrow) ?_
  · rw [harrow]
    exact List.mem_cons_self
  · rw [callableLeaves, ← List.flatMap_assoc, hparameters]
    simp [hdefault, hmember]

/-- Nothing is reported of the function whose member the header of the arrow function uses. -/
theorem finding?_eq_none_headerFunction : ∃ m v, headerProject.file? 0 = some m ∧
    m.graph.vertexByKey? headerFunction.key = some v ∧ headerProject.finding? 0 v = none := by
  have hfunctions : headerFile.bodyFunctions = [headerFunction] := by cbv
  have hfunction : headerFunction ∈ headerFile.bodyFunctions := by
    rw [hfunctions]
    exact List.mem_cons_self
  have hname : headerFunction.name? headerText = some "f" := by decide +kernel
  have hrun : (headerProject.file? 0).any fun m =>
      (m.graph.vertexByKey? headerFunction.key).isSome := by decide +kernel
  obtain ⟨m, hfile, hv⟩ := (Option.any_eq_true _ _).1 hrun
  obtain ⟨v, hv⟩ := Option.isSome_iff_exists.1 hv
  refine ⟨m, v, hfile, hv, ?_⟩
  exact Project.finding?_eq_none_of_seen (by decide +kernel) (by decide +kernel) (by decide +kernel)
    (Project.analyze_of_file? hfile) hfile (by decide +kernel) hfunction hname (by decide +kernel)
    (by decide) hv seen_headerMember (by decide +kernel) (.inr (by decide +kernel)) (by decide)

/-! In `function f() {}`, `f = { x: 1 };` and `f.x;` the function is overwritten, and the member that is
used is that of the object. -/

/-- The tree of this file. -/
def overwrittenFile : Node :=
  let f : Node := .of .functionDeclaration 0 15
    [.keyword .functionLiteral 0 8, .part .name (.of .identifier 9 10),
     .part .parameters (.of .formalParameters 10 12 [.token "(" 10 11, .token ")" 11 12]),
     .part .body (.of .statementBlock 13 15 [.token "\x7b" 13 14, .token "\x7d" 14 15])]
  let object : Node := .of .objectLiteral 20 28
    [.token "\x7b" 20 21,
     .of .pair 22 26
       [.part .key (.of .propertyIdentifier 22 23), .token ":" 23 24,
        .part .value (.of .numberLiteral 25 26)], .token "\x7d" 27 28]
  .of (.other "program") 0 34
    [f,
     .of .expressionStatement 16 29
       [.of .assignmentExpression 16 28
          [.part .left (.of .identifier 16 17), .token "=" 18 19, .part .right object],
        .token ";" 28 29],
     .of .expressionStatement 30 34 [memberOfF 30, .token ";" 33 34]]

example : ∃ d ∈ (Project.ofSources { root := ⟨"/app"⟩, entries := [⟨"index.js"⟩] } none
    [⟨⟨"/app/index.js"⟩, some "function f() {}\nf = \x7b x: 1 \x7d;\nf.x;",
      some overwrittenFile⟩]).report.deadStatements,
    d.kind = "function_declaration" ∧ d.names = ["f"] := by
  decide +kernel

/-! The default of a pattern is not visited. So in `const { a = f } = {};` and `function f() {}` the
function is reported although it is used. -/

/-- The function `f` after `const { a = f } = {};`. -/
def patternFunction : Node :=
  .of .functionDeclaration 22 37
    [.keyword .functionLiteral 22 30, .part .name (.of .identifier 31 32),
     .part .parameters (.of .formalParameters 32 34 [.token "(" 32 33, .token ")" 33 34]),
     .part .body (.of .statementBlock 35 37 [.token "\x7b" 35 36, .token "\x7d" 36 37])]

/-- The tree of `const { a = f } = {};` and `function f() {}`. -/
def patternFile : Node :=
  let pattern : Node :=
    .part .name (.of .objectPattern 6 15
      [.token "\x7b" 6 7,
       .of .objectAssignmentPattern 8 13
         [.part .left (.of .shorthandPropertyIdentifierPattern 8 9), .token "=" 10 11,
          .part .right (.of .identifier 12 13)], .token "\x7d" 14 15])
  .of (.other "program") 0 37
    [.of .lexicalDeclaration 0 21
       [.part .kind (.token "const" 0 5),
        .of .variableDeclarator 6 20
          [pattern, .token "=" 16 17,
           .part .value (.of .objectLiteral 18 20 [.token "\x7b" 18 19, .token "\x7d" 19 20])],
        .token ";" 20 21], patternFunction]

/-- The project whose one file, an entry, is `const { a = f } = {};` and `function f() {}`. -/
def patternProject : Project :=
  .ofSources { root := ⟨"/app"⟩, entries := [⟨"index.js"⟩] } none
    [⟨⟨"/app/index.js"⟩, some "const { a = f } = {};\nfunction f() {}", some patternFile⟩]

/-- **A function that only the default of a pattern uses is reported.** -/
theorem patternFunction_reported :
    patternFile.WellLaid ∧ patternFile.Grammatical ∧ patternFile.DistinctCallables ∧
    patternProject.entryFiles = [0] ∧ patternFunction ∈ patternFile.children ∧
    patternFile.BoundOnce "const { a = f } = {};\nfunction f() {}" "f" ∧
    (∃ n ∈ patternFile.nodes, n.kind = .identifier ∧ n.field = some .right ∧
      n.text? "const { a = f } = {};\nfunction f() {}" = some "f" ∧
      ¬ patternFunction.span.contains n.span) ∧
    ∃ d ∈ patternProject.report.deadStatements, d.kind = "function_declaration" ∧ d.names = ["f"] ∧
      d.reason = .unusedDeclaration :=
  ⟨by decide +kernel, by decide +kernel, by decide +kernel, by decide +kernel,
    List.mem_cons_of_mem _ List.mem_cons_self, by decide +kernel, by decide +kernel,
    by decide +kernel⟩

end DeadCode
