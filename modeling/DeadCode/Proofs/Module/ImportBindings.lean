import DeadCode.Proofs.Module.Integrity
import DeadCode.Proofs.Resolution.ExportClauses
import DeadCode.Proofs.Resolution.History
import DeadCode.Proofs.Resolution.Upkeep.Phases

/-! # The bindings and the records of an `import` statement

An `import` statement is read twice. Hoisting declares its names, and the imports of the file are
collected from the tree. Both readings agree: a name that is declared is one that is recorded, with
the same module and the same name there, and they come in the same order. -/

namespace DeadCode

/-- The binding of an imported name, if it has one in the importing file. -/
def Import.binding? (i : Import) (v : VertexId) : Option Binding :=
  i.localName.map fun name =>
    { Binding.declared name v with
      origin := some { source := i.source, name := i.imported.exportName? } }

namespace Node

/-- The name that is bound for an imported name, with what it is called in the module. -/
def bound? (name : Option String × ImportedName) : Option (String × Option String) :=
  name.1.map fun bound => (bound, name.2.exportName?)

/-- **An `import` statement as the grammar has it**: a namespace is bound to one identifier, the
identifiers are in the text, and no other statement that imports lies inside. -/
structure ImportFits (source : String) (n : Node) : Prop where
  whole : ∀ clause ∈ n.namedChildren, clause.kind = .importClause → ∀ part ∈ clause.namedChildren,
    part.kind = .namespaceImport → (part.namedChildren.filter (·.kind = .identifier)).length = 1
  texts : ∀ c ∈ n.nodes, c.kind = .identifier → (c.text? source).isSome
  inner : ∀ c ∈ n.descendants, c.kind ≠ .importStatement ∧ c.kind ≠ .exportStatement

instance (source : String) (n : Node) : Decidable (n.ImportFits source) :=
  decidable_of_iff
    ((∀ clause ∈ n.namedChildren, clause.kind = .importClause → ∀ part ∈ clause.namedChildren,
        part.kind = .namespaceImport →
          (part.namedChildren.filter (·.kind = .identifier)).length = 1) ∧
      (∀ c ∈ n.nodes, c.kind = .identifier → (c.text? source).isSome) ∧
      ∀ c ∈ n.descendants, c.kind ≠ .importStatement ∧ c.kind ≠ .exportStatement)
    ⟨fun h => ⟨h.1, h.2.1, h.2.2⟩, fun h => ⟨h.whole, h.texts, h.inner⟩⟩

variable {source : String} {n part : Node}

/-! ## Declared names and recorded names -/

theorem exportName?_ofName (name : String) : (ImportedName.ofName name).exportName? = some name := by
  unfold ImportedName.ofName
  split
  · next h => rw [h]; rfl
  · rfl

/-- What a part of a clause declares is what is recorded of it, if a namespace has one name. -/
theorem importedNames_eq (hwhole : part.kind = .namespaceImport →
      (part.namedChildren.filter (·.kind = .identifier)).length = 1) :
    part.importedNames source = (part.clauseImports source).filterMap bound? := by
  unfold importedNames clauseImports
  generalize part.kind = kind at hwhole
  split
  · cases part.text? source <;> simp [bound?, ImportedName.exportName?]
  · obtain ⟨c, hc⟩ := List.length_eq_one_iff.1 (hwhole rfl)
    rw [hc]
    simp only [← List.head?_filter, hc]
    cases hname : c.text? source <;> simp [bound?, hname, ImportedName.exportName?]
  · dsimp only
    rw [List.filterMap_filterMap]
    refine List.filterMap_congr fun specifier _ => ?_
    cases specifier.child? .name with
    | none => rfl
    | some name =>
      cases hkey : name.staticKey? source with
      | none => simp [hkey]
      | some imported => simp [hkey, bound?, exportName?_ofName]
  · simp

/-- The names that are recorded of the clauses of an `import` statement. -/
def clauseNames (source : String) (n : Node) : List (Option String × ImportedName) :=
  (n.namedChildren.filter (·.kind = .importClause)).flatMap fun clause =>
    clause.namedChildren.flatMap (·.clauseImports source)

/-- The imports of a statement, by the names of its clause. -/
theorem statementImports_eq (source : String) (n : Node) :
    n.statementImports source =
      if n.clauseNames source = [] then [(none, .sideEffect)] else n.clauseNames source := by
  unfold statementImports clauseNames
  dsimp only
  split
  · next h => rw [if_pos h]
  · next h => rw [if_neg h]

/-- **The names that are declared are those that are recorded.** -/
theorem importBindings_eq (h : n.ImportFits source) :
    n.importBindings source = (n.statementImports source).filterMap bound? := by
  have hclauses : n.importBindings source = (n.clauseNames source).filterMap bound? := by
    unfold importBindings clauseNames
    rw [List.filterMap_flatMap]
    refine List.flatMap_congr fun clause hclause => ?_
    obtain ⟨hmem, hkind⟩ := List.mem_filter.1 hclause
    rw [List.filterMap_flatMap]
    exact List.flatMap_congr fun part hpart =>
      importedNames_eq (h.whole clause hmem (by simpa using hkind) part hpart)
  rw [hclauses, statementImports_eq]
  split
  · next hnil => rw [hnil]; rfl
  · rfl

/-- The names of a clause bind something. -/
theorem of_mem_clauseNames (h : n.ImportFits source) {name : Option String × ImportedName}
    (hname : name ∈ n.clauseNames source) : name.1.isSome ∧ name.2 ≠ .sideEffect := by
  obtain ⟨clause, hclause, hname⟩ := List.mem_flatMap.1 hname
  obtain ⟨hclause, hkind⟩ := List.mem_filter.1 hclause
  obtain ⟨part, hpart, hname⟩ := List.mem_flatMap.1 hname
  have hmem : part ∈ n.nodes := mem_nodes_trans
    (child_mem_nodes (mem_children_of_namedChildren hpart))
    (child_mem_nodes (mem_children_of_namedChildren hclause))
  unfold clauseImports at hname
  split at hname
  · next hidentifier =>
    rw [List.mem_singleton.1 hname]
    exact ⟨h.texts part hmem hidentifier, by simp⟩
  · next hnamespace =>
    obtain ⟨c, hc⟩ := List.length_eq_one_iff.1
      (h.whole clause hclause (by simpa using hkind) part hpart hnamespace)
    have hfilter : c ∈ part.namedChildren.filter (·.kind = .identifier) := by
      rw [hc]
      exact List.mem_singleton_self c
    obtain ⟨hchild, hidentifier⟩ := List.mem_filter.1 hfilter
    rw [List.mem_singleton.1 hname, ← List.head?_filter, hc]
    refine ⟨h.texts c (mem_nodes_trans ?_ hmem) (of_decide_eq_true hidentifier), by simp⟩
    exact child_mem_nodes (mem_children_of_namedChildren hchild)
  · obtain ⟨specifier, -, hsome⟩ := List.mem_filterMap.1 hname
    obtain ⟨name', -, hsome⟩ := Option.bind_eq_some_iff.1 hsome
    obtain ⟨imported, -, hsome⟩ := Option.bind_eq_some_iff.1 hsome
    cases hsome
    refine ⟨rfl, ?_⟩
    show ImportedName.ofName imported ≠ .sideEffect
    unfold ImportedName.ofName
    split <;> simp
  · cases hname

/-- **A module is only run if the statement declares nothing.** -/
theorem statementImports_iff (h : n.ImportFits source) :
    (∃ name, n.statementImports source = [name] ∧ name.2 = .sideEffect) ↔
      n.importBindings source = [] := by
  rw [importBindings_eq h, statementImports_eq]
  split
  · exact ⟨fun _ => rfl, fun _ => ⟨_, rfl, rfl⟩⟩
  · next hne =>
    constructor
    · rintro ⟨name, hname, hside⟩
      have hmem : name ∈ n.clauseNames source := by simp [hname]
      exact absurd hside (of_mem_clauseNames h hmem).2
    · intro hnil
      obtain ⟨name, hname⟩ := List.exists_mem_of_ne_nil _ hne
      have hbound := List.filterMap_eq_nil_iff.1 hnil name hname
      have hsome := (of_mem_clauseNames h hname).1
      rw [bound?, Option.map_eq_none_iff] at hbound
      simp [hbound] at hsome

end Node

/-! ## The records of a statement -/

namespace Import

open Node

variable {context : Context} {root n k : Node} {around : List Node} {i : Import}

/-- Every import of a tree stands at a node. -/
theorem exists_of_mem_inTree (h : i ∈ inTree context around n) :
    ∃ k ∈ n.nodes, ∃ around', i ∈ atNode context around' k := by
  induction n using childInduction generalizing around with
  | step n ih =>
    rw [inTree_eq, List.mem_append] at h
    rcases h with h | h
    · exact ⟨n, self_mem_nodes n, around, h⟩
    · obtain ⟨c, hc, hi⟩ := mem_inTrees.1 h
      obtain ⟨k, hk, around', hi⟩ := ih c hc hi
      exact ⟨k, mem_nodes_trans hk (child_mem_nodes hc), around', hi⟩

theorem inTrees_append (ns ms : List Node) :
    inTrees context around (ns ++ ms) = inTrees context around ns ++ inTrees context around ms := by
  induction ns with
  | nil => rfl
  | cons n rest ih => rw [List.cons_append, inTrees, inTrees, ih, List.append_assoc]

theorem kind_of_mem_ofNames {specifier : String} {kind : ImportKind}
    {names : List (Option String × ImportedName)}
    (h : i ∈ ofNames context n specifier kind names) : i.kind = kind := by
  unfold ofNames at h
  split at h
  · cases h
  · obtain ⟨name, -, rfl⟩ := List.mem_map.1 h
    rfl

/-- Imports of the standard kind stand at import and export statements. -/
theorem kind_of_mem_atNode (h : i ∈ atNode context around n) (hkind : i.kind = .es6) :
    n.kind = .importStatement ∨ n.kind = .exportStatement := by
  unfold atNode at h
  dsimp only at h
  split at h
  · next hn => exact .inl hn
  · next hn => exact .inr hn
  · split at h
    · rw [kind_of_mem_ofNames h] at hkind
      cases hkind
    · split at h
      · rw [kind_of_mem_ofNames h] at hkind
        cases hkind
      · cases h
  · cases h

/-- **A statement that carries the import of a statement lies around it.** -/
theorem mem_nodes_of_vertex (hroot : root.WellSpaced) (hn : n ∈ root.nodes)
    (hstated : n.Stated) (hmodule : n.kind ≠ .internalModule) {v : VertexId} {x : Vertex}
    (hx : context.graph.vertex? v = some x) (hkey : x.key = n.key) (hk : k ∈ root.nodes)
    (hk' : k.Stated) (hi : i ∈ atNode context around k) (hv : i.vertex = some v) :
    k ∈ n.nodes := by
  rw [vertex_of_mem_atNode hi] at hv
  obtain ⟨y, hy, hcontains⟩ := StatementGraph.exists_of_findVertex? hv
  obtain rfl : x = y := Option.some.inj (hx.symm.trans hy)
  have hspan : x.span = n.span := congrArg Key.span hkey
  rw [hspan] at hcontains
  rcases hroot.laid.comparable hk hn (hroot.statements k hk hk') k.span.contains_self hcontains
    with hkn | hnk
  · exact hkn
  rcases mem_nodes_iff.1 hnk with rfl | hnk
  · exact self_mem_nodes n
  · obtain ⟨p, hp, hnp⟩ := exists_parent hnk
    have hlt := hroot.shrinking k hk (.inr hk') p hp n hnp hstated fun _ => hmodule
    rw [Span.contains_iff] at hcontains
    unfold Span.length at hlt
    omega

/-- Trees without a node have none of its imports. -/
theorem filter_inTrees_eq_nil {p : Import → Bool} {ns : List Node}
    (honly : ∀ c ∈ ns, ∀ k ∈ c.nodes, ∀ around i, i ∈ atNode context around k → p i → k = n)
    (hfree : ∀ c ∈ ns, n ∉ c.nodes) : (inTrees context around ns).filter p = [] := by
  refine List.filter_eq_nil_iff.2 fun i hi hp => ?_
  obtain ⟨c, hc, hi⟩ := mem_inTrees.1 hi
  obtain ⟨k, hk, around', hi⟩ := exists_of_mem_inTree hi
  obtain rfl := honly c hc k hk around' i hi hp
  exact hfree c hc hk

/-- **The records of a statement at the top of a file** stand together. -/
theorem filter_inTree {p : Import → Bool} (hlaid : root.LaidOut) (hchild : n ∈ root.children)
    (hne : n.span.Nonempty)
    (honly : ∀ k ∈ root.nodes, ∀ around i, i ∈ atNode context around k → p i → k = n) :
    (inTree context [] root).filter p = (atNode context [root] n).filter p := by
  have hmem := child_mem_nodes hchild
  obtain ⟨before, after, hsplit⟩ := List.append_of_mem hchild
  have hchildren (c : Node) (hc : c ∈ before ∨ c ∈ after) : c ∈ root.children := by
    rw [hsplit]
    simpa using hc.imp_right .inr
  -- The other statements of the file end before this one starts, or start after it ends.
  have hordered := hlaid.ordered root (self_mem_nodes root)
  rw [hsplit, List.pairwise_append, List.pairwise_cons] at hordered
  obtain ⟨-, ⟨hafter, -⟩, hbefore⟩ := hordered
  have hbeside (c : Node) (hc : c ∈ before ∨ c ∈ after) : n ∉ c.nodes := by
    intro hnc
    have hcontains := Span.contains_iff.1
      (hlaid.nested.contains (child_mem_nodes (hchildren c hc)) hnc)
    have hapart := hc.imp (fun hc => hbefore c hc n List.mem_cons_self) fun hc => hafter c hc
    unfold Span.Nonempty at hne
    omega
  have hinside (c : Node) (hc : c ∈ n.children) : n ∉ c.nodes := fun hnc =>
    Nat.lt_irrefl _ (size_lt_of_descendant (mem_descendants_of_child hc hnc))
  have hroot : (atNode context [] root).filter p = [] := by
    refine List.filter_eq_nil_iff.2 fun i hi hp => ?_
    obtain rfl := honly root (self_mem_nodes root) [] i hi hp
    exact Nat.lt_irrefl _ (size_lt_of_mem hchild)
  have hnone {c : Node} (hc : c ∈ root.nodes) :
      ∀ k ∈ c.nodes, ∀ around i, i ∈ atNode context around k → p i → k = n :=
    fun k hk => honly k (mem_nodes_trans hk hc)
  rw [inTree_eq, hsplit, inTrees_append, inTrees, inTree_eq]
  simp only [List.filter_append]
  rw [hroot,
    filter_inTrees_eq_nil (fun c hc => hnone (child_mem_nodes (hchildren c (.inl hc))))
      fun c hc => hbeside c (.inl hc),
    filter_inTrees_eq_nil (fun c hc => hnone (child_mem_nodes (hchildren c (.inr hc))))
      fun c hc => hbeside c (.inr hc),
    filter_inTrees_eq_nil (fun c hc => hnone (mem_nodes_trans (child_mem_nodes hc) hmem)) hinside]
  simp only [List.nil_append, List.append_nil]

/-- **The records of an `import` statement** at the top of a file are those that it carries. -/
theorem filter_ofFile {path : Path} {source specifier : String} {graph : StatementGraph}
    (hroot : root.WellSpaced) (hn : n ∈ root.namedChildren) (hkind : n.kind = .importStatement)
    (hsource : (n.child? .source).bind (·.stringValue? source) = some specifier)
    (hfits : n.ImportFits source) (hstands : graph.Stands root) {v : VertexId} {x : Vertex}
    (hx : graph.vertex? v = some x) (hkey : x.key = n.key) :
    ((ofFile path source root graph).filter (·.vertex = some v)).filter (·.kind = .es6) =
      ofNames { source, directory := path.parent?.getD ⟨"/"⟩, graph } n specifier .es6
        (n.statementImports source) := by
  have hchild := mem_children_of_namedChildren hn
  have hmem := child_mem_nodes hchild
  have hstated : n.Stated := .inl (.inl (by rw [hkind]; rfl))
  rw [List.filter_filter, ofFile,
    filter_inTree hroot.laid hchild (hroot.statements n hmem hstated) fun k hk around i hi hp => ?_]
  · have hown : atNode { source, directory := path.parent?.getD ⟨"/"⟩, graph } [root] n =
        ofNames { source, directory := path.parent?.getD ⟨"/"⟩, graph } n specifier .es6
          (n.statementImports source) := by
      rw [atNode, hkind]
      simp only [hsource]
    refine List.filter_eq_self.2 (fun i hi => ?_) |>.trans hown
    rw [hown] at hi
    have hv := hroot.findVertex?_span hstands hmem hstated (by rw [hkind]; decide)
      (by rw [hkind]; decide) hx hkey
    simp [kind_of_mem_ofNames hi, vertex_of_mem_ofNames hi, hv]
  · -- What the statement carries lies in it, and there no other statement imports.
    simp only [Bool.and_eq_true, decide_eq_true_eq] at hp
    have hkinds := kind_of_mem_atNode hi hp.1
    have hkn := mem_nodes_of_vertex hroot hmem hstated (by rw [hkind]; decide) hx hkey hk
      (.inl (.inl (by rcases hkinds with h | h <;> rw [h] <;> rfl))) hi hp.2
    rcases mem_nodes_iff.1 hkn with rfl | hkn
    · rfl
    · obtain ⟨himport, hexport⟩ := hfits.inner k hkn
      exact absurd hkinds (by simp [himport, hexport])

end Import

/-! ## What is hoisted -/

namespace Build

open Builder Node

variable {source : String} {root n : Node} {b : Builder}

/-- Every import statement of a file has a statement. -/
theorem exists_standsFor_import {path : Path} {ambient : List String}
    (h : topLevel source root (start path ambient) = .ok ((), b)) (hn : n ∈ root.namedChildren)
    (hkind : n.kind = .importStatement) : ∃ v, b.StandsFor v n := by
  have houtcome := outcome_topLevel (valid_start root path ambient) source
  rw [Outcome, h] at houtcome
  exact houtcome.2 (n, true)
    (List.mem_flatMap.2 ⟨n, hn, self_mem_statementVisits (by rw [hkind]; rfl)⟩)
    (by simp [hoistsHere, hkind, Kind.form?])

end Build

namespace Import

variable {context : Context} {specifier : String} {n : Node} {target : ImportTarget}
  {names : List (Option String × ImportedName)}

/-- The names that an import statement binds. -/
theorem filterMap_binding? (h : Specifier.resolve? context.directory specifier = some target)
    (v : VertexId) :
    (ofNames context n specifier .es6 names).filterMap (·.binding? v) =
      (names.filterMap Node.bound?).map fun name =>
        { Binding.declared name.1 v with origin := some { source := specifier, name := name.2 } } := by
  unfold ofNames
  rw [h]
  simp only
  rw [List.filterMap_map, List.map_filterMap]
  refine List.filterMap_congr fun name _ => ?_
  rw [Function.comp_apply, binding?, Node.bound?, Option.map_map]
  rfl

/-- Statements that bind nothing have one import. -/
theorem ofNames_eq_singleton_iff
    (h : Specifier.resolve? context.directory specifier = some target) :
    (∃ i, ofNames context n specifier .es6 names = [i] ∧ i.isSideEffect) ↔
      ∃ name, names = [name] ∧ name.2 = .sideEffect := by
  unfold ofNames
  rw [h]
  simp only [List.map_eq_singleton_iff]
  constructor
  · rintro ⟨i, ⟨name, rfl, rfl⟩, hside⟩
    exact ⟨name, rfl, by simpa [isSideEffect] using hside⟩
  · rintro ⟨name, rfl, hside⟩
    exact ⟨_, ⟨name, rfl, rfl⟩, by simpa [isSideEffect] using hside⟩

end Import

/-- **Hoisting an `import` statement declares what its records say.** -/
theorem Build.hoistImport_eq {source specifier : String} {n : Node} {context : Import.Context}
    {target : ImportTarget} (hfits : n.ImportFits source)
    (hsource : (n.child? .source).bind (·.stringValue? source) = some specifier)
    (htarget : Specifier.resolve? context.directory specifier = some target) (scope : ScopeId) :
    hoistImport source n scope = (do
      let vertex ← statementVertex source n scope
      ((Import.ofNames context n specifier .es6 (n.statementImports source)).filterMap
        (·.binding? vertex)).forM fun binding => declare scope binding .hoisted) := by
  unfold hoistImport
  rw [hsource]
  have hbindings := Node.importBindings_eq hfits
  rw [hbindings]
  refine bind_congr fun vertex => ?_
  rw [Import.filterMap_binding? htarget, List.forM_eq_forM, List.forM_eq_forM, List.forM_map]
  rfl

namespace SourceModule

open Build Node

/-- The records of what a statement imports as a statement: not by a call. -/
def statementImportsAt (m : SourceModule) (v : VertexId) : List Import :=
  (m.importsAt v).filter (·.kind = .es6)

/-- **The bindings of an `import` statement at the top of a file are its records**: those that have a
name in the file, one for one and in order, with the same module and the same name there. And the
statement has a single record, which says that the module is only run, if and only if it declares no
binding. -/
theorem exists_import_records (path : Path) (source : String) (language : Language)
    (ambient : List String) {root : Node} (hroot : root.WellSpaced) (hgrammar : root.Grammatical) :
    ∃ m, ofTree path source language root ambient = .ok m ∧
      ∀ n ∈ root.namedChildren, n.kind = .importStatement → n.ImportFits source →
        ∀ specifier target, (n.child? .source).bind (·.stringValue? source) = some specifier →
          Specifier.resolve? (path.parent?.getD ⟨"/"⟩) specifier = some target →
          ∃ v, m.graph.vertexByKey? n.key = some v ∧
            (∀ i ∈ m.statementImportsAt v, i.source = specifier) ∧
            (∀ scope, hoistImport source n scope = do
              let vertex ← statementVertex source n scope
              ((m.statementImportsAt v).filterMap (·.binding? vertex)).forM fun binding =>
                declare scope binding .hoisted) ∧
            ((∃ i, m.statementImportsAt v = [i] ∧ i.isSideEffect) ↔
              n.importBindings source = []) := by
  obtain ⟨m, hm⟩ := exists_ofTree_of_nested path source language ambient hroot.laid.nested
  refine ⟨m, hm, fun n hn hkind hfits specifier target hsource htarget => ?_⟩
  obtain ⟨scopes, hbuild, himports⟩ := exists_build?_of_ofTree hm
  obtain ⟨b, b', htop, hgrows, hgraph, -⟩ := exists_topLevel_of_build? hbuild
  obtain ⟨v, hv⟩ := exists_standsFor_import htop hn hkind
  obtain ⟨x, hx, hkey⟩ := hv.mono hgrows
  obtain ⟨w, hbetween, hwgraph, -⟩ := Trace.exists_of_build? hroot.laid.nested hgrammar hbuild
  have hstands : m.graph.Stands root := hwgraph ▸ hbetween.reached.stands
  rw [hgraph] at hx
  obtain ⟨context, hdirectory, hrecords⟩ : ∃ context : Import.Context,
      context.directory = path.parent?.getD ⟨"/"⟩ ∧ m.statementImportsAt v =
        Import.ofNames context n specifier .es6 (n.statementImports source) := by
    refine ⟨{ source, directory := path.parent?.getD ⟨"/"⟩, graph := m.graph }, rfl, ?_⟩
    rw [statementImportsAt, importsAt, himports]
    exact Import.filter_ofFile hroot hn hkind hsource hfits hstands hx hkey
  rw [← hdirectory] at htarget
  refine ⟨v, hkey ▸ hstands.vertexByKey?_eq hx, ?_⟩
  rw [hrecords]
  refine ⟨fun i hi => Import.source_of_mem_ofNames hi, fun scope => ?_, ?_⟩
  · exact hoistImport_eq hfits hsource htarget scope
  · rw [Import.ofNames_eq_singleton_iff htarget]
    exact statementImports_iff hfits

/-- Three `import` statements: of a default and a whole module, of a name, and of nothing. -/
def importsText : String :=
  "import d, * as n from 'x';\nimport \x7b a as b \x7d from 'x';\nimport 'y';"

/-- A module specifier at an offset. -/
def specifierAt (start : Nat) : Node :=
  .part .source (.quoted "'" start (start + 3))

/-- The first statement of `importsText`. -/
def wholeImport : Node :=
  .of .importStatement 0 26
    [.keyword .importToken 0 6,
     .of .importClause 7 16
       [.of .identifier 7 8, .token "," 8 9,
        .of .namespaceImport 10 16 [.token "*" 10 11, .token "as" 12 14, .of .identifier 15 16]],
     .token "from" 17 21, specifierAt 22, .token ";" 25 26]

/-- The second statement of `importsText`. -/
def namedImport : Node :=
  .of .importStatement 27 54
    [.keyword .importToken 27 33,
     .of .importClause 34 44
       [.of .namedImports 34 44
          [.token "\x7b" 34 35,
           .of .importSpecifier 36 42
             [.part .name (.of .identifier 36 37), .token "as" 38 40,
              .part .aliased (.of .identifier 41 42)], .token "\x7d" 43 44]], .token "from" 45 49,
     specifierAt 50, .token ";" 53 54]

/-- The third statement of `importsText`. -/
def bareImport : Node :=
  .of .importStatement 55 66 [.keyword .importToken 55 61, specifierAt 62, .token ";" 65 66]

/-- The tree of `importsText`. -/
def importsFile : Node :=
  .of (.other "program") 0 66 [wholeImport, namedImport, bareImport]

/-- The first two statements declare what their records say, and the third has one record. -/
theorem exists_import_records_importsFile :
    importsFile.WellSpaced ∧ importsFile.Grammatical ∧ ∃ m,
      ofTree ⟨"/app/a.js"⟩ importsText .javaScript importsFile ScopeTree.defaultAmbient = .ok m ∧
      (∀ n ∈ [wholeImport, namedImport], ∃ v, m.graph.vertexByKey? n.key = some v ∧
        ∀ scope, hoistImport importsText n scope = do
          let vertex ← statementVertex importsText n scope
          ((m.statementImportsAt v).filterMap (·.binding? vertex)).forM fun binding =>
            declare scope binding .hoisted) ∧
      ∃ v i, m.graph.vertexByKey? bareImport.key = some v ∧ m.statementImportsAt v = [i] ∧
        i.isSideEffect := by
  have hroot : importsFile.WellSpaced ∧ importsFile.Grammatical := by decide +kernel
  refine ⟨hroot.1, hroot.2, ?_⟩
  obtain ⟨m, hm, h⟩ := exists_import_records ⟨"/app/a.js"⟩ importsText .javaScript
    ScopeTree.defaultAmbient hroot.1 hroot.2
  refine ⟨m, hm, fun n hn => ?_, ?_⟩
  · have hfits : ∀ n ∈ [wholeImport, namedImport], n.ImportFits importsText ∧
        (n.child? .source).bind (·.stringValue? importsText) = some "x" := by decide +kernel
    have hmem : n ∈ importsFile.namedChildren ∧ n.kind = .importStatement := by
      rcases List.mem_pair.1 hn with rfl | rfl
      · exact ⟨List.mem_cons_self, rfl⟩
      · exact ⟨List.mem_cons_of_mem _ List.mem_cons_self, rfl⟩
    obtain ⟨v, hv, -, hhoist, -⟩ := h n hmem.1 hmem.2 (hfits n hn).1 "x" (.package "x" false)
      (hfits n hn).2 (by decide +kernel)
    exact ⟨v, hv, hhoist⟩
  · have hfits : bareImport.ImportFits importsText ∧
        (bareImport.child? .source).bind (·.stringValue? importsText) = some "y" ∧
        bareImport.importBindings importsText = [] := by decide +kernel
    obtain ⟨v, hv, -, -, hside⟩ := h bareImport
      (List.mem_cons_of_mem _ (List.mem_cons_of_mem _ List.mem_cons_self)) rfl hfits.1 "y"
      (.package "y" false) hfits.2.1 (by decide +kernel)
    obtain ⟨i, hi⟩ := hside.2 hfits.2.2
    exact ⟨v, i, hv, hi⟩

end SourceModule

end DeadCode
