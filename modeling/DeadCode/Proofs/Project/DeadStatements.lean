import DeadCode.Proofs.Project.FileOrder
import DeadCode.Proofs.Project.Liveness
import DeadCode.Proofs.Project.Pairing

/-! # Which statements are reported

A declaration of a reached file is reported unless it only runs other modules, is used from outside,
or produces an export that is live. What counts as a use from outside depends on the edges of the
file, on where the user stands, on what the user exports, and on the imports of all other files. -/

namespace DeadCode

/-! ## Uses -/

/-- The kinds of edges that count as uses. -/
def RelationKind.usages : List RelationKind :=
  [read, readProp, call, arg, writeProp, deleteProp, imports]

theorem RelationKind.isUsage_iff (kind : RelationKind) : kind.isUsage ↔ kind ∈ usages := by
  cases kind <;> decide

namespace Project

variable {project : Project} {file : FileId} {m : SourceModule} {v : VertexId} {x : Vertex}

/-- An import edge from some file enters a statement. -/
def Imported (project : Project) (site : Site) : Prop :=
  ∃ e ∈ project.links.edges, e.relation.kind = .imports ∧ e.target = site

/-- The uses of a statement count: it does not only export, or its file is an entry, or some file
imports an export it carries. -/
def Counts (project : Project) (file : FileId) (m : SourceModule) (u : VertexId) (user : Vertex) :
    Prop :=
  user.isTerminal = false ∨ file ∈ project.entryFiles ∨
    ∃ e ∈ m.exports, e.vertex = u ∧ project.Imported ⟨file, e.vertex⟩

/-- A statement is used from outside: by a statement that does not lie inside it and whose uses
count. -/
def Used (project : Project) (file : FileId) (m : SourceModule) (v : VertexId) (x : Vertex) :
    Prop :=
  ∃ e ∈ m.graph.edges, e.target = v ∧ e.relation.kind ∈ RelationKind.usages ∧
    ∃ user, m.graph.vertex? e.source = some user ∧ ¬ x.span.contains user.span ∧
      project.Counts file m e.source user

/-- Exports that some file imports. -/
theorem isImported_iff {e : Export} :
    project.isImported file e ↔ project.Imported ⟨file, e.vertex⟩ := by
  simp only [isImported, List.any_eq_true, Links.mem_incoming, decide_eq_true_eq, Imported]
  exact exists_congr fun edge => by rw [and_assoc, and_comm (a := edge.target = _)]

/-- Exports that are live. -/
theorem isLiveExport_iff {u : VertexId} : project.isLiveExport project.entryFiles file m u ↔
    file ∈ project.entryFiles ∨
      ∃ e ∈ m.exports, e.vertex = u ∧ project.Imported ⟨file, e.vertex⟩ := by
  simp only [isLiveExport, Bool.or_eq_true, decide_eq_true_eq, List.any_eq_true, List.mem_filter,
    isImported_iff, and_assoc]

/-- The edges that count as uses. -/
theorem isUse_iff {e : Edge} : project.isUse project.entryFiles file m x e ↔
    e.relation.kind ∈ RelationKind.usages ∧ ∃ user, m.graph.vertex? e.source = some user ∧
      ¬ x.span.contains user.span ∧ project.Counts file m e.source user := by
  simp only [isUse, Bool.and_eq_true, RelationKind.isUsage_iff, Option.any_eq_true, Bool.or_eq_true,
    Bool.not_eq_true', isLiveExport_iff, Counts, Bool.not_eq_true]

/-- **The report looks for uses from outside.** -/
theorem any_isUse_iff :
    (m.graph.incoming v).any (project.isUse project.entryFiles file m x) ↔
      project.Used file m v x := by
  simp only [List.any_eq_true, StatementGraph.incoming, List.mem_reverse, List.mem_filter,
    Array.mem_toList_iff, decide_eq_true_eq, isUse_iff, and_assoc, Used]

end Project

/-! ## Imports and exports of a statement -/

namespace SourceModule

variable {m : SourceModule} {v : VertexId}

/-- A statement binds what it imports: it carries no import, or one with a local name. -/
def BindsImports (m : SourceModule) (v : VertexId) : Prop :=
  (∀ i ∈ m.imports, i.vertex ≠ some v) ∨ ∃ i ∈ m.imports, i.vertex = some v ∧ i.localName.isSome

/-- Why a statement is reported, if it is: it produces an export, or else it carries an import, or
neither. -/
def reasonOf (m : SourceModule) (v : VertexId) : DeadReason :=
  if ∃ e ∈ m.exports, e.producer = v then .unusedExport
  else if ∃ i ∈ m.imports, i.vertex = some v then .unusedImport
  else .unusedDeclaration

theorem importsAt_eq_nil_iff : m.importsAt v = [] ↔ ∀ i ∈ m.imports, i.vertex ≠ some v := by
  simp [importsAt]

theorem onlyRuns_eq_false_iff : m.onlyRuns v = false ↔ m.BindsImports v := by
  rw [onlyRuns, BindsImports, Bool.and_eq_false_iff, ← importsAt_eq_nil_iff]
  refine or_congr (by simp) ?_
  rw [List.all_eq_false]
  simp only [importsAt, List.mem_filter, decide_eq_true_eq, and_assoc, Option.isNone_iff_eq_none,
    Option.isSome_iff_ne_none, ne_eq]

/-- The exports of a statement. -/
theorem mem_produced {e : Export} :
    e ∈ m.exports.filter (·.producer = v) ↔ e ∈ m.exports ∧ e.producer = v := by
  simp

theorem reasonOf_of_produced {e : Export} (h : e ∈ m.exports.filter (·.producer = v)) :
    m.reasonOf v = .unusedExport :=
  if_pos ⟨e, mem_produced.1 h⟩

theorem reasonOf_of_not_produced (h : ∀ e ∈ m.exports, e.producer ≠ v) :
    m.reasonOf v = if (m.importsAt v).isEmpty then .unusedDeclaration else .unusedImport := by
  rw [reasonOf, if_neg (by simpa using h)]
  have hempty : (m.importsAt v).isEmpty ↔ ∀ i ∈ m.imports, i.vertex ≠ some v := by
    rw [List.isEmpty_iff, importsAt_eq_nil_iff]
  by_cases himport : ∃ i ∈ m.imports, i.vertex = some v
  · rw [if_pos himport, if_neg (hempty.not.2 (by simpa using himport))]
  · rw [if_neg himport, if_pos (hempty.2 (by simpa using himport))]

end SourceModule

namespace Project

variable {project : Project} {file : FileId} {m : SourceModule} {v : VertexId} {x : Vertex}
  {site : Site} {d : DeadStatement}

/-- None of the exports that a statement produces is live. -/
def Unexported (project : Project) (file : FileId) (m : SourceModule) (v : VertexId) : Prop :=
  ∀ e ∈ m.exports, e.producer = v →
    file ∉ project.entryFiles ∧ ¬ project.Imported ⟨file, e.vertex⟩

/-- A declaration that is reported. -/
structure Dead (project : Project) (site : Site) (m : SourceModule) (x : Vertex) : Prop where
  /-- It stands in a reached file. -/
  reached : site.file ∈ (project.reach project.entryFiles).files
  file : project.file? site.file = some m
  vertex : m.graph.vertex? site.vertex = some x
  declaration : x.isDeclaration
  /-- It does more than to run other modules. -/
  binds : m.BindsImports site.vertex
  /-- Nothing outside uses it. -/
  unused : ¬ project.Used site.file m site.vertex x
  /-- What it exports is neither imported nor an export of an entry file. -/
  unexported : project.Unexported site.file m site.vertex

/-- Exports that nothing imports. -/
theorem unexported_iff {e : Export} (h : e ∈ m.exports.filter (·.producer = v)) :
    project.Unexported file m v ↔ ¬ (file ∈ project.entryFiles ||
      (m.exports.filter (·.producer = v)).any (project.isImported file)) := by
  simp only [Bool.or_eq_true, decide_eq_true_eq, List.any_eq_true, not_or, not_exists, not_and,
    SourceModule.mem_produced, isImported_iff, Unexported]
  obtain ⟨hmem, hv⟩ := SourceModule.mem_produced.1 h
  constructor
  · intro hdead
    exact ⟨(hdead e hmem hv).1, fun e' he' => (hdead e' he'.1 he'.2).2⟩
  · rintro ⟨hentry, himported⟩ e' hmem' hv'
    exact ⟨hentry, himported e' ⟨hmem', hv'⟩⟩

/-- **When and why a declaration is dead.** -/
theorem deadReason?_eq_some_iff {reason : DeadReason} :
    project.deadReason? project.entryFiles file m v x = some reason ↔
      m.BindsImports v ∧ ¬ project.Used file m v x ∧ project.Unexported file m v ∧
      reason = m.reasonOf v := by
  rw [← SourceModule.onlyRuns_eq_false_iff, ← any_isUse_iff, deadReason?]
  cases m.onlyRuns v with
  | true => simp
  | false =>
    cases (m.graph.incoming v).any (project.isUse project.entryFiles file m x) with
    | true => simp
    | false =>
      simp only [Bool.false_eq_true, if_false, not_false_eq_true, true_and]
      -- What produces exports is dead if all of them are, and what produces none is dead already.
      split
      · next hnil =>
        have hnone (e : Export) (he : e ∈ m.exports) (hv : e.producer = v) : False := by
          simpa [hnil] using SourceModule.mem_produced.2 ⟨he, hv⟩
        have hdead : project.Unexported file m v := fun e he hv => (hnone e he hv).elim
        rw [SourceModule.reasonOf_of_not_produced hnone]
        split <;> simp [hdead, eq_comm]
      · next hcons =>
        obtain ⟨e, he⟩ := List.exists_mem_of_ne_nil _ hcons
        rw [SourceModule.reasonOf_of_produced he, unexported_iff he]
        split
        · next hlive => exact ⟨by simp, fun h => absurd hlive h.1⟩
        · next hdead =>
          exact ⟨fun h => ⟨hdead, (Option.some.inj h).symm⟩, fun h => congrArg some h.2.symm⟩

/-! ## Entries of the report -/

/-- The entry of a statement. -/
def entryOf (m : SourceModule) (v : VertexId) (x : Vertex) : DeadStatement :=
  { path := m.path, location := x.location, kind := x.key.kind.name, names := m.boundNames v x
    reason := m.reasonOf v }

/-- **What is found of a statement of a reached file is its entry, if it is dead.** -/
theorem finding?_eq_some_iff (hreached : site.file ∈ (project.reach project.entryFiles).files) :
    project.finding? site.file site.vertex = some d ↔
      ∃ m x, project.Dead site m x ∧ d = entryOf m site.vertex x := by
  constructor
  · intro h
    obtain ⟨m, hfile, h⟩ := Option.bind_eq_some_iff.1 h
    obtain ⟨x, hx, h⟩ := Option.bind_eq_some_iff.1 h
    split at h
    · next hdeclaration =>
      obtain ⟨reason, hreason, rfl⟩ := Option.map_eq_some_iff.1 h
      obtain ⟨hbinds, hunused, hunexported, rfl⟩ := deadReason?_eq_some_iff.1 hreason
      exact ⟨m, x, ⟨hreached, hfile, hx, hdeclaration, hbinds, hunused, hunexported⟩, rfl⟩
    · cases h
  · rintro ⟨m, x, h, rfl⟩
    have hreason : project.deadReason? project.entryFiles site.file m site.vertex x =
        some (m.reasonOf site.vertex) :=
      deadReason?_eq_some_iff.2 ⟨h.binds, h.unused, h.unexported, rfl⟩
    rw [finding?, h.file, Option.bind_some, h.vertex, Option.bind_some, if_pos h.declaration,
      hreason]
    rfl

/-- The findings of a file, each with its statement. -/
def findingsOf (project : Project) (file : FileId) : List (Site × DeadStatement) :=
  match project.file? file with
  | none => []
  | some m =>
    (List.range m.graph.vertices.size).filterMap fun v =>
      (project.finding? file v).map (Prod.mk ⟨file, v⟩)

/-- The findings of a file. -/
theorem mem_findingsOf :
    (site, d) ∈ project.findingsOf file ↔
      site.file = file ∧ project.finding? site.file site.vertex = some d := by
  unfold findingsOf
  cases hfile : project.file? file with
  | none =>
    refine ⟨nofun, ?_⟩
    rintro ⟨rfl, h⟩
    simp [finding?, hfile] at h
  | some m =>
    simp only [List.mem_filterMap, List.mem_range, Option.map_eq_some_iff]
    constructor
    · rintro ⟨v, -, d', hd, heq⟩
      cases heq
      exact ⟨rfl, hd⟩
    · rintro ⟨rfl, h⟩
      refine ⟨site.vertex, ?_, d, h, rfl⟩
      rw [finding?, hfile, Option.bind_some] at h
      obtain ⟨x, hx, -⟩ := Option.bind_eq_some_iff.1 h
      exact StatementGraph.lt_size_of_vertex? hx

theorem map_snd_findingsOf (project : Project) (file : FileId) :
    (project.findingsOf file).map Prod.snd = project.deadStatementsOf project.entryFiles file := by
  unfold findingsOf deadStatementsOf
  cases hfile : project.file? file with
  | none => rfl
  | some m =>
    have hrange : List.range m.graph.vertices.size =
        m.graph.vertices.toList.zipIdx.map Prod.snd := by
      rw [List.zipIdx_map_snd, List.range_eq_range', Array.length_toList]
    dsimp only
    rw [hrange, List.filterMap_map, List.map_filterMap]
    refine List.filterMap_congr fun item hitem => ?_
    obtain ⟨x, v⟩ := item
    have hx : m.graph.vertex? v = some x := by
      simpa [StatementGraph.vertex?] using List.mem_zipIdx_iff_getElem?.1 hitem
    simp only [Function.comp_apply, finding?, hfile, hx, Option.bind_some, Option.map_map]
    rw [show (Prod.snd ∘ Prod.mk (Site.mk file v) : DeadStatement → DeadStatement) = id from rfl,
      Option.map_id, id]

theorem nodup_findingsOf (project : Project) (file : FileId) :
    ((project.findingsOf file).map Prod.fst).Nodup := by
  unfold findingsOf
  cases project.file? file with
  | none => exact List.nodup_nil
  | some m =>
    rw [List.map_filterMap]
    refine List.Nodup.filterMap (fun v v' site h h' => ?_) List.nodup_range
    simp only [Option.mem_def, Option.map_map, Option.map_eq_some_iff] at h h'
    obtain ⟨d, -, rfl⟩ := h
    obtain ⟨d', -, heq⟩ := h'
    cases heq
    rfl

/-- The findings of the reached files, in the order in which these were loaded. -/
def findings (project : Project) : List (Site × DeadStatement) :=
  (project.reach project.entryFiles).files.flatMap project.findingsOf

/-- **The findings are the dead statements.** -/
theorem mem_findings :
    (site, d) ∈ project.findings ↔ ∃ m x, project.Dead site m x ∧ d = entryOf m site.vertex x := by
  simp only [findings, List.mem_flatMap, mem_findingsOf]
  constructor
  · rintro ⟨file, hreached, rfl, h⟩
    exact (finding?_eq_some_iff hreached).1 h
  · rintro ⟨m, x, hdead, hd⟩
    exact ⟨site.file, hdead.reached, rfl, (finding?_eq_some_iff hdead.reached).2 ⟨m, x, hdead, hd⟩⟩

/-- Nothing is found twice. -/
theorem nodup_findings (project : Project) : (project.findings.map Prod.fst).Nodup := by
  rw [findings, List.map_flatMap, List.nodup_flatMap]
  refine ⟨fun file _ => project.nodup_findingsOf file, ?_⟩
  refine (nodup_files_reach project project.entryFiles).imp fun {file file'} hne site h h' => hne ?_
  obtain ⟨⟨site, d⟩, hd, rfl⟩ := List.mem_map.1 h
  obtain ⟨⟨site', d'⟩, hd', heq⟩ := List.mem_map.1 h'
  cases heq
  rw [← (mem_findingsOf.1 hd).1, ← (mem_findingsOf.1 hd').1]

/-! ## The order of the report -/

/-- Two entries are in order: by the components of their paths, then by line, then by column. -/
def InOrder (a b : DeadStatement) : Prop :=
  compare a.path.components b.path.components = .lt ∨ a.path.components = b.path.components ∧
    (a.location.line < b.location.line ∨
      a.location.line = b.location.line ∧ a.location.column ≤ b.location.column)

theorem statementOrder_iff {a b : DeadStatement} : statementOrder a b ↔ InOrder a b := by
  have hlocation : (compare a.location b.location).isLE ↔ a.location.line < b.location.line ∨
      a.location.line = b.location.line ∧ a.location.column ≤ b.location.column := by
    rw [Location.compare_eq_compareLex]
    simp only [compareLex, compareOn, Ordering.isLE_then_iff_or, Nat.compare_eq_lt,
      Nat.compare_eq_eq, Nat.isLE_compare]
  rw [statementOrder, Ordering.isLE_then_iff_or, hlocation, Path.order_eq_eq_iff]
  rfl

/-- **The report lists exactly the dead statements.** Each of them has one entry, which gives its
place, the names it binds and the reason, and the entries are in order. -/
theorem deadStatements_exact (project : Project) : ∃ sites : List Site, sites.Nodup ∧
    (∀ site, site ∈ sites ↔ ∃ m x, project.Dead site m x) ∧
    List.Forall₂ (fun site d => ∃ m x, project.Dead site m x ∧ d = entryOf m site.vertex x) sites
      project.report.deadStatements ∧
    project.report.deadStatements.Pairwise InOrder := by
  -- The report forgets the sites. It is sorted as well if they are carried along.
  let sorted := sortBy (fun a b => statementOrder a.2 b.2) project.findings
  have hperm : sorted.Perm project.findings := perm_sortBy _ _
  have hreport : project.report.deadStatements = sorted.map Prod.snd := by
    have hentries : (project.reach project.entryFiles).files.flatMap
        (project.deadStatementsOf project.entryFiles) = project.findings.map Prod.snd := by
      rw [findings, List.map_flatMap]
      exact List.flatMap_congr fun file _ => (project.map_snd_findingsOf file).symm
    change sortBy statementOrder _ = _
    rw [hentries]
    exact sortBy_map (fun _ _ => rfl) _
  refine ⟨sorted.map Prod.fst, ?_, fun site => ?_, ?_, ?_⟩
  · exact (hperm.map Prod.fst).nodup_iff.2 project.nodup_findings
  · rw [(hperm.map Prod.fst).mem_iff, List.mem_map]
    constructor
    · rintro ⟨⟨site, d⟩, hmem, rfl⟩
      obtain ⟨m, x, hdead, -⟩ := mem_findings.1 hmem
      exact ⟨m, x, hdead⟩
    · rintro ⟨m, x, hdead⟩
      exact ⟨(site, entryOf m site.vertex x), mem_findings.2 ⟨m, x, hdead, rfl⟩, rfl⟩
  · rw [hreport, List.forall₂_map_left_iff, List.forall₂_map_right_iff, List.forall₂_same]
    rintro ⟨site, d⟩ hmem
    exact mem_findings.1 (hperm.mem_iff.1 hmem)
  · exact (pairwise_sortBy statementOrder_eq_isLE _).imp statementOrder_iff.1

end Project

end DeadCode
