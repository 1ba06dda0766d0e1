import DeadCode.Project.Findings
import DeadCode.Proofs.Project.Analyzed
import DeadCode.Proofs.Project.Renumbering
import DeadCode.Proofs.Sorting

/-! # The report does not depend on the order of files

Listing the files of a project in another order changes their indices, the order of the edges and
the course of the walk. The report shows none of it: what is reached is the same set, and what is
listed is sorted by path and place. -/

namespace DeadCode

/-! ## The order of reported statements -/

theorem Location.compare_eq_compareLex : (compare : Location → Location → Ordering) =
    compareLex (compareOn Location.line) (compareOn Location.column) := by
  funext a b
  exact congrArg ((compare a.line b.line).then ·) Ordering.then_eq

instance : Std.TransOrd Location := by
  rw [Std.TransOrd, Location.compare_eq_compareLex]
  infer_instance

namespace Project

/-- The order of reported statements as a comparison. -/
def compareStatements : DeadStatement → DeadStatement → Ordering :=
  compareLex (compareOn (·.path.components)) (compareOn (·.location))

instance : Std.TransCmp compareStatements :=
  inferInstanceAs (Std.TransCmp (compareLex _ _))

theorem statementOrder_eq_isLE (a b : DeadStatement) :
    statementOrder a b = (compareStatements a b).isLE :=
  rfl

theorem same_of_compareStatements {a b : DeadStatement} (h : compareStatements a b = .eq) :
    a.path.Same b.path :=
  Path.order_eq_eq_iff.1 (compareLex_eq_eq.1 h).1

end Project

/-! ## Files with different paths -/

variable {files files' : List SourceModule} {σ : Equiv.Perm FileId} {i : Import}

/-- No two files have the same path. -/
theorem Unambiguous.eq_of_same_path (h : Unambiguous files) (hanalyzed : ∀ m ∈ files, m.Analyzed)
    {id id' : FileId} {m m' : SourceModule} (hm : files[id]? = some m) (hm' : files[id']? = some m')
    (hsame : m.path.Same m'.path) : id' = id := by
  have hcanonical : m.canonical = m'.canonical := by
    rw [(hanalyzed m (List.mem_of_getElem? hm)).hasTree.canonical_eq,
      (hanalyzed m' (List.mem_of_getElem? hm')).hasTree.canonical_eq, Path.canonical_eq_of_same hsame]
  have hlies' : m'.LiesAt m.canonical := .inl (congrArg Path.components hcanonical.symm)
  exact h m.canonical id id' m m' hm hm' (.inl rfl) hlies'

/-! ## Unresolved imports -/

theorem Import.Unresolved.renumber {reason : UnresolvedReason}
    (hunresolved : i.Unresolved files reason) (h : Unambiguous files)
    (hσ : Renumbers σ files files') : i.Unresolved files' reason := by
  cases hunresolved with
  | missingModule hrelative hnone =>
    exact .missingModule hrelative fun m hm => hnone m (hσ.mem_iff.1 hm)
  | detached hleads hvertex => exact .detached ((h.leadsTo_renumber hσ).2 hleads) hvertex
  | missingExport hleads hvertex hone hnone =>
    exact .missingExport ((h.leadsTo_renumber hσ).2 hleads) hvertex hone hnone

theorem Occurrence.unresolved?_renumber (h : Unambiguous files) (hσ : Renumbers σ files files')
    (o : Occurrence) : o.unresolved? files' = o.unresolved? files := by
  have hreason : o.unresolvedReason? files' = o.unresolvedReason? files := by
    ext reason
    rw [unresolvedReason?_eq_some_iff, unresolvedReason?_eq_some_iff]
    exact ⟨fun hunresolved => hunresolved.renumber (h.renumber hσ) hσ.symm,
      fun hunresolved => hunresolved.renumber h hσ⟩
  rw [unresolved?, unresolved?, hreason]

/-- The unresolved imports of one file as they are reported. -/
def unresolvedFindings (files : List SourceModule) (m : SourceModule) : List UnresolvedFinding :=
  m.imports.filterMap fun i =>
    (({ file := 0, path := m.path, item := i } : Occurrence).unresolved? files).map .ofImport

theorem map_unresolved_ofFiles (files : List SourceModule) (dependencies : List Dependency) :
    (Links.ofFiles files dependencies).unresolved.map .ofImport =
      files.flatMap (unresolvedFindings files) := by
  have hindex (m : SourceModule) (id : FileId) (i : Import) :
      (({ file := id, path := m.path, item := i } : Occurrence).unresolved? files).map
          UnresolvedFinding.ofImport =
        (({ file := 0, path := m.path, item := i } : Occurrence).unresolved? files).map
          .ofImport := by
    simp only [Occurrence.unresolved?, Option.map_map]
    rfl
  have hfst : (files.zipIdx.map Prod.fst).flatMap (unresolvedFindings files) =
      files.zipIdx.flatMap fun entry => unresolvedFindings files entry.1 :=
    List.flatMap_map ..
  rw [List.zipIdx_map_fst] at hfst
  simp only [Links.ofFiles, occurrences]
  rw [List.map_filterMap, List.filterMap_flatMap, hfst]
  refine List.flatMap_congr fun entry _ => ?_
  rw [List.filterMap_map, unresolvedFindings]
  exact List.filterMap_congr fun i _ => hindex entry.1 entry.2 i

/-- **The unresolved imports** of files in another order are the same, in another order. -/
theorem perm_unresolved_ofFiles (h : Unambiguous files) (hperm : files.Perm files')
    (dependencies dependencies' : List Dependency) :
    ((Links.ofFiles files' dependencies').unresolved.map UnresolvedFinding.ofImport).Perm
      ((Links.ofFiles files dependencies).unresolved.map .ofImport) := by
  obtain ⟨σ, hσ⟩ := exists_renumbers_of_perm hperm
  have hfindings : unresolvedFindings files' = unresolvedFindings files := by
    funext m
    simp only [unresolvedFindings, Occurrence.unresolved?_renumber h hσ]
  rw [map_unresolved_ofFiles, map_unresolved_ofFiles, hfindings]
  exact hperm.symm.flatMap_right _

/-! ## Entries -/

namespace Project

variable {project project' : Project} {entries : List FileId}

theorem entryFile?_of_unambiguous (h : Unambiguous project.files) {entry : Path} {id : FileId} :
    project.entryFile? entry = some id ↔
      ∃ m, project.files[id]? = some m ∧ m.LiesAt (project.config.root.join entry).canonical := by
  rw [entryFile?_eq_some_iff]
  refine exists_congr fun m => and_congr_right fun hm => and_iff_left_of_imp fun hlies => ?_
  intro j other hj hother hat
  exact absurd (h _ id j m other hm hother hlies hat) (Nat.ne_of_lt hj)

theorem nodup_indexFiles (project : Project) : project.indexFiles.Nodup :=
  List.nodup_range.filter _

theorem eq_of_mem_indexFiles (h : Unambiguous project.files) {id id' : FileId}
    (hid : id ∈ project.indexFiles) (hid' : id' ∈ project.indexFiles) : id' = id := by
  obtain ⟨m, hm, hindex⟩ := mem_indexFiles.1 hid
  obtain ⟨m', hm', hindex'⟩ := mem_indexFiles.1 hid'
  exact h _ id id' m m' hm hm' (.inl hindex) (.inl hindex')

namespace Renumbered

section Entries

variable (h : Renumbered σ project project') (hfiles : Unambiguous project.files)

include h hfiles

/-- The entries are renumbered. -/
theorem entryFile? (entry : Path) :
    project'.entryFile? entry = (project.entryFile? entry).map σ := by
  have hfiles' : Unambiguous project'.files := hfiles.renumber h.files
  ext id
  obtain ⟨id, rfl⟩ := σ.surjective id
  rw [entryFile?_of_unambiguous hfiles', h.files, h.config, ← entryFile?_of_unambiguous hfiles,
    Option.map_eq_some_iff]
  simp

theorem indexFiles : project'.indexFiles = project.indexFiles.map σ := by
  have hperm : project'.indexFiles.Perm (project.indexFiles.map σ) := by
    refine (List.perm_ext_iff_of_nodup (nodup_indexFiles project')
      ((nodup_indexFiles project).map σ.injective)).2 fun id => ?_
    obtain ⟨id, rfl⟩ := σ.surjective id
    rw [List.mem_map_of_injective σ.injective, mem_indexFiles, mem_indexFiles, h.file?, h.config]
  -- Lists of at most one file that are permutations of each other are equal.
  have hnodup := nodup_indexFiles project
  have hone := fun id id' => @eq_of_mem_indexFiles project hfiles id id'
  cases hids : project.indexFiles with
  | nil =>
    rw [hids] at hperm
    exact hperm.eq_nil
  | cons id rest =>
    rw [hids] at hperm hnodup hone
    cases rest with
    | nil => exact List.perm_singleton.1 hperm
    | cons id' rest =>
      have heq : id' = id := hone id id' (by simp) (by simp)
      simp [heq] at hnodup

/-- **The entries** are the same files in the same order. -/
theorem entryFiles : project'.entryFiles = project.entryFiles.map σ := by
  have hdeclared : project'.declaredEntries = project.declaredEntries := by
    rw [declaredEntries, declaredEntries, h.config, h.manifest]
  have hfound : project'.declaredEntries.filterMap project'.entryFile? =
      (project.declaredEntries.filterMap project.entryFile?).map σ := by
    rw [hdeclared, List.map_filterMap]
    exact List.filterMap_congr fun entry _ => h.entryFile? hfiles entry
  rw [Project.entryFiles, Project.entryFiles, hfound, distinct_map σ.injective]
  cases distinct (project.declaredEntries.filterMap project.entryFile?) with
  | nil => exact h.indexFiles hfiles
  | cons id rest => rfl

end Entries

/-! ## Dead declarations -/

theorem isImported_of (h : Renumbered σ project project') {file : FileId} {e : Export}
    (himported : project.isImported file e) : project'.isImported (σ file) e := by
  simp only [isImported, Links.incoming, List.any_eq_true, List.mem_filter, Bool.and_eq_true,
    decide_eq_true_eq] at himported ⊢
  obtain ⟨edge, ⟨hedge, hfile, hvertex⟩, hkind⟩ := himported
  exact ⟨edge.renumber σ, ⟨h.edges edge hedge, congrArg σ hfile, hvertex⟩, hkind⟩

theorem isImported (h : Renumbered σ project project') (file : FileId) :
    project'.isImported (σ file) = project.isImported file := by
  funext e
  rw [Bool.eq_iff_iff]
  exact ⟨fun himported => by simpa using h.symm.isImported_of himported, h.isImported_of⟩

/-- **A file has the same dead declarations.** -/
theorem deadStatementsOf (h : Renumbered σ project project') (entries : List FileId)
    (file : FileId) :
    project'.deadStatementsOf (entries.map σ) (σ file) = project.deadStatementsOf entries file := by
  have hentry : σ file ∈ entries.map σ ↔ file ∈ entries := List.mem_map_of_injective σ.injective
  have huse (m : SourceModule) (vertex : Vertex) :
      project'.isUse (entries.map σ) (σ file) m vertex = project.isUse entries file m vertex := by
    funext e
    simp only [isUse, isLiveExport, h.isImported, hentry]
  simp only [Project.deadStatementsOf, deadReason?, h.file?, h.isImported, huse, hentry]

end Renumbered

/-! ## The report -/

theorem path_of_mem_deadStatementsOf {file : FileId} {d : DeadStatement}
    (h : d ∈ project.deadStatementsOf entries file) :
    ∃ m, project.file? file = some m ∧ d.path = m.path := by
  unfold deadStatementsOf at h
  split at h
  · cases h
  · next m hm =>
    obtain ⟨⟨vertex, id⟩, -, hd⟩ := List.mem_filterMap.1 h
    dsimp only at hd
    split at hd
    · obtain ⟨reason, -, rfl⟩ := Option.map_eq_some_iff.1 hd
      exact ⟨m, hm, rfl⟩
    · cases hd

/-- The indices of the files that are not reached. -/
def deadIds (project : Project) (reach : Reach) : List FileId :=
  (List.range project.files.length).filter (· ∉ reach.files)

theorem mem_deadIds {reach : Reach} {id : FileId} :
    id ∈ project.deadIds reach ↔ (project.file? id).isSome ∧ id ∉ reach.files := by
  simp [deadIds, file?]

theorem nodup_deadIds (project : Project) (reach : Reach) : (project.deadIds reach).Nodup :=
  List.nodup_range.filter _

namespace Renumbered

section Report

variable (h : Renumbered σ project project') (hlinked : project.Linked)
  (hlinked' : project'.Linked) (hfiles : Unambiguous project.files)
  (hanalyzed : ∀ m ∈ project.files, m.Analyzed)

include h hlinked hlinked' hfiles hanalyzed

/-- The dead files are the same. -/
theorem deadFiles : project'.deadFiles (project'.reach (entries.map σ)) =
    project.deadFiles (project.reach entries) := by
  have hids : (project'.deadIds (project'.reach (entries.map σ))).Perm
      ((project.deadIds (project.reach entries)).map σ) := by
    refine (List.perm_ext_iff_of_nodup (nodup_deadIds ..)
      ((nodup_deadIds ..).map σ.injective)).2 fun id => ?_
    obtain ⟨id, rfl⟩ := σ.surjective id
    rw [List.mem_map_of_injective σ.injective, mem_deadIds, mem_deadIds, h.file?,
      h.mem_files_iff hlinked hlinked']
  have hpaths : ((project'.deadIds (project'.reach (entries.map σ))).filterMap fun id =>
      (project'.file? id).map (·.path)).Perm
        ((project.deadIds (project.reach entries)).filterMap fun id =>
          (project.file? id).map (·.path)) := by
    refine (hids.filterMap _).trans ?_
    rw [List.filterMap_map]
    simp only [Function.comp_def, h.file?]
    exact .refl _
  refine (sortBy_of_perm (fun _ _ => rfl) hpaths.symm ?_).symm
  -- Files that are not reached have different paths, so none of them are level.
  refine List.pairwise_filterMap.2 ((nodup_deadIds ..).imp ?_)
  intro id id' hne path hpath path' hpath' heq
  obtain ⟨m, hm, rfl⟩ := Option.map_eq_some_iff.1 hpath
  obtain ⟨m', hm', rfl⟩ := Option.map_eq_some_iff.1 hpath'
  exact hne (hfiles.eq_of_same_path hanalyzed hm hm' (Path.order_eq_eq_iff.1 heq)).symm

/-- **The dead statements are the same.** -/
theorem deadStatements :
    project'.deadStatements (entries.map σ) (project'.reach (entries.map σ)) =
      project.deadStatements entries (project.reach entries) := by
  have hblocks : ((project'.reach (entries.map σ)).files.map
      (project'.deadStatementsOf (entries.map σ))).Perm
        ((project.reach entries).files.map (project.deadStatementsOf entries)) := by
    refine ((h.perm_files hlinked hlinked').map _).trans ?_
    rw [List.map_map]
    simp only [Function.comp_def, h.deadStatementsOf]
    exact .refl _
  refine (sortBy_flatten_of_perm statementOrder_eq_isLE hblocks.symm ?_).symm
  -- Declarations of different files differ in their paths.
  refine List.pairwise_map.2 ((nodup_files_reach _ _).imp ?_)
  intro id id' hne d hd d' hd' heq
  obtain ⟨m, hm, hpath⟩ := path_of_mem_deadStatementsOf hd
  obtain ⟨m', hm', hpath'⟩ := path_of_mem_deadStatementsOf hd'
  have hsame := same_of_compareStatements heq
  rw [hpath, hpath'] at hsame
  exact hne (hfiles.eq_of_same_path hanalyzed hm hm' hsame).symm

end Report

end Renumbered

end Project

/-- Two reports say the same; only unresolved imports may be listed in another order. -/
structure Report.Agrees (report report' : Report) : Prop where
  projectName : report'.projectName = report.projectName
  entries : report'.entries = report.entries
  totalFiles : report'.totalFiles = report.totalFiles
  reachedFiles : report'.reachedFiles = report.reachedFiles
  deadFiles : report'.deadFiles = report.deadFiles
  deadDependencies : report'.deadDependencies = report.deadDependencies
  deadStatements : report'.deadStatements = report.deadStatements
  unresolvedImports : report'.unresolvedImports.Perm report.unresolvedImports

namespace Project

/-- **The report does not depend on the order of the files.** Two projects of the same analyzed
files, in any two orders, have the same entries, the same counts, and the same dead files,
dependencies and declarations, listed in the same order, and the same unresolved imports. No two
files may have one canonical path, and none may be the `index` file at the path of another. -/
theorem report_agrees_of_perm (config : Config) (manifest : Option Manifest)
    (failures failures' : List Failure) (hperm : files.Perm files')
    (hanalyzed : ∀ m ∈ files, m.Analyzed)
    (hdistinct : files.Pairwise fun a b => ¬ a.canonical.Same b.canonical)
    (hindex : ∀ a ∈ files, ∀ b ∈ files, ¬ b.canonical.Same (a.canonical.child "index")) :
    (ofFiles config manifest files failures).report.Agrees
      (ofFiles config manifest files' failures').report := by
  have hfiles : Unambiguous files := unambiguous_of_pairwise hdistinct hindex
  obtain ⟨σ, hσ⟩ := exists_renumbers_of_perm hperm
  have h := renumbered_ofFiles config manifest failures failures' hfiles hσ
  have hlinked := linked_ofFiles config manifest files failures
  have hlinked' := linked_ofFiles config manifest files' failures'
  have hentries := h.entryFiles hfiles
  refine ⟨rfl, ?_, hperm.length_eq.symm, ?_, ?_, ?_, ?_, perm_unresolved_ofFiles hfiles hperm _ _⟩
  · simp only [report, hentries, List.filterMap_map, Function.comp_def, h.file?]
  · simp only [report, hentries, (h.perm_files hlinked hlinked').length_eq, List.length_map]
  · simp only [report, hentries, h.deadFiles hlinked hlinked' hfiles hanalyzed]
  · simp only [report, hentries, deadDependencies, h.manifest, h.config,
      h.mem_packages_iff hlinked hlinked']
  · simp only [report, hentries, h.deadStatements hlinked hlinked' hfiles hanalyzed]

/-- A file that imports another, and a file in a subdirectory whose import leads nowhere. -/
def threeFiles : List SourceModule :=
  (ofSources {} none (importerAndTarget ++
    [{ path := ⟨"/app/sub/c.js"⟩, text := some "import './b';", tree := some importOfFile }])).files

/-- The three files in reverse order: the links lead to other indices, and the report is the same,
with a dead file, a dead declaration and an unresolved import. -/
theorem report_agrees_threeFiles :
    let config : Config := { root := ⟨"/app"⟩, entries := [⟨"a.js"⟩] }
    let report := (ofFiles config none threeFiles []).report
    threeFiles.Perm threeFiles.reverse ∧
    (∀ m ∈ threeFiles, m.Analyzed) ∧
    threeFiles.Pairwise (fun a b => ¬ a.canonical.Same b.canonical) ∧
    (∀ a ∈ threeFiles, ∀ b ∈ threeFiles, ¬ b.canonical.Same (a.canonical.child "index")) ∧
    report.Agrees (ofFiles config none threeFiles.reverse []).report ∧
    (ofFiles config none threeFiles []).links.modules = [⟨0, 0, 1⟩] ∧
    (ofFiles config none threeFiles.reverse []).links.modules = [⟨2, 0, 1⟩] ∧
    report.deadFiles = [⟨"/app/sub/c.js"⟩] ∧
    report.deadStatements.map (·.names) = [["f"]] ∧
    report.unresolvedImports.map (·.source) = ["./b"] := by
  intro config report
  have hperm : threeFiles.Perm threeFiles.reverse := (List.reverse_perm threeFiles).symm
  have hanalyzed : ∀ m ∈ threeFiles, m.Analyzed := fun m => analyzed_of_mem_files
  obtain ⟨hdistinct, hindex⟩ : (threeFiles.Pairwise fun a b => ¬ a.canonical.Same b.canonical) ∧
      ∀ a ∈ threeFiles, ∀ b ∈ threeFiles, ¬ b.canonical.Same (a.canonical.child "index") := by
    decide +kernel
  exact ⟨hperm, hanalyzed, hdistinct, hindex,
    report_agrees_of_perm config none [] [] hperm hanalyzed hdistinct hindex, by decide +kernel⟩

end Project

end DeadCode
