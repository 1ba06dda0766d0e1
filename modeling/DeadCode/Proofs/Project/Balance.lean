import DeadCode.Proofs.Project.Entries
import DeadCode.Proofs.Project.FileOrder

/-! # The books of a report

A report counts the files reached, lists the files not reached, and lists statements of the files
reached. The numbers come from different places: the order in which the walk loads files, a filter
over all indices, and the list of files. They fit together because the entries and all that is
loaded from them are files of the project, each loaded once. -/

namespace DeadCode

namespace Project

variable {project : Project} {entries : List FileId} {id : FileId}

/-! ## Entries -/

theorem entryFiles_eq_or (project : Project) :
    project.entryFiles = project.indexFiles ∨
      project.entryFiles = distinct (project.declaredEntries.filterMap project.entryFile?) := by
  unfold entryFiles
  split
  · exact .inl rfl
  · exact .inr rfl

/-- **Every entry is a file.** -/
theorem isSome_file?_of_mem_entryFiles (h : id ∈ project.entryFiles) :
    (project.file? id).isSome := by
  rcases project.entryFiles_eq_or with heq | heq
  · rw [heq] at h
    obtain ⟨m, hm, -⟩ := mem_indexFiles.1 h
    exact Option.isSome_of_eq_some hm
  · rw [heq, mem_distinct, List.mem_filterMap] at h
    obtain ⟨entry, -, hentry⟩ := h
    obtain ⟨m, hm, -⟩ := entryFile?_eq_some_iff.1 hentry
    exact Option.isSome_of_eq_some hm

/-- Every entry is there once. -/
theorem nodup_entryFiles (project : Project) : project.entryFiles.Nodup := by
  rcases project.entryFiles_eq_or with heq | heq
  · rw [heq]
    exact project.nodup_indexFiles
  · rw [heq]
    exact nodup_distinct _

/-! ## Files reached and files not reached -/

theorem Linked.isSome_file?_of_target (hlinked : project.Linked) {link : ModuleLink}
    (h : link ∈ project.links.modules) : (project.file? link.target).isSome := by
  obtain ⟨dependencies, hlinks⟩ := hlinked
  rw [hlinks] at h
  obtain ⟨o, -, target, hleads, -⟩ := Links.mem_modules_iff.1 h
  obtain ⟨path, -, hid, -⟩ := hleads.mem_files
  exact Option.isSome_of_eq_some hid

/-- **Whatever is reached from files is a file.** -/
theorem isSome_file?_of_mem_reach (hlinked : project.Linked)
    (hentries : ∀ id ∈ entries, (project.file? id).isSome)
    (h : id ∈ (project.reach entries).files) : (project.file? id).isSome := by
  have hneeded : project.Needed entries fun id => (project.file? id).isSome :=
    ⟨hentries, fun link hlink _ => hlinked.isSome_file?_of_target hlink⟩
  exact hneeded.of_mem_files h

/-- **The indices of the files** are those reached and those not reached, each once. -/
theorem perm_reached_deadIds (hlinked : project.Linked)
    (hentries : ∀ id ∈ entries, (project.file? id).isSome) :
    ((project.reach entries).files ++ project.deadIds (project.reach entries)).Perm
      (List.range project.files.length) := by
  have hdisjoint : (project.reach entries).files.Disjoint
      (project.deadIds (project.reach entries)) :=
    fun id hreached hdead => (mem_deadIds.1 hdead).2 hreached
  have hreached : (project.reach entries).files.Nodup := nodup_files_reach _ _
  have hnodup := hreached.append (project.nodup_deadIds (project.reach entries)) hdisjoint
  refine (List.perm_ext_iff_of_nodup hnodup List.nodup_range).2 fun id => ?_
  have hfile : (project.file? id).isSome ↔ id < project.files.length := by simp [file?]
  rw [List.mem_append, mem_deadIds, List.mem_range, ← hfile]
  constructor
  · rintro (hreached | hdead)
    · exact isSome_file?_of_mem_reach hlinked hentries hreached
    · exact hdead.1
  · intro hsome
    by_cases hreached : id ∈ (project.reach entries).files
    · exact .inl hreached
    · exact .inr ⟨hsome, hreached⟩

theorem perm_deadFiles (project : Project) (reach : Reach) :
    (project.deadFiles reach).Perm
      ((project.deadIds reach).filterMap fun id => (project.file? id).map (·.path)) :=
  perm_sortBy _ _

/-- As many dead files are reported as there are. -/
theorem length_deadFiles (project : Project) (reach : Reach) :
    (project.deadFiles reach).length = (project.deadIds reach).length := by
  rw [(project.perm_deadFiles reach).length_eq, List.length_filterMap_eq_countP,
    List.countP_eq_length]
  intro id hid
  rw [Option.isSome_map]
  exact (mem_deadIds.1 hid).1

/-- The dead files are those that are not reached. -/
theorem mem_deadFiles {reach : Reach} {path : Path} : path ∈ project.deadFiles reach ↔
    ∃ id m, project.file? id = some m ∧ id ∉ reach.files ∧ m.path = path := by
  rw [(project.perm_deadFiles reach).mem_iff, List.mem_filterMap]
  constructor
  · rintro ⟨id, hid, hpath⟩
    obtain ⟨m, hm, rfl⟩ := Option.map_eq_some_iff.1 hpath
    exact ⟨id, m, hm, (mem_deadIds.1 hid).2, rfl⟩
  · rintro ⟨id, m, hm, hid, rfl⟩
    exact ⟨id, mem_deadIds.2 ⟨Option.isSome_of_eq_some hm, hid⟩, by rw [hm]; rfl⟩

/-- Dead statements lie in reached files. -/
theorem exists_file_of_mem_deadStatements {reach : Reach} {d : DeadStatement}
    (h : d ∈ project.deadStatements entries reach) :
    ∃ id ∈ reach.files, ∃ m, project.file? id = some m ∧ d.path = m.path := by
  obtain ⟨id, hid, hd⟩ := List.mem_flatMap.1 (mem_sortBy.1 h)
  obtain ⟨m, hm, hpath⟩ := path_of_mem_deadStatementsOf hd
  exact ⟨id, hid, m, hm, hpath⟩

/-! ## The report -/

/-- The paths tell the files of a project apart. -/
def PathsDiffer (project : Project) : Prop :=
  project.files.Pairwise fun a b => ¬ a.path.Same b.path

theorem PathsDiffer.eq_of_same (h : project.PathsDiffer) {id' : FileId} {m m' : SourceModule}
    (hm : project.file? id = some m) (hm' : project.file? id' = some m')
    (hsame : m.path.Same m'.path) : id = id' := by
  obtain ⟨hlt, rfl⟩ := List.getElem?_eq_some_iff.1 hm
  obtain ⟨hlt', rfl⟩ := List.getElem?_eq_some_iff.1 hm'
  rcases Nat.lt_trichotomy id id' with hid | hid | hid
  · exact absurd hsame (List.pairwise_iff_getElem.1 h id id' hlt hlt' hid)
  · exact hid
  · exact absurd hsame.symm (List.pairwise_iff_getElem.1 h id' id hlt' hlt hid)

/-- The books of the report of a project balance. -/
structure Balanced (project : Project) : Prop where
  /-- Every entry is a file. -/
  entry : ∀ id ∈ project.entryFiles, (project.file? id).isSome
  /-- Every file reached is one. -/
  reached : ∀ id ∈ (project.reach project.entryFiles).files, (project.file? id).isSome
  /-- The entries are reached. -/
  entry_reached : ∀ id ∈ project.entryFiles, id ∈ (project.reach project.entryFiles).files
  /-- No file is an entry twice. -/
  nodup_entries : project.entryFiles.Nodup
  /-- No file is reached twice. -/
  nodup_reached : (project.reach project.entryFiles).files.Nodup
  /-- The files reached and the files listed as dead are all files. -/
  total : project.report.reachedFiles + project.report.deadFiles.length = project.report.totalFiles
  /-- A file is listed as dead if it is not reached. -/
  dead : ∀ path, path ∈ project.report.deadFiles ↔ ∃ id m, project.file? id = some m ∧
    id ∉ (project.reach project.entryFiles).files ∧ m.path = path
  /-- The files listed as dead are sorted by the components of their paths. -/
  sorted : project.report.deadFiles.Pairwise fun a b => (compare a.components b.components).isLE
  /-- No file is listed as dead and is the place of a dead statement. -/
  apart : project.PathsDiffer → ∀ path ∈ project.report.deadFiles,
    ∀ d ∈ project.report.deadStatements, ¬ path.Same d.path

/-- **The books of every report balance.** -/
theorem balanced_ofFiles (config : Config) (manifest : Option Manifest) (files : List SourceModule)
    (failures : List Failure) : (ofFiles config manifest files failures).Balanced := by
  generalize hproject : ofFiles config manifest files failures = project
  have hlinked : project.Linked := hproject ▸ linked_ofFiles config manifest files failures
  have hentry (id : FileId) (h : id ∈ project.entryFiles) : (project.file? id).isSome :=
    isSome_file?_of_mem_entryFiles h
  refine
    { entry := hentry
      reached := fun id h => isSome_file?_of_mem_reach hlinked hentry h
      entry_reached := (needed_reach hlinked).entry
      nodup_entries := project.nodup_entryFiles
      nodup_reached := nodup_files_reach _ _
      total := ?_
      dead := fun path => mem_deadFiles
      sorted := pairwise_sortBy (fun a b => (rfl : _ = (a.order b).isLE)) _
      apart := fun hdiffer path hpath d hd hsame => ?_ }
  · have hlength := (perm_reached_deadIds hlinked hentry).length_eq
    rw [List.length_append, List.length_range, ← length_deadFiles] at hlength
    exact hlength
  · obtain ⟨id, m, hm, hdead, rfl⟩ := mem_deadFiles.1 hpath
    obtain ⟨id', hreached, m', hm', hpath'⟩ := exists_file_of_mem_deadStatements hd
    rw [hpath'] at hsame
    exact hdead (hdiffer.eq_of_same hm hm' hsame ▸ hreached)

/-- Three files with different paths, of which one is dead and another has a dead statement. -/
theorem balanced_ofFiles_threeFiles :
    let project := ofFiles { root := ⟨"/app"⟩, entries := [⟨"a.js"⟩] } none threeFiles []
    project.PathsDiffer ∧ project.report.deadFiles = [⟨"/app/sub/c.js"⟩] ∧
    project.report.deadStatements.map (·.path) = [⟨"/app/b.js"⟩] ∧
    ∀ d ∈ project.report.deadStatements, ¬ (Path.mk "/app/sub/c.js").Same d.path := by
  intro project
  have hdiffer : project.PathsDiffer := by
    unfold PathsDiffer
    decide +kernel
  have hdead : project.report.deadFiles = [⟨"/app/sub/c.js"⟩] := by decide +kernel
  refine ⟨hdiffer, hdead, by decide +kernel, ?_⟩
  exact (balanced_ofFiles _ none threeFiles []).apart hdiffer _ (by rw [hdead]; exact .head _)

end Project

end DeadCode
