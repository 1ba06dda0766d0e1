import DeadCode.Project.Findings
import DeadCode.Proofs.Project.Accounting
import DeadCode.Proofs.Project.Analyzed

/-! # Imports of builtins

A specifier with the mark `node:` means a builtin and not a package that happens to have its name.
The mark is noted with the import, but what counts as imported is the name alone. Here the imports
of builtins are taken out of a project. Imports of packages make no links, so the walk goes on as
before; what changes is which names of dependencies it comes upon. -/

namespace DeadCode

/-- The specifier of an import marks a builtin. -/
def Import.isBuiltin (i : Import) : Bool :=
  Specifier.builtinMark.isPrefixOf i.source.toList

/-! ## Some of the imports -/

namespace SourceModule

/-- A file with some of its imports. -/
def keepImports (keep : Import → Bool) (m : SourceModule) : SourceModule :=
  { m with imports := m.imports.filter keep }

end SourceModule

variable {keep : Import → Bool} {files : List SourceModule}

section Resolution

/-- A file of a list, with its index, with some of its imports. -/
def keepEntry (keep : Import → Bool) (entry : SourceModule × FileId) : SourceModule × FileId :=
  (entry.1.keepImports keep, entry.2)

theorem filesAt_keepImports (path : Path) :
    filesAt (files.map (·.keepImports keep)) path = (filesAt files path).map (keepEntry keep) := by
  unfold filesAt
  rw [List.zipIdx_map, List.filter_map]
  rfl

/-- The candidates do not depend on imports. -/
theorem candidates_keepImports (path : Path) :
    candidates (files.map (·.keepImports keep)) path =
      (candidates files path).map (keepEntry keep) := by
  unfold candidates
  rw [filesAt_keepImports, filesAt_keepImports]
  cases filesAt files path <;> rfl

theorem foldl_betterRanked_keepImports (first : SourceModule × FileId)
    (rest : List (SourceModule × FileId)) :
    (rest.map (keepEntry keep)).foldl betterRanked (keepEntry keep first) =
      keepEntry keep (rest.foldl betterRanked first) := by
  induction rest generalizing first with
  | nil => rfl
  | cons next rest ih =>
    have hbetter : betterRanked (keepEntry keep first) (keepEntry keep next) =
        keepEntry keep (betterRanked first next) := by
      unfold betterRanked
      rw [apply_ite (keepEntry keep)]
      rfl
    rw [List.map_cons, List.foldl_cons, List.foldl_cons, hbetter, ih]

theorem chooseTarget_keepImports (specifier : String) (found : List (SourceModule × FileId)) :
    chooseTarget specifier (found.map (keepEntry keep)) =
      (chooseTarget specifier found).map (keepEntry keep) := by
  have hbest : bestRanked (found.map (keepEntry keep)) =
      (bestRanked found).map (keepEntry keep) := by
    cases found with
    | nil => rfl
    | cons first rest => exact congrArg some (foldl_betterRanked_keepImports first rest)
  have hwritten : hasWrittenExtension specifier ∘ keepEntry keep = hasWrittenExtension specifier :=
    rfl
  unfold chooseTarget
  rw [List.find?_map, hwritten, hbest, Option.map_or]

/-- **What an import leads to** does not depend on what the files import. -/
theorem Resolution.ofImport_keepImports (i : Import) :
    Resolution.ofImport (files.map (·.keepImports keep)) i = Resolution.ofImport files i := by
  unfold ofImport
  cases i.target with
  | package name builtin => rfl
  | relative path =>
    dsimp only
    rw [candidates_keepImports, chooseTarget_keepImports]
    cases chooseTarget i.source (candidates files path) with
    | none => rfl
    | some found => rfl

end Resolution

/-- The imports that are kept. -/
theorem occurrences_keepImports :
    occurrences (files.map (·.keepImports keep)) =
      (occurrences files).filter fun o => keep o.item := by
  unfold occurrences
  rw [List.zipIdx_map, List.flatMap_map, List.filter_flatMap]
  refine List.flatMap_congr fun entry _ => ?_
  rw [List.filter_map]
  rfl

theorem flatMap_filter_of_eq_nil {α β : Type} {p : α → Bool} {f : α → List β} {xs : List α}
    (h : ∀ x ∈ xs, p x = false → f x = []) : (xs.filter p).flatMap f = xs.flatMap f := by
  induction xs with
  | nil => rfl
  | cons x rest ih =>
    obtain ⟨hx, hrest⟩ := List.forall_mem_cons.1 h
    rw [List.flatMap_cons, ← ih hrest]
    cases hp : p x with
    | true => rw [List.filter_cons_of_pos hp, List.flatMap_cons]
    | false => rw [List.filter_cons_of_neg (by simp [hp]), hx hp, List.nil_append]

/-- The imports that are left out are imports of packages. -/
def KeepsPaths (keep : Import → Bool) (files : List SourceModule) : Prop :=
  ∀ m ∈ files, ∀ i ∈ m.imports, keep i = false → i.packageName?.isSome

section Links

theorem Occurrence.resolution_keepImports (o : Occurrence) :
    o.resolution (files.map (·.keepImports keep)) = o.resolution files :=
  Resolution.ofImport_keepImports o.item

theorem KeepsPaths.exists_package (h : KeepsPaths keep files) {o : Occurrence}
    (ho : o ∈ occurrences files) (hkeep : keep o.item = false) :
    ∃ name, o.resolution files = .package name := by
  obtain ⟨m, hm, hi, -⟩ := mem_occurrences_iff.1 ho
  have hpackage := h m (List.mem_of_getElem? hm) o.item hi hkeep
  unfold Import.packageName? at hpackage
  unfold Occurrence.resolution Resolution.ofImport
  cases htarget : o.item.target with
  | package name builtin => exact ⟨name, rfl⟩
  | relative path => simp [htarget] at hpackage

/-- What is read off the files that imports lead to does not need the imports of packages. -/
theorem KeepsPaths.filterMap_occurrences {β : Type} (h : KeepsPaths keep files)
    {read read' : Occurrence → Option β} (hread : read' = read)
    (hpackage : ∀ o name, o.resolution files = .package name → read o = none) :
    (occurrences (files.map (·.keepImports keep))).filterMap read' =
      (occurrences files).filterMap read := by
  rw [occurrences_keepImports, List.filterMap_filter, hread]
  refine List.filterMap_congr fun o ho => ?_
  cases hkeep : keep o.item with
  | true => rfl
  | false =>
    obtain ⟨name, hname⟩ := h.exists_package ho hkeep
    rw [hpackage o name hname]
    rfl

variable {dependencies dependencies' : List Dependency}

/-- **Imports of packages make no links**, and they are never unresolved. -/
theorem links_keepImports (h : KeepsPaths keep files) :
    let links := Links.ofFiles files dependencies
    let links' := Links.ofFiles (files.map (·.keepImports keep)) dependencies'
    links'.edges = links.edges ∧ links'.modules = links.modules ∧
      links'.unresolved = links.unresolved := by
  refine ⟨congrArg distinct ?_, congrArg distinct ?_, ?_⟩
  · have hedges : Occurrence.edges (files.map (·.keepImports keep)) = Occurrence.edges files := by
      funext o
      rw [Occurrence.edges, Occurrence.resolution_keepImports, Occurrence.edges]
    rw [hedges, occurrences_keepImports]
    refine flatMap_filter_of_eq_nil fun o ho hkeep => ?_
    obtain ⟨name, hname⟩ := h.exists_package ho hkeep
    rw [Occurrence.edges, hname]
  · refine h.filterMap_occurrences (funext fun o => ?_) fun o name hname => ?_
    · rw [Occurrence.moduleLink?, Occurrence.resolution_keepImports, Occurrence.moduleLink?]
    · rw [Occurrence.moduleLink?, hname]
  · refine h.filterMap_occurrences (funext fun o => ?_) fun o name hname => ?_
    · unfold Occurrence.unresolved? Occurrence.unresolvedReason?
      rw [Occurrence.resolution_keepImports]
    · rw [Occurrence.unresolved?, Occurrence.unresolvedReason?, hname]
      rfl

end Links

/-! ## Walks side by side -/

namespace Project

/-- In two projects walks take the same steps. -/
structure SameSteps (project project' : Project) : Prop where
  loadSites : project'.loadSites = project.loadSites
  localTargets : project'.localTargets = project.localTargets
  loadedAt : project'.loadedAt = project.loadedAt
  importTargets : project'.importTargets = project.importTargets
  siteBound : project'.siteBound = project.siteBound

/-- Two walks have reached the same files and statements, and the same ones are ahead of them. They
may have come upon different packages. -/
structure Walk.Abreast (walk walk' : Walk) : Prop where
  files : walk'.reach.files = walk.reach.files
  sites : walk'.reach.sites = walk.reach.sites
  pending : walk'.pending = walk.pending

variable {project project' : Project} {entries : List FileId}

namespace Walk.Abreast

variable {walk walk' : Walk}

theorem push (h : walk.Abreast walk') (sites : List Site) :
    (walk.push sites).Abreast (walk'.push sites) where
  files := h.files
  sites := h.sites
  pending := congrArg (sites.reverse ++ ·) h.pending

theorem load (hsame : project.SameSteps project') (h : walk.Abreast walk') (file : FileId) :
    (Walk.load project walk file).Abreast (Walk.load project' walk' file) := by
  unfold Walk.load
  rw [h.files, hsame.loadSites]
  split
  · exact h
  · refine push ?_ _
    exact ⟨rfl, h.sites, h.pending⟩

theorem foldl_load (hsame : project.SameSteps project') (h : walk.Abreast walk')
    (loaded : List FileId) :
    (loaded.foldl (Walk.load project) walk).Abreast (loaded.foldl (Walk.load project') walk') := by
  induction loaded generalizing walk walk' with
  | nil => exact h
  | cons file rest ih => exact ih (h.load hsame file)

theorem visit (hsame : project.SameSteps project') (h : walk.Abreast walk') (site : Site) :
    (Walk.visit project walk site).Abreast (Walk.visit project' walk' site) := by
  unfold Walk.visit
  rw [hsame.localTargets, hsame.loadedAt, hsame.importTargets]
  refine push (foldl_load hsame (push ?_ _) _) _
  exact ⟨h.files, congrArg (site :: ·) h.sites, h.pending⟩

/-- Walks abreast end with the same files. -/
theorem run (hsame : project.SameSteps project') (h : walk.Abreast walk') (limit : Nat) :
    (walk'.run project' limit).files = (walk.run project limit).files ∧
      (walk'.run project' limit).sites = (walk.run project limit).sites := by
  induction limit generalizing walk walk' with
  | zero => exact ⟨h.files, h.sites⟩
  | succ limit ih =>
    unfold Walk.run
    rw [h.pending, h.sites]
    split
    · exact ⟨h.files, h.sites⟩
    · next site pending _ =>
      refine ih (visit hsame ?_ site)
      exact ⟨h.files, h.sites, rfl⟩

end Walk.Abreast

/-- **Where walks take the same steps they reach the same.** -/
theorem SameSteps.reach_eq (h : project.SameSteps project') :
    (project'.reach entries).files = (project.reach entries).files ∧
      (project'.reach entries).sites = (project.reach entries).sites := by
  unfold reach
  rw [h.siteBound]
  exact (Walk.Abreast.foldl_load h ⟨rfl, rfl, rfl⟩ entries).run h _

/-! ## A project with some of its imports -/

/-- A project with some of its imports. -/
def keepImports (keep : Import → Bool) (project : Project) : Project :=
  ofFiles project.config project.manifest (project.files.map (·.keepImports keep)) project.failures

theorem file?_keepImports (file : FileId) :
    (project.keepImports keep).file? file = (project.file? file).map (·.keepImports keep) :=
  List.getElem?_map

theorem entryFiles_keepImports : (project.keepImports keep).entryFiles = project.entryFiles := by
  have hentry : (project.keepImports keep).entryFile? = project.entryFile? := by
    funext entry
    exact List.findIdx?_map
  have hindex : (project.keepImports keep).indexFiles = project.indexFiles := by
    unfold indexFiles
    rw [show (project.keepImports keep).files.length = project.files.length from List.length_map _]
    refine List.filter_congr fun file _ => ?_
    rw [file?_keepImports, Option.any_map]
    rfl
  unfold entryFiles
  rw [hentry, hindex]
  rfl

/-- **Without imports of packages a walk takes the same steps.** -/
theorem sameSteps_keepImports (hlinked : project.Linked) (h : KeepsPaths keep project.files) :
    project.SameSteps (project.keepImports keep) := by
  obtain ⟨dependencies, hlinks⟩ := hlinked
  have hkept : (project.keepImports keep).links.edges = project.links.edges ∧
      (project.keepImports keep).links.modules = project.links.modules := by
    rw [hlinks]
    exact ⟨(links_keepImports h).1, (links_keepImports h).2.1⟩
  constructor
  · funext file
    unfold loadSites
    rw [file?_keepImports]
    cases project.file? file <;> rfl
  · funext site
    unfold localTargets
    rw [file?_keepImports]
    cases project.file? site.file <;> rfl
  · funext site
    unfold loadedAt Links.loaded
    rw [file?_keepImports, hkept.2]
    cases project.file? site.file <;> rfl
  · funext site
    unfold importTargets Links.outgoing
    rw [file?_keepImports, hkept.1]
    cases project.file? site.file <;> rfl
  · unfold siteBound
    rw [hkept.1]
    exact List.foldr_map

/-- Leaving out imports of packages keeps what is reached. -/
theorem reach_keepImports (hlinked : project.Linked) (h : KeepsPaths keep project.files) :
    ((project.keepImports keep).reach (project.keepImports keep).entryFiles).files =
        (project.reach project.entryFiles).files ∧
      ((project.keepImports keep).reach (project.keepImports keep).entryFiles).sites =
        (project.reach project.entryFiles).sites := by
  rw [entryFiles_keepImports]
  exact (sameSteps_keepImports hlinked h).reach_eq

/-! ## Builtins -/

/-- The names of the builtins that a statement imports. -/
def builtinsAt (project : Project) (site : Site) : List String :=
  match project.file? site.file with
  | none => []
  | some m => ((m.importsAt site.vertex).filter Import.isBuiltin).filterMap Import.packageName?

/-- The names of the builtins that reached statements import. -/
def reachedBuiltins (project : Project) : List String :=
  (project.reach project.entryFiles).sites.flatMap project.builtinsAt

/-- The names of the builtins that files import. -/
def importedBuiltins (project : Project) : List String :=
  project.files.flatMap fun m => (m.imports.filter Import.isBuiltin).filterMap Import.packageName?

/-- A project without its imports of builtins. -/
def withoutBuiltins (project : Project) : Project :=
  project.keepImports fun i => !i.isBuiltin

variable {package : String}

theorem mem_packageNames_iff {imports : List Import} :
    package ∈ imports.filterMap Import.packageName? ↔
      package ∈ (imports.filter fun i => !i.isBuiltin).filterMap Import.packageName? ∨
        package ∈ (imports.filter Import.isBuiltin).filterMap Import.packageName? := by
  simp only [List.mem_filterMap, List.mem_filter, Bool.not_eq_true']
  constructor
  · rintro ⟨i, hi, hname⟩
    cases hbuiltin : i.isBuiltin with
    | true => exact .inr ⟨i, ⟨hi, hbuiltin⟩, hname⟩
    | false => exact .inl ⟨i, ⟨hi, hbuiltin⟩, hname⟩
  · rintro (⟨i, ⟨hi, -⟩, hname⟩ | ⟨i, ⟨hi, -⟩, hname⟩)
    · exact ⟨i, hi, hname⟩
    · exact ⟨i, hi, hname⟩

theorem mem_packagesAt_iff_builtin {site : Site} : package ∈ project.packagesAt site ↔
    package ∈ project.withoutBuiltins.packagesAt site ∨ package ∈ project.builtinsAt site := by
  unfold packagesAt builtinsAt withoutBuiltins
  rw [file?_keepImports]
  cases project.file? site.file with
  | none => simp
  | some m =>
    have hfilter : (m.keepImports fun i => !i.isBuiltin).importsAt site.vertex =
        (m.importsAt site.vertex).filter fun i => !i.isBuiltin := List.filter_comm ..
    rw [Option.map_some]
    dsimp only
    rw [hfilter]
    exact mem_packageNames_iff

theorem mem_importedPackages_iff_builtin (project : Project) (package : String) :
    package ∈ importedPackages project.files ↔
      package ∈ importedPackages project.withoutBuiltins.files ∨
        package ∈ project.importedBuiltins := by
  have hbare : importedPackages project.withoutBuiltins.files = project.files.flatMap fun m =>
      (m.imports.filter fun i => !i.isBuiltin).filterMap Import.packageName? := List.flatMap_map ..
  unfold importedBuiltins
  rw [hbare, importedPackages]
  simp only [List.mem_flatMap, ← exists_or, ← and_or_left, ← mem_packageNames_iff]

theorem keepsPaths_not_isBuiltin (h : ∀ m ∈ files, m.Analyzed) :
    KeepsPaths (fun i => !i.isBuiltin) files := by
  intro m hm i hi hbuiltin
  have hmarked : Specifier.builtinMark <+: i.source.toList := by
    simpa [Import.isBuiltin] using hbuiltin
  have hpath : Specifier.isPath i.source.toList = false := by
    obtain ⟨rest, hrest⟩ := hmarked
    rw [← hrest]
    rfl
  have htarget := (h m hm).hasTree.resolve?_of_import hi
  rw [Specifier.resolve?, hpath] at htarget
  obtain ⟨name, -, hname⟩ := Option.map_eq_some_iff.1 htarget
  rw [Import.packageName?, ← hname]
  rfl

section Packages

variable (hlinked : project.Linked) (hanalyzed : ∀ m ∈ project.files, m.Analyzed)

include hlinked hanalyzed

theorem reach_withoutBuiltins :
    (project.withoutBuiltins.reach project.withoutBuiltins.entryFiles).files =
        (project.reach project.entryFiles).files ∧
      (project.withoutBuiltins.reach project.withoutBuiltins.entryFiles).sites =
        (project.reach project.entryFiles).sites :=
  reach_keepImports hlinked (keepsPaths_not_isBuiltin hanalyzed)

/-- **What a walk comes upon** is a builtin, or the walk comes upon it without the builtins too. -/
theorem mem_packages_iff_builtin :
    package ∈ (project.reach project.entryFiles).packages ↔
      package ∈ (project.withoutBuiltins.reach project.withoutBuiltins.entryFiles).packages ∨
        package ∈ project.reachedBuiltins := by
  unfold reachedBuiltins
  rw [mem_packages_iff, mem_packages_iff, (reach_withoutBuiltins hlinked hanalyzed).2,
    List.mem_flatMap]
  simp only [← exists_or, ← and_or_left, ← mem_packagesAt_iff_builtin]

end Packages

theorem filter_name_not_mem {dependencies : List Dependency} {names bare builtins : List String}
    (h : ∀ name, name ∈ names ↔ name ∈ bare ∨ name ∈ builtins) :
    dependencies.filter (·.name ∉ names) =
      (dependencies.filter (·.name ∉ bare)).filter (·.name ∉ builtins) := by
  rw [List.filter_filter]
  refine List.filter_congr fun d _ => ?_
  rw [← Bool.decide_and, decide_eq_decide, h, not_or, and_comm]

/-- **The dependencies that imports of builtins hide.** Taking the imports of builtins out of a
project changes neither the links nor the walk. A dependency that is reported without them, be it as
dead or as unused, is reported with them unless it has the name of a builtin that is imported: by a
reached statement if it is dead, by any file if it is unused. So the imports of builtins make no
difference exactly if none of them has the name of a dependency reported without them. -/
theorem dependencies_withoutBuiltins (config : Config) (manifest : Option Manifest)
    (files : List SourceModule) (failures : List Failure) (hanalyzed : ∀ m ∈ files, m.Analyzed) :
    let project := ofFiles config manifest files failures
    let bare := project.withoutBuiltins
    ((bare.reach bare.entryFiles).files = (project.reach project.entryFiles).files ∧
      (bare.reach bare.entryFiles).sites = (project.reach project.entryFiles).sites ∧
      bare.links.edges = project.links.edges ∧ bare.links.modules = project.links.modules ∧
      bare.links.unresolved = project.links.unresolved) ∧
    project.report.deadDependencies =
      bare.report.deadDependencies.filter (·.name ∉ project.reachedBuiltins) ∧
    project.links.unusedDependencies =
      bare.links.unusedDependencies.filter (·.name ∉ project.importedBuiltins) ∧
    (bare.report.deadDependencies = project.report.deadDependencies ↔
      ∀ d ∈ bare.report.deadDependencies, d.name ∉ project.reachedBuiltins) ∧
    (bare.links.unusedDependencies = project.links.unusedDependencies ↔
      ∀ d ∈ bare.links.unusedDependencies, d.name ∉ project.importedBuiltins) := by
  intro project bare
  have hlinked : project.Linked := linked_ofFiles config manifest files failures
  have hreach := reach_withoutBuiltins hlinked hanalyzed
  have hdead : project.report.deadDependencies =
      bare.report.deadDependencies.filter (·.name ∉ project.reachedBuiltins) :=
    filter_name_not_mem fun _ => mem_packages_iff_builtin hlinked hanalyzed
  have hunused : project.links.unusedDependencies =
      bare.links.unusedDependencies.filter (·.name ∉ project.importedBuiltins) :=
    filter_name_not_mem fun name => project.mem_importedPackages_iff_builtin name
  refine ⟨⟨hreach.1, hreach.2, links_keepImports (keepsPaths_not_isBuiltin hanalyzed)⟩, hdead,
    hunused, ?_, ?_⟩
  · rw [hdead, eq_comm, List.filter_eq_self]
    simp only [decide_eq_true_eq]
  · rw [hunused, eq_comm, List.filter_eq_self]
    simp only [decide_eq_true_eq]

/-- The tree of `import 'node:punycode';`. -/
def importOfBuiltin : Node :=
  .of (.other "program") 0 23
    [.of .importStatement 0 23
       [.keyword .importToken 0 6, .part .source (.quoted "'" 7 22), .token ";" 22 23]]

/-- The file of a project that imports the builtin `punycode`. -/
def builtinImporter : List SourceModule :=
  (ofSources {} none [{ path := ⟨"/app/index.js"⟩, text := some "import 'node:punycode';"
                        tree := some importOfBuiltin }]).files

/-- The project of that file, with one dependency. -/
def dependsOn (name : String) : Project :=
  ofFiles { root := ⟨"/app"⟩ } (some { production := some { entries := [(name, "^2.0.0")] } }) builtinImporter []

/-- A dependency of another name is reported with the import and without it. -/
theorem dependencies_withoutBuiltins_otherName :
    let project := dependsOn "left-pad"
    (∀ m ∈ builtinImporter, m.Analyzed) ∧
    project.withoutBuiltins.report.deadDependencies = [⟨"left-pad", "^2.0.0", .production⟩] ∧
    project.withoutBuiltins.report.deadDependencies = project.report.deadDependencies ∧
    project.withoutBuiltins.links.unusedDependencies = project.links.unusedDependencies := by
  intro project
  have hanalyzed : ∀ m ∈ builtinImporter, m.Analyzed := fun m => analyzed_of_mem_files
  obtain ⟨-, -, -, hdead, hunused⟩ := dependencies_withoutBuiltins { root := ⟨"/app"⟩ }
    (some { production := some { entries := [("left-pad", "^2.0.0")] } }) builtinImporter [] hanalyzed
  exact ⟨hanalyzed, by decide +kernel, hdead.2 (by decide +kernel),
    hunused.2 (by decide +kernel)⟩

/-- The dependency with the name of the builtin is reported only without the import. -/
theorem dependency_hidden_by_builtin :
    let project := dependsOn "punycode"
    let punycode : Dependency := ⟨"punycode", "^2.0.0", .production⟩
    project.withoutBuiltins.report.deadDependencies = [punycode] ∧
    project.withoutBuiltins.links.unusedDependencies = [punycode] ∧
    project.report.deadDependencies = [] ∧ project.links.unusedDependencies = [] := by
  decide +kernel

end Project

end DeadCode
