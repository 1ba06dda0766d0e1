import DeadCode.Project.Findings
import DeadCode.Proofs.Project.Analyzed
import Mathlib.Data.List.Basic

/-! # Dependencies that nothing imports

Two lists of dependencies say that nothing imports them. The links of a project leave out what any
file imports, and the report leaves out what the walk comes upon. A walk visits every statement of a
file it reaches, and imports are collected from every node of a tree. So the report lists the
checked dependencies that no node of a reached file imports, wherever the node stands. -/

namespace DeadCode

/-! ## Nodes that import packages -/

namespace Node

variable {source : String} {package : String} {n : Node}

/-- A node is an export of names of another module and lists none. -/
def TakesNothing (source : String) (n : Node) : Prop :=
  n.kind = .exportStatement ∧ n.reexportImports source = []

/-- A node imports a package: it has a specifier that leads to the package, and it takes
something. -/
def ImportsPackage (source package : String) (n : Node) : Prop :=
  ∃ specifier, n.importSource? source = some specifier ∧
    Specifier.packageName? specifier = some package ∧ ¬ n.TakesNothing source

theorem statementImports_ne_nil (source : String) (n : Node) : n.statementImports source ≠ [] := by
  unfold statementImports
  dsimp only
  split
  · simp
  · next h => exact h

theorem declaratorImports_ne_nil (source : String) (n : Node) :
    n.declaratorImports source ≠ [] := by
  unfold declaratorImports
  split
  · simp
  · split
    · simp
    · split
      · simp
      · next h => simpa using h

theorem requireImports_ne_nil (source : String) (around : List Node) :
    requireImports source around ≠ [] := by
  unfold requireImports
  split
  · simp
  · split
    · exact declaratorImports_ne_nil source _
    · simp
    · simp
    · split <;> simp
    · simp

theorem Amid.exists_of_mem_nodes {root k : Node} {around : List Node} (h : root.Amid around k)
    (hn : n ∈ k.nodes) : ∃ around, root.Amid around n := by
  induction k using childInduction generalizing around with
  | step k ih =>
    rcases mem_nodes_iff.1 hn with rfl | hn
    · exact ⟨around, h⟩
    · obtain ⟨c, hc, hn⟩ := mem_descendants_iff.1 hn
      exact ih c hc (.child h hc) hn

theorem mem_nodes_iff_amid {root : Node} : n ∈ root.nodes ↔ ∃ around, root.Amid around n := by
  refine ⟨Amid.root.exists_of_mem_nodes, ?_⟩
  rintro ⟨around, h⟩
  induction h with
  | root => exact mem_nodes_iff.2 (.inl rfl)
  | child _ hc ih => exact mem_nodes_trans (child_mem_nodes hc) ih

end Node

/-! ## Imports of packages -/

theorem Specifier.resolve?_eq_package_iff {directory : Path} {specifier name : String} :
    (∃ builtin, resolve? directory specifier = some (.package name builtin)) ↔
      packageName? specifier = some name := by
  unfold resolve?
  split
  · next hpath => simp [packageName?, hpath]
  · simp [Option.map_eq_some_iff]

namespace Import

variable {n : Node} {package : String}

theorem packageName?_eq_some_iff {i : Import} :
    i.packageName? = some package ↔ ∃ builtin, i.target = .package package builtin := by
  unfold packageName?
  cases i.target <;> simp

theorem exists_mem_ofNames_iff {context : Context} {specifier : String} {kind : ImportKind}
    {names : List (Option String × ImportedName)} :
    (∃ i ∈ ofNames context n specifier kind names, i.packageName? = some package) ↔
      Specifier.packageName? specifier = some package ∧ names ≠ [] := by
  simp only [packageName?_eq_some_iff]
  rw [← @Specifier.resolve?_eq_package_iff context.directory]
  unfold ofNames
  cases Specifier.resolve? context.directory specifier with
  | none => simp
  | some target => cases names <;> simp

/-- **A node makes an import of a package if it imports the package.** -/
theorem exists_mem_atNode_iff (context : Context) (around : List Node) :
    (∃ i ∈ atNode context around n, i.packageName? = some package) ↔
      n.ImportsPackage context.source package := by
  unfold atNode Node.ImportsPackage Node.importSource? Node.TakesNothing
  dsimp only
  split
  · next hk =>
    cases (n.child? .source).bind (·.stringValue? context.source) with
    | none => simp [hk]
    | some specifier => simp [exists_mem_ofNames_iff, Node.statementImports_ne_nil, hk]
  · next hk =>
    cases (n.child? .source).bind (·.stringValue? context.source) with
    | none => simp [hk]
    | some specifier => simp [exists_mem_ofNames_iff, hk]
  · next hk =>
    cases n.requireSource? context.source with
    | some specifier => simp [exists_mem_ofNames_iff, Node.requireImports_ne_nil, hk]
    | none =>
      cases n.dynamicSource? context.source with
      | some specifier => simp [exists_mem_ofNames_iff, hk]
      | none => simp [hk]
  · simp

end Import

namespace SourceModule

variable {m : SourceModule} {package : String}

/-- Some statement of a file imports a package. -/
def Imports (m : SourceModule) (package : String) : Prop :=
  ∃ i ∈ m.imports, i.vertex.isSome ∧ i.packageName? = some package

instance : Decidable (m.Imports package) :=
  inferInstanceAs (Decidable (∃ i ∈ m.imports, i.vertex.isSome ∧ i.packageName? = some package))

/-- **A file imports the packages that its nodes import**, in whatever place a node stands, as long
as there is a statement around it. -/
theorem imports_iff {path : Path} {source : String} {language : Language} {root : Node}
    {ambient : List String} (h : ofTree path source language root ambient = .ok m) :
    m.Imports package ↔ ∃ n ∈ root.nodes, (m.graph.findVertex? n.span).isSome ∧
      n.ImportsPackage source package := by
  obtain ⟨-, -, himports, -⟩ := of_ofTree h
  rw [Imports, himports]
  constructor
  · rintro ⟨i, hi, hvertex, hpackage⟩
    obtain ⟨around, n, hamid, hi⟩ := Import.mem_ofFile_iff.1 hi
    rw [Import.vertex_of_mem_atNode hi] at hvertex
    have hnode := (Import.exists_mem_atNode_iff _ around).1 ⟨i, hi, hpackage⟩
    exact ⟨n, Node.mem_nodes_iff_amid.2 ⟨around, hamid⟩, hvertex, hnode⟩
  · rintro ⟨n, hn, hvertex, hpackage⟩
    obtain ⟨around, hamid⟩ := Node.mem_nodes_iff_amid.1 hn
    obtain ⟨i, hi, hname⟩ := (Import.exists_mem_atNode_iff
      ⟨source, path.parent?.getD ⟨"/"⟩, m.graph⟩ around).2 hpackage
    refine ⟨i, Import.mem_ofFile_iff.2 ⟨around, n, hamid, hi⟩, ?_, hname⟩
    rwa [Import.vertex_of_mem_atNode hi]

end SourceModule

/-! ## Dependencies -/

namespace Project

variable {project : Project} {entries : List FileId} {package : String}

/-- The models of the files that a project reaches from its entries. -/
def reachedModules (project : Project) : List SourceModule :=
  (project.reach project.entryFiles).files.filterMap project.file?

theorem mem_reachedModules {m : SourceModule} : m ∈ project.reachedModules ↔
    ∃ file ∈ (project.reach project.entryFiles).files, project.file? file = some m :=
  List.mem_filterMap

theorem mem_files_of_mem_reachedModules {m : SourceModule} (h : m ∈ project.reachedModules) :
    m ∈ project.files := by
  obtain ⟨file, -, hm⟩ := mem_reachedModules.1 h
  exact List.mem_of_getElem? hm

theorem exists_imports_of_mem_packages (hlinked : project.Linked)
    (h : package ∈ (project.reach project.entryFiles).packages) :
    ∃ m ∈ project.reachedModules, m.Imports package := by
  obtain ⟨site, hsite, hpackage⟩ := mem_packages_iff.1 h
  obtain ⟨m, hm, i, hi, hvertex, hname⟩ := mem_packagesAt.1 hpackage
  have hfile := (needed_reach hlinked).file_of_visits hlinked ((mem_sites_iff hlinked).1 hsite)
  exact ⟨m, mem_reachedModules.2 ⟨site.file, hfile, hm⟩, i, hi, Option.isSome_of_eq_some hvertex,
    hname⟩

/-- **The packages reached** are those that reached files import: a file is reached with all its
statements. -/
theorem mem_packages_iff_imports (hlinked : project.Linked)
    (hnested : ∀ m ∈ project.files, m.WellNested) :
    package ∈ (project.reach project.entryFiles).packages ↔
      ∃ m ∈ project.reachedModules, m.Imports package := by
  refine ⟨exists_imports_of_mem_packages hlinked, ?_⟩
  rintro ⟨m, hm, i, hi, hvertex, hname⟩
  have hm' := hnested m (mem_files_of_mem_reachedModules hm)
  obtain ⟨file, hfile, hm⟩ := mem_reachedModules.1 hm
  obtain ⟨v, hv⟩ := Option.isSome_iff_exists.1 hvertex
  have hsite := mem_sites_of_lt hlinked hfile hm hm' (hm'.hasTree.lt_size_of_import hi hv)
  exact mem_packages_iff.2 ⟨⟨file, v⟩, hsite, mem_packagesAt.2 ⟨m, hm, i, hi, hv, hname⟩⟩

theorem mem_importedPackages_of_mem_packages (hlinked : project.Linked)
    (h : package ∈ (project.reach project.entryFiles).packages) :
    package ∈ importedPackages project.files := by
  obtain ⟨m, hm, i, hi, -, hname⟩ := exists_imports_of_mem_packages hlinked h
  exact List.mem_flatMap.2
    ⟨m, mem_files_of_mem_reachedModules hm, List.mem_filterMap.2 ⟨i, hi, hname⟩⟩

/-- **Which dependencies are reported.** What no file at all imports is reported in any project. If
the files are models of well-nested trees, the dependencies reported are those of the checked ones,
in their order, that no statement of a reached file imports. A statement imports what the nodes in
it import, however deep they stand, be it in a function that nothing calls. -/
theorem deadDependencies_exact (config : Config) (manifest : Option Manifest)
    (files : List SourceModule) (failures : List Failure) :
    let project := ofFiles config manifest files failures
    project.links.unusedDependencies.Sublist project.report.deadDependencies ∧
    ((∀ m ∈ files, m.WellNested) →
      project.report.deadDependencies = (checkedDependencies manifest config).filter fun d =>
        ¬ ∃ m ∈ project.reachedModules, m.Imports d.name) ∧
    ∀ m ∈ project.reachedModules, ∀ path source language root ambient,
      SourceModule.ofTree path source language root ambient = .ok m → ∀ package,
        m.Imports package ↔ ∃ n ∈ root.nodes, (m.graph.findVertex? n.span).isSome ∧
          n.ImportsPackage source package := by
  intro project
  have hlinked : project.Linked := linked_ofFiles config manifest files failures
  refine ⟨List.monotone_filter_right _ fun d hunused => ?_, fun hnested => ?_,
    fun m _ path source language root ambient htree package => SourceModule.imports_iff htree⟩
  · rw [decide_eq_true_eq] at hunused ⊢
    exact fun hreached => hunused (mem_importedPackages_of_mem_packages hlinked hreached)
  · refine List.filter_congr fun d _ => ?_
    rw [decide_eq_decide, mem_packages_iff_imports hlinked hnested]

/-- A project of the files of `hiddenRequire`, entered by the first one, that depends on two
packages. -/
def hiddenDependency : Project :=
  ofFiles { entries := [⟨"a.js"⟩] } (some { production := some { entries := [("p", "1"), ("q", "1")] } })
    hiddenRequire []

/-- The package that only a function imports, which nothing calls, is not reported. The other one
is. -/
theorem deadDependencies_exact_hiddenDependency :
    (∀ m ∈ hiddenRequire, m.WellNested) ∧
    hiddenDependency.report.deadDependencies = [⟨"q", "1", .production⟩] := by
  refine ⟨wellNested_hiddenRequire, ?_⟩
  obtain ⟨-, hdead, -⟩ := deadDependencies_exact { entries := [⟨"a.js"⟩] }
    (some { production := some { entries := [("p", "1"), ("q", "1")] } }) hiddenRequire []
  refine (hdead wellNested_hiddenRequire).trans ?_
  decide +kernel

end Project

end DeadCode
