import DeadCode.Proofs.Module.Basic
import DeadCode.Proofs.Project.Reach
import DeadCode.Proofs.Resolution.Ownership

/-! # What is reached, file by file

A walk goes from statement to statement. In files with well-nested trees every statement is reached
with its file, since each of them is owned, directly or not, by one at the top level. What a walk
reaches is then a matter of files only. -/

namespace DeadCode

/-! ## Files with well-nested trees -/

namespace SourceModule

/-- A file is the model of a well-nested tree. -/
def WellNested (m : SourceModule) : Prop :=
  ∃ path source language root ambient, root.WellNested ∧
    ofTree path source language root ambient = .ok m

variable {m : SourceModule}

/-- What holds at the top level of a file and is handed on by owners holds of all its statements. -/
theorem WellNested.owned_induction (h : m.WellNested) {good : VertexId → Prop}
    (htop : ∀ v ∈ m.graph.topLevel, good v)
    (hown : ∀ e ∈ m.graph.edges, e.relation.kind = .decl → good e.source → good e.target)
    {v : VertexId} (hv : v < m.graph.vertices.size) : good v := by
  obtain ⟨path, source, language, root, ambient, hroot, htree⟩ := h
  obtain ⟨scopes, hbuild, -⟩ := exists_build?_of_ofTree htree
  exact StatementGraph.owned_induction hbuild hroot htop hown hv

/-- A file with a well-nested tree has a tree. -/
theorem WellNested.hasTree (h : m.WellNested) : m.HasTree := by
  obtain ⟨path, source, language, root, ambient, -, htree⟩ := h
  exact ⟨path, source, language, root, ambient, htree⟩

end SourceModule

/-! ## The walk, file by file -/

namespace Project

/-- The files that are loaded once some files are: these files, and the target of every link from a
loaded file to another. -/
inductive Loads (project : Project) (entries : List FileId) : FileId → Prop where
  | entry {file : FileId} (h : file ∈ entries) : Loads project entries file
  | link {link : ModuleLink} (h : Loads project entries link.importer)
      (hlink : link ∈ project.links.modules) : Loads project entries link.target

variable {project : Project} {entries : List FileId} {file : FileId} {m : SourceModule}

/-- From loaded files only statements of loaded files are visited: whoever imports from a file has a
link to it. -/
theorem Loads.of_visits (hlinked : project.Linked) {site : Site}
    (h : project.Visits (project.Loads entries) site) : project.Loads entries site.file := by
  induction h with
  | top hfile => exact hfile
  | edge _ _ _ _ _ ih => exact ih
  | imported _ he hkind ih =>
    obtain ⟨link, hlink, himporter, -, htarget⟩ := hlinked.exists_module_of_edge he hkind
    rw [← himporter] at ih
    exact htarget ▸ .link ih hlink

/-- The files that are loaded are enough. -/
theorem needed_loads (hlinked : project.Linked) :
    project.Needed entries (project.Loads entries) where
  entry := fun _ h => .entry h
  loaded := fun _ hlink hvisits => .link (.of_visits hlinked hvisits) hlink

/-- Every statement of a reached file is reached. -/
theorem mem_sites_of_lt (hlinked : project.Linked) (hfile : file ∈ (project.reach entries).files)
    (hm : project.file? file = some m) (hnested : m.WellNested) {v : VertexId}
    (hv : v < m.graph.vertices.size) : ⟨file, v⟩ ∈ (project.reach entries).sites := by
  rw [mem_sites_iff hlinked]
  -- An edge of ownership is one of those that a walk follows.
  have htop (u : VertexId) (hu : u ∈ m.graph.topLevel) :
      project.Visits (· ∈ (project.reach entries).files) ⟨file, u⟩ :=
    .top hfile hm hu
  have hown (e : Edge) (he : e ∈ m.graph.edges) (hkind : e.relation.kind = .decl)
      (h : project.Visits (· ∈ (project.reach entries).files) ⟨file, e.source⟩) :
      project.Visits (· ∈ (project.reach entries).files) ⟨file, e.target⟩ :=
    h.edge hm he rfl (by simp [hkind])
  exact hnested.owned_induction htop hown hv

/-- The packages that reached statements import. -/
theorem mem_packages_iff {package : String} :
    package ∈ (project.reach entries).packages ↔
      ∃ site ∈ (project.reach entries).sites, package ∈ project.packagesAt site := by
  obtain ⟨walk, hreach, -, hclosed, -, -⟩ := reach_spec (needed_all project entries)
  rw [← hreach]
  exact hclosed.packages package

/-- Every link has an importer. -/
theorem exists_importer_of_link (hlinked : project.Linked)
    (hnested : ∀ m ∈ project.files, m.WellNested) {link : ModuleLink}
    (h : link ∈ project.links.modules) :
    ∃ m, project.file? link.importer = some m ∧ link.vertex < m.graph.vertices.size := by
  obtain ⟨m, i, hm, hi, hvertex⟩ := hlinked.of_mem_modules h
  exact ⟨m, hm, (hnested m (List.mem_of_getElem? hm)).hasTree.lt_size_of_import hi hvertex⟩

/-- **The files reached are those loaded.** -/
theorem mem_files_iff_loads (hlinked : project.Linked)
    (hnested : ∀ m ∈ project.files, m.WellNested) :
    file ∈ (project.reach entries).files ↔ project.Loads entries file := by
  constructor
  · exact (needed_loads hlinked).of_mem_files
  · intro h
    induction h with
    | entry h => exact (mem_files_iff hlinked).2 (.inl h)
    | @link link _ hlink ih =>
      -- The statement that carries the import exists, so it is reached with its file.
      obtain ⟨m, hm, hv⟩ := exists_importer_of_link hlinked hnested hlink
      have hm' : m.WellNested := hnested m (List.mem_of_getElem? hm)
      exact mem_files_of_module hlinked hlink (mem_sites_of_lt hlinked ih hm hm' hv)

/-- **What a walk reaches, file by file.** In a project of files with well-nested trees a walk
reaches the files that are loaded from its entries, each with all its statements, and the packages
that some statement of a reached file imports. -/
theorem reach_eq_loads (config : Config) (manifest : Option Manifest) (files : List SourceModule)
    (failures : List Failure) (entries : List FileId) (h : ∀ m ∈ files, m.WellNested) :
    let project := ofFiles config manifest files failures
    let reached := project.reach entries
    (∀ file, file ∈ reached.files ↔ project.Loads entries file) ∧
    (∀ file ∈ reached.files, ∀ m, project.file? file = some m →
      ∀ v, v < m.graph.vertices.size → ⟨file, v⟩ ∈ reached.sites) ∧
    ∀ package, package ∈ reached.packages ↔
      ∃ file ∈ reached.files, ∃ m, project.file? file = some m ∧
        ∃ i ∈ m.imports, i.vertex.isSome ∧ i.packageName? = some package := by
  intro project reached
  have hlinked : project.Linked := linked_ofFiles config manifest files failures
  have hnested (file : FileId) (m : SourceModule) (hm : project.file? file = some m) :
      m.WellNested := h m (List.mem_of_getElem? hm)
  have hall (file : FileId) (hfile : file ∈ reached.files) (m : SourceModule)
      (hm : project.file? file = some m) (v : VertexId) (hv : v < m.graph.vertices.size) :
      ⟨file, v⟩ ∈ reached.sites := mem_sites_of_lt hlinked hfile hm (hnested file m hm) hv
  refine ⟨fun file => mem_files_iff_loads hlinked h, hall, fun package => ?_⟩
  rw [mem_packages_iff]
  constructor
  · rintro ⟨site, hsite, hpackage⟩
    obtain ⟨m, hm, i, hi, hvertex, hname⟩ := mem_packagesAt.1 hpackage
    have hfile : site.file ∈ reached.files :=
      (needed_reach hlinked).file_of_visits hlinked ((mem_sites_iff hlinked).1 hsite)
    exact ⟨site.file, hfile, m, hm, i, hi, by simp [hvertex], hname⟩
  · rintro ⟨file, hfile, m, hm, i, hi, hvertex, hname⟩
    obtain ⟨v, hv⟩ := Option.isSome_iff_exists.1 hvertex
    have hlt : v < m.graph.vertices.size := (hnested file m hm).hasTree.lt_size_of_import hi hv
    exact ⟨⟨file, v⟩, hall file hfile m hm v hlt, mem_packagesAt.2 ⟨m, hm, i, hi, hv, hname⟩⟩

/-- The tree of `import './b';`. -/
def importOfFile : Node :=
  .of (.other "program") 0 13
    [.of .importStatement 0 13
       [.keyword .importToken 0 6, .part .source (.quoted "'" 7 12), .token ";" 12 13]]

/-- The tree of `function f() { require('p') }`. -/
def requireInFunction : Node :=
  let call : Node :=
    .of .callExpression 15 27
      [.part .function (.of .identifier 15 22),
       .part .arguments (.of (.other "arguments") 22 27
         [.token "(" 22 23, .quoted "'" 23 26, .token ")" 26 27])]
  let body : Node :=
    .part .body (.of .statementBlock 13 29
      [.token "\x7b" 13 14, .of .expressionStatement 15 27 [call], .token "\x7d" 28 29])
  .of (.other "program") 0 29
    [.of .functionDeclaration 0 29
       [.keyword .functionLiteral 0 8, .part .name (.of .identifier 9 10),
        .part .parameters (.of .formalParameters 10 12 [.token "(" 10 11, .token ")" 11 12]), body]]

/-- A file that imports another, in which a function that nothing calls imports a package. -/
def hiddenRequire : List SourceModule :=
  [SourceModule.ofTree ⟨"a.js"⟩ "import './b';" .javaScript importOfFile [],
    SourceModule.ofTree ⟨"b.js"⟩ "function f() \x7b require('p') \x7d" .javaScript requireInFunction
      []].filterMap Except.toOption

theorem wellNested_hiddenRequire : ∀ m ∈ hiddenRequire, m.WellNested := by
  intro m hm
  obtain ⟨outcome, houtcome, hm⟩ := List.mem_filterMap.1 hm
  have hok : outcome = .ok m := by
    cases outcome with
    | error error => cases hm
    | ok m' => exact congrArg Except.ok (Option.some.inj hm)
  rcases List.mem_pair.1 houtcome with rfl | rfl
  · exact ⟨_, _, _, _, _, by decide +kernel, hok⟩
  · exact ⟨_, _, _, _, _, by decide +kernel, hok⟩

/-- From the first file the walk reaches the second one and in it the statement that imports the
package, although nothing calls the function around it. -/
theorem reach_eq_loads_hiddenRequire :
    (∀ m ∈ hiddenRequire, m.WellNested) ∧
    (ofFiles {} none hiddenRequire []).Loads [0] 1 ∧
    ⟨1, 1⟩ ∈ ((ofFiles {} none hiddenRequire []).reach [0]).sites ∧
    "p" ∈ ((ofFiles {} none hiddenRequire []).reach [0]).packages := by
  obtain ⟨hfiles, hsites, hpackages⟩ :=
    reach_eq_loads {} none hiddenRequire [] [0] wellNested_hiddenRequire
  have hreached : 1 ∈ ((ofFiles {} none hiddenRequire []).reach [0]).files := by decide +kernel
  have hfile : ((ofFiles {} none hiddenRequire []).file? 1).any fun m =>
      1 < m.graph.vertices.size ∧ ∃ i ∈ m.imports, i.vertex.isSome ∧ i.packageName? = some "p" := by
    decide +kernel
  obtain ⟨m, hm, hstatement⟩ := (Option.any_eq_true _ _).1 hfile
  obtain ⟨hlt, himport⟩ := of_decide_eq_true hstatement
  exact ⟨wellNested_hiddenRequire, (hfiles 1).1 hreached, hsites 1 hreached m hm 1 hlt,
    (hpackages "p").2 ⟨1, hreached, m, hm, himport⟩⟩

end Project

end DeadCode
