import DeadCode.Project.Reach
import DeadCode.Proofs.Project.Accounting
import Mathlib.Data.List.Nodup
import Mathlib.Data.List.Perm.Subperm
import Mathlib.Data.List.TakeWhile

/-! # What a walk reaches

A walk visits statements from one stack, and on the way it loads files, which puts further
statements on the stack. This file says what is reached in the end, without regard to any order. -/

namespace DeadCode

namespace Project

/-- The statements that are visited once some files are loaded: the top level of these files, and
what visited statements refer to in their own file or import from another one. -/
inductive Visits (project : Project) (files : FileId → Prop) : Site → Prop where
  | top {file : FileId} {m : SourceModule} {v : VertexId} (hfile : files file)
      (hm : project.file? file = some m) (hv : v ∈ m.graph.topLevel) :
      Visits project files ⟨file, v⟩
  | edge {site : Site} {m : SourceModule} {e : Edge} (h : Visits project files site)
      (hm : project.file? site.file = some m) (he : e ∈ m.graph.edges)
      (hsource : e.source = site.vertex) (hkind : e.relation.kind ≠ .exports) :
      Visits project files ⟨site.file, e.target⟩
  | imported {e : CrossEdge} (h : Visits project files ⟨e.sourceFile, e.sourceVertex⟩)
      (he : e ∈ project.links.edges) (hkind : e.relation.kind = .imports) :
      Visits project files ⟨e.targetFile, e.targetVertex⟩

/-- A set of files that holds the entries and every file that a statement visited from it loads. -/
structure Needed (project : Project) (entries : List FileId) (files : FileId → Prop) : Prop where
  entry : ∀ file ∈ entries, files file
  loaded : ∀ link ∈ project.links.modules,
    project.Visits files ⟨link.importer, link.vertex⟩ → files link.target

/-- All files are enough. -/
theorem needed_all (project : Project) (entries : List FileId) :
    project.Needed entries fun _ => True :=
  ⟨fun _ _ => trivial, fun _ _ _ => trivial⟩

/-! ## Single steps -/

section Steps

variable {project : Project} {site t : Site} {file : FileId}

/-- Loading a file visits its top-level statements. -/
theorem mem_loadSites : t ∈ project.loadSites file ↔
    ∃ m, project.file? file = some m ∧ t.file = file ∧ t.vertex ∈ m.graph.topLevel := by
  unfold loadSites
  split
  · next h => simp [h]
  · next m h =>
    rw [h, List.mem_map]
    constructor
    · rintro ⟨v, hv, rfl⟩
      exact ⟨m, rfl, rfl, hv⟩
    · rintro ⟨m', hm, rfl, hv⟩
      cases hm
      exact ⟨t.vertex, hv, rfl⟩

/-- The statements of the file that a statement leads to. -/
theorem mem_localTargets : t ∈ project.localTargets site ↔
    ∃ m, project.file? site.file = some m ∧ ∃ e ∈ m.graph.edges, e.source = site.vertex ∧
      e.relation.kind ≠ .exports ∧ t = ⟨site.file, e.target⟩ := by
  unfold localTargets
  split
  · next h => simp [h]
  · next m h =>
    rw [h]
    simp only [StatementGraph.outgoing, List.mem_map, List.mem_filter, List.mem_reverse,
      Array.mem_toList_iff, decide_eq_true_eq, Option.some.injEq]
    constructor
    · rintro ⟨e, ⟨⟨he, hsource⟩, hkind⟩, rfl⟩
      exact ⟨m, rfl, e, he, hsource, hkind, rfl⟩
    · rintro ⟨m', rfl, e, he, hsource, hkind, rfl⟩
      exact ⟨e, ⟨⟨he, hsource⟩, hkind⟩, rfl⟩

/-- The statements that an import leads to. -/
theorem mem_importTargets : t ∈ project.importTargets site ↔
    (project.file? site.file).isSome ∧ ∃ e ∈ project.links.edges,
      (⟨e.sourceFile, e.sourceVertex⟩ : Site) = site ∧ e.relation.kind = .imports ∧
        t = ⟨e.targetFile, e.targetVertex⟩ := by
  unfold importTargets
  split
  · next h => simp [h]
  · next m h =>
    obtain ⟨file, vertex⟩ := site
    simp only at h
    simp only [h, Option.isSome_some, true_and, Links.outgoing, List.mem_map, List.mem_filter,
      Bool.and_eq_true, decide_eq_true_eq, Site.mk.injEq]
    constructor
    · rintro ⟨e, ⟨⟨he, hsource⟩, hkind⟩, rfl⟩
      exact ⟨e, he, hsource, hkind, rfl⟩
    · rintro ⟨e, he, hsource, hkind, rfl⟩
      exact ⟨e, ⟨⟨he, hsource⟩, hkind⟩, rfl⟩

/-- The files that a statement loads. -/
theorem mem_loadedAt : file ∈ project.loadedAt site ↔
    (project.file? site.file).isSome ∧ ∃ link ∈ project.links.modules,
      (⟨link.importer, link.vertex⟩ : Site) = site ∧ link.target = file := by
  unfold loadedAt
  split
  · next h => simp [h]
  · next m h =>
    obtain ⟨importer, vertex⟩ := site
    simp only at h
    simp only [h, Option.isSome_some, true_and, Links.loaded, List.mem_map, List.mem_filter,
      Bool.and_eq_true, decide_eq_true_eq, Site.mk.injEq]
    constructor
    · rintro ⟨link, ⟨hlink, hsource⟩, rfl⟩
      exact ⟨link, hlink, hsource, rfl⟩
    · rintro ⟨link, hlink, hsource, rfl⟩
      exact ⟨link, ⟨hlink, hsource⟩, rfl⟩

/-- The packages that a statement imports. -/
theorem mem_packagesAt {package : String} : package ∈ project.packagesAt site ↔
    ∃ m, project.file? site.file = some m ∧ ∃ i ∈ m.imports, i.vertex = some site.vertex ∧
      i.packageName? = some package := by
  unfold packagesAt
  split
  · next h => simp [h]
  · next m h =>
    rw [h]
    simp only [SourceModule.importsAt, List.mem_filterMap, List.mem_filter, decide_eq_true_eq,
      Option.some.injEq]
    constructor
    · rintro ⟨i, ⟨hi, hvertex⟩, hname⟩
      exact ⟨m, rfl, i, hi, hvertex, hname⟩
    · rintro ⟨m', rfl, i, hi, hvertex, hname⟩
      exact ⟨i, ⟨hi, hvertex⟩, hname⟩

end Steps

/-! ## The state of a walk -/

namespace Walk

variable {project : Project} {needed : FileId → Prop} {walk walk' : Walk}

/-- A statement has been visited or is still to be. -/
def Has (walk : Walk) (site : Site) : Prop :=
  site ∈ walk.reach.sites ∨ site ∈ walk.pending

/-- A walk goes on to another one: it forgets nothing. -/
structure Le (walk walk' : Walk) : Prop where
  files : ∀ file ∈ walk.reach.files, file ∈ walk'.reach.files
  sites : ∀ site, walk.Has site → walk'.Has site

theorem Le.refl (walk : Walk) : walk.Le walk :=
  ⟨fun _ h => h, fun _ h => h⟩

theorem Le.trans {walk'' : Walk} (h : walk.Le walk') (h' : walk'.Le walk'') : walk.Le walk'' :=
  ⟨fun file hf => h'.files file (h.files file hf), fun site hs => h'.sites site (h.sites site hs)⟩

/-! ### Pushing statements -/

@[simp] theorem reach_push (walk : Walk) (sites : List Site) :
    (walk.push sites).reach = walk.reach :=
  rfl

/-- What is pending after pushing. -/
theorem has_push {sites : List Site} {site : Site} :
    (walk.push sites).Has site ↔ walk.Has site ∨ site ∈ sites := by
  simp only [Has, push, List.mem_append, List.mem_reverse]
  tauto

theorem le_push (walk : Walk) (sites : List Site) : walk.Le (walk.push sites) :=
  ⟨fun _ h => h, fun _ h => has_push.2 (.inl h)⟩

/-! ### Loading files -/

@[simp] theorem sites_load (project : Project) (walk : Walk) (file : FileId) :
    (walk.load project file).reach.sites = walk.reach.sites := by
  unfold load
  split <;> rfl

@[simp] theorem packages_load (project : Project) (walk : Walk) (file : FileId) :
    (walk.load project file).reach.packages = walk.reach.packages := by
  unfold load
  split <;> rfl

/-- Loading a file reaches it and no other. -/
theorem mem_files_load {file f : FileId} :
    f ∈ (walk.load project file).reach.files ↔ f ∈ walk.reach.files ∨ f = file := by
  unfold load
  split
  · next h =>
    constructor
    · exact .inl
    · rintro (hf | rfl)
      · exact hf
      · exact h
  · simp

theorem le_load (project : Project) (walk : Walk) (file : FileId) :
    walk.Le (walk.load project file) := by
  refine ⟨fun f hf => mem_files_load.2 (.inl hf), fun site hs => ?_⟩
  unfold load
  split
  · exact hs
  · exact has_push.2 (.inl hs)

/-- What holds of the files of a walk and of its stack. -/
structure Kept (project : Project) (needed : FileId → Prop) (walk : Walk) : Prop where
  /-- A file is loaded once. -/
  nodup : walk.reach.files.Nodup
  /-- Only needed files are loaded. -/
  within : ∀ file ∈ walk.reach.files, needed file
  /-- Only statements of needed files are visited. -/
  visits : ∀ site, walk.Has site → project.Visits needed site
  /-- The top level of a loaded file is visited. -/
  top : ∀ file ∈ walk.reach.files, ∀ site ∈ project.loadSites file, walk.Has site

/-- Pushing keeps a walk within what is needed. -/
theorem Kept.push (h : walk.Kept project needed) {sites : List Site}
    (hsites : ∀ site ∈ sites, project.Visits needed site) :
    (walk.push sites).Kept project needed where
  nodup := h.nodup
  within := h.within
  visits := fun site hsite => (has_push.1 hsite).elim (h.visits site) (hsites site)
  top := fun file hfile site hsite => has_push.2 (.inl (h.top file hfile site hsite))

/-- Loading a needed file keeps a walk within what is needed. -/
theorem Kept.load (h : walk.Kept project needed) {file : FileId} (hfile : needed file) :
    (walk.load project file).Kept project needed := by
  by_cases hmem : file ∈ walk.reach.files
  · have heq : walk.load project file = walk := by rw [Walk.load, if_pos hmem]
    rw [heq]
    exact h
  · -- The file is new: its top level is put on the stack.
    have heq : walk.load project file =
        { walk with reach.files := walk.reach.files ++ [file] }.push (project.loadSites file) := by
      rw [Walk.load, if_neg hmem]
    have htop (site : Site) (hsite : site ∈ project.loadSites file) :
        project.Visits needed site := by
      obtain ⟨m, hm, rfl, hv⟩ := mem_loadSites.1 hsite
      exact .top hfile hm hv
    rw [heq]
    refine ⟨?_, ?_, ?_, ?_⟩
    · rw [reach_push, ← List.concat_eq_append]
      exact List.Nodup.concat hmem h.nodup
    · intro f hf
      rcases List.mem_append.1 hf with hf | hf
      · exact h.within f hf
      · rw [List.mem_singleton.1 hf]
        exact hfile
    · intro site hsite
      rcases has_push.1 hsite with hsite | hsite
      · exact h.visits site hsite
      · exact htop site hsite
    · intro f hf site hsite
      rcases List.mem_append.1 hf with hf | hf
      · exact has_push.2 (.inl (h.top f hf site hsite))
      · rw [List.mem_singleton.1 hf] at hsite
        exact has_push.2 (.inr hsite)

section LoadAll

variable {files : List FileId}

theorem sites_loadAll (project : Project) (walk : Walk) (files : List FileId) :
    (files.foldl (load project) walk).reach.sites = walk.reach.sites := by
  induction files generalizing walk with
  | nil => rfl
  | cons file rest ih => rw [List.foldl_cons, ih, sites_load]

theorem packages_loadAll (project : Project) (walk : Walk) (files : List FileId) :
    (files.foldl (load project) walk).reach.packages = walk.reach.packages := by
  induction files generalizing walk with
  | nil => rfl
  | cons file rest ih => rw [List.foldl_cons, ih, packages_load]

theorem mem_files_loadAll {f : FileId} :
    f ∈ (files.foldl (load project) walk).reach.files ↔ f ∈ walk.reach.files ∨ f ∈ files := by
  induction files generalizing walk with
  | nil => simp
  | cons file rest ih => rw [List.foldl_cons, ih, mem_files_load, List.mem_cons, or_assoc]

/-- Loading files takes nothing away. -/
theorem le_loadAll (project : Project) (walk : Walk) (files : List FileId) :
    walk.Le (files.foldl (load project) walk) := by
  induction files generalizing walk with
  | nil => exact .refl walk
  | cons file rest ih => exact (le_load project walk file).trans (ih _)

/-- Loading needed files keeps a walk within what is needed. -/
theorem Kept.loadAll (h : walk.Kept project needed) (hfiles : ∀ file ∈ files, needed file) :
    (files.foldl (Walk.load project) walk).Kept project needed := by
  induction files generalizing walk with
  | nil => exact h
  | cons file rest ih =>
    refine ih (h.load (hfiles file List.mem_cons_self)) fun f hf => ?_
    exact hfiles f (List.mem_cons_of_mem _ hf)

end LoadAll

/-! ### Visiting a statement -/

/-- All that follows from the statements visited so far is visited or on the stack. -/
structure Closed (project : Project) (walk : Walk) : Prop where
  /-- A statement is visited once. -/
  nodup : walk.reach.sites.Nodup
  /-- What a visited statement refers to. -/
  targets : ∀ site ∈ walk.reach.sites,
    ∀ t ∈ project.localTargets site ++ project.importTargets site, walk.Has t
  /-- What a visited statement loads. -/
  loaded : ∀ site ∈ walk.reach.sites, ∀ file ∈ project.loadedAt site, file ∈ walk.reach.files
  /-- The packages are those of the visited statements. -/
  packages : ∀ package, package ∈ walk.reach.packages ↔
    ∃ site ∈ walk.reach.sites, package ∈ project.packagesAt site

/-- The next statement to visit is a new one, and only visited statements were put aside. -/
theorem of_dropWhile {site : Site} {pending : List Site}
    (h : walk.pending.dropWhile (· ∈ walk.reach.sites) = site :: pending) :
    site ∉ walk.reach.sites ∧ site ∈ walk.pending ∧ (∀ t ∈ pending, t ∈ walk.pending) ∧
      ∀ t ∈ walk.pending, t ∈ walk.reach.sites ∨ t = site ∨ t ∈ pending := by
  have hsplit := List.takeWhile_append_dropWhile (p := (· ∈ walk.reach.sites)) (l := walk.pending)
  rw [h] at hsplit
  have hmem (t : Site) (ht : t ∈ site :: pending) : t ∈ walk.pending := by
    rw [← hsplit]
    exact List.mem_append_right _ ht
  refine ⟨?_, hmem site List.mem_cons_self, fun t ht => hmem t (List.mem_cons_of_mem _ ht), ?_⟩
  · have hhead := List.head?_dropWhile_not (· ∈ walk.reach.sites) walk.pending
    rw [h] at hhead
    simpa using hhead
  · intro t ht
    rw [← hsplit] at ht
    rcases List.mem_append.1 ht with ht | ht
    · exact .inl (by simpa using List.mem_takeWhile_imp ht)
    · exact .inr (List.mem_cons.1 ht)

section Visit

variable {site : Site} {pending : List Site}

theorem sites_visit (project : Project) (walk : Walk) (site : Site) :
    (walk.visit project site).reach.sites = site :: walk.reach.sites := by
  rw [visit, reach_push, sites_loadAll, reach_push]

theorem packages_visit (project : Project) (walk : Walk) (site : Site) :
    (walk.visit project site).reach.packages =
      (project.packagesAt site).reverse ++ walk.reach.packages := by
  rw [visit, reach_push, packages_loadAll, reach_push]

/-- Taking a site from those that are pending takes nothing away. -/
theorem le_take (packages : List String)
    (h : walk.pending.dropWhile (· ∈ walk.reach.sites) = site :: pending) :
    walk.Le { reach := { walk.reach with sites := site :: walk.reach.sites, packages }, pending } := by
  obtain ⟨-, -, -, hall⟩ := of_dropWhile h
  refine ⟨fun _ hf => hf, fun t ht => ?_⟩
  rcases ht with ht | ht
  · exact .inl (List.mem_cons_of_mem _ ht)
  · rcases hall t ht with ht | rfl | ht
    · exact .inl (List.mem_cons_of_mem _ ht)
    · exact .inl List.mem_cons_self
    · exact .inr ht

/-- Visiting a site takes nothing away. -/
theorem le_visit (h : walk.pending.dropWhile (· ∈ walk.reach.sites) = site :: pending) :
    walk.Le (Walk.visit project { walk with pending } site) := by
  unfold visit
  exact (le_take _ h).trans (((le_push _ _).trans (le_loadAll project _ _)).trans (le_push _ _))

/-- **Visiting a statement keeps what holds of files and stack.** -/
theorem Kept.visit (h : walk.Kept project needed)
    (hnext : walk.pending.dropWhile (· ∈ walk.reach.sites) = site :: pending)
    (hneeded : ∀ link ∈ project.links.modules,
      project.Visits needed ⟨link.importer, link.vertex⟩ → needed link.target) :
    (Walk.visit project { walk with pending } site).Kept project needed := by
  obtain ⟨-, hsite, hpending, -⟩ := of_dropWhile hnext
  have hvisits : project.Visits needed site := h.visits site (.inr hsite)
  unfold Walk.visit
  refine Kept.push (Kept.loadAll (Kept.push ?_ fun t ht => ?_) fun file hfile => ?_) fun t ht => ?_
  · -- The statement goes from the stack to the visited ones.
    refine ⟨h.nodup, h.within, fun t ht => ?_, fun file hfile t ht => ?_⟩
    · rcases ht with ht | ht
      · rcases List.mem_cons.1 ht with rfl | ht
        · exact hvisits
        · exact h.visits t (.inl ht)
      · exact h.visits t (.inr (hpending t ht))
    · exact (le_take _ hnext).sites t (h.top file hfile t ht)
  · obtain ⟨m, hm, e, he, hsource, hkind, rfl⟩ := mem_localTargets.1 ht
    exact .edge hvisits hm he hsource hkind
  · obtain ⟨-, link, hlink, rfl, rfl⟩ := mem_loadedAt.1 hfile
    exact hneeded link hlink hvisits
  · obtain ⟨-, e, he, rfl, hkind, rfl⟩ := mem_importTargets.1 ht
    exact .imported hvisits he hkind

/-- **Visiting a statement keeps a walk closed.** -/
theorem Closed.visit (h : walk.Closed project)
    (hnext : walk.pending.dropWhile (· ∈ walk.reach.sites) = site :: pending) :
    (Walk.visit project { walk with pending } site).Closed project := by
  obtain ⟨hnew, -, -, -⟩ := of_dropWhile hnext
  have hle : walk.Le (Walk.visit project { walk with pending } site) := le_visit hnext
  refine ⟨?_, ?_, ?_, ?_⟩
  · rw [sites_visit]
    exact List.nodup_cons.2 ⟨hnew, h.nodup⟩
  · rw [sites_visit]
    intro x hx t ht
    rcases List.mem_cons.1 hx with rfl | hx
    · unfold Walk.visit
      rcases List.mem_append.1 ht with ht | ht
      · exact (le_push _ _).sites t ((le_loadAll project _ _).sites t (has_push.2 (.inr ht)))
      · exact has_push.2 (.inr ht)
    · exact hle.sites t (h.targets x hx t ht)
  · rw [sites_visit]
    intro x hx file hfile
    rcases List.mem_cons.1 hx with rfl | hx
    · unfold Walk.visit
      rw [reach_push]
      exact mem_files_loadAll.2 (.inr hfile)
    · exact hle.files file (h.loaded x hx file hfile)
  · intro package
    rw [sites_visit, packages_visit, List.mem_append, List.mem_reverse, h.packages]
    simp

end Visit

/-! ## The loop -/

/-- The walk that visits statements until none is left to visit, and what it has reached then. A
derivation is a run, so a walk that goes on for ever has none. -/
inductive Ends (project : Project) : Walk → Reach → Prop where
  | done {walk : Walk} (h : walk.pending.dropWhile (· ∈ walk.reach.sites) = []) :
      Ends project walk walk.reach
  | next {walk : Walk} {site : Site} {pending : List Site} {reach : Reach}
      (h : walk.pending.dropWhile (· ∈ walk.reach.sites) = site :: pending)
      (hrest : Ends project (Walk.visit project { walk with pending } site) reach) :
      Ends project walk reach

/-- What every visit keeps holds at the end, and then the stack holds only visited statements. -/
theorem Ends.invariant {inv : Walk → Prop} {reach : Reach} (h : Ends project walk reach)
    (hstep : ∀ walk site pending, inv walk →
      walk.pending.dropWhile (· ∈ walk.reach.sites) = site :: pending →
      inv (Walk.visit project { walk with pending } site)) (hinv : inv walk) :
    ∃ last, inv last ∧ last.reach = reach ∧ ∀ site ∈ last.pending, site ∈ reach.sites := by
  induction h with
  | @done walk h =>
    refine ⟨walk, hinv, rfl, fun site hsite => ?_⟩
    simpa using List.dropWhile_eq_nil_iff.1 h site hsite
  | next h _ ih => exact ih (hstep _ _ _ hinv h)

end Walk

/-! ### How many statements there are -/

/-- All statements that a walk can come upon: those of the files, and the targets of edges. -/
def allSites (project : Project) : List Site :=
  (project.files.zipIdx.flatMap fun (m, file) =>
    (List.range m.graph.vertices.size).map (Site.mk file) ++
      m.graph.edges.toList.map fun e => Site.mk file e.target) ++
    project.links.edges.map fun e => Site.mk e.targetFile e.targetVertex

/-- There are as many sites as the bound of a walk says. -/
theorem length_allSites (project : Project) : project.allSites.length = project.siteBound := by
  have hfiles (files : List SourceModule) (start bound : Nat) :
      ((files.zipIdx start).flatMap fun (m, file) =>
        (List.range m.graph.vertices.size).map (Site.mk file) ++
          m.graph.edges.toList.map fun e => Site.mk file e.target).length + bound =
        files.foldr (fun m bound => m.graph.vertices.size + m.graph.edges.size + bound) bound := by
    induction files generalizing start with
    | nil => simp
    | cons m rest ih =>
      rw [List.zipIdx_cons, List.flatMap_cons, List.foldr_cons, ← ih (start + 1)]
      simp only [List.length_append, List.length_map, List.length_range, Array.length_toList]
      omega
  rw [allSites, List.length_append, List.length_map]
  exact hfiles project.files 0 _

/-- Every site that can be visited is one of the project. -/
theorem mem_allSites_of_visits {project : Project} {files : FileId → Prop} {site : Site}
    (h : project.Visits files site) : site ∈ project.allSites := by
  have hfile {file : FileId} {m : SourceModule} {t : Site} (hm : project.file? file = some m)
      (ht : t ∈ (List.range m.graph.vertices.size).map (Site.mk file) ++
        m.graph.edges.toList.map fun e => Site.mk file e.target) : t ∈ project.allSites :=
    List.mem_append_left _ (List.mem_flatMap.2 ⟨(m, file), List.mem_zipIdx_iff_getElem?.2 hm, ht⟩)
  cases h with
  | @top file m v _ hm hv =>
    refine hfile hm (List.mem_append_left _ (List.mem_map_of_mem ?_))
    exact List.mem_of_mem_filter hv
  | @edge site m e _ hm he =>
    refine hfile hm (List.mem_append_right _ (List.mem_map.2 ⟨e, ?_, rfl⟩))
    exact Array.mem_toList_iff.2 he
  | @imported e _ he =>
    exact List.mem_append_right _ (List.mem_map.2 ⟨e, he, rfl⟩)

namespace Walk

/-- **The walk ends**, and `run` runs it to its end if it may visit as many statements as there
are. -/
theorem ends_run {project : Project} {walk : Walk} {limit : Nat}
    (hkept : walk.Kept project fun _ => True) (hclosed : walk.Closed project)
    (hlimit : project.siteBound < limit + walk.reach.sites.length) :
    Ends project walk (walk.run project limit) := by
  induction limit generalizing walk with
  | zero =>
    -- More statements would be visited than there are.
    have hsub : walk.reach.sites.Subperm project.allSites :=
      List.subperm_of_subset hclosed.nodup fun site hsite =>
        mem_allSites_of_visits (hkept.visits site (.inl hsite))
    have hle := hsub.length_le
    rw [length_allSites] at hle
    omega
  | succ limit ih =>
    rw [run]
    split
    · next h => exact .done h
    · next site pending h =>
      refine .next h (ih (hkept.visit h fun _ _ _ => trivial) (hclosed.visit h) ?_)
      rw [sites_visit, List.length_cons]
      exact Nat.lt_of_lt_of_eq hlimit (by rw [Nat.add_right_comm]; rfl)

end Walk

/-! ## What is reached -/

section Reach

variable {project : Project} {entries : List FileId} {files : FileId → Prop} {site : Site}

/-- The walk before the first visit: the entries are loaded. -/
def startWalk (project : Project) (entries : List FileId) : Walk :=
  entries.foldl (Walk.load project) {}

/-- A walk starts within what is needed. -/
theorem kept_startWalk {needed : FileId → Prop} (h : ∀ file ∈ entries, needed file) :
    (project.startWalk entries).Kept project needed := by
  refine Walk.Kept.loadAll ⟨List.nodup_nil, ?_, ?_, ?_⟩ h
  · simp
  · simp [Walk.Has]
  · simp

/-- A walk starts closed. -/
theorem closed_startWalk (project : Project) (entries : List FileId) :
    (project.startWalk entries).Closed project := by
  have hsites : (project.startWalk entries).reach.sites = [] := Walk.sites_loadAll project {} entries
  refine ⟨?_, ?_, ?_, ?_⟩
  · rw [hsites]
    exact List.nodup_nil
  · simp [hsites]
  · simp [hsites]
  · rw [startWalk, Walk.packages_loadAll, ← startWalk, hsites]
    simp

/-- What is reached is what the walk ends with. -/
theorem ends_reach (project : Project) (entries : List FileId) :
    Walk.Ends project (project.startWalk entries) (project.reach entries) := by
  refine Walk.ends_run (kept_startWalk fun _ _ => trivial) (closed_startWalk project entries) ?_
  omega

/-- What holds of the files and statements reached, for every set of files that is needed. -/
theorem reach_spec {needed : FileId → Prop} (h : project.Needed entries needed) :
    ∃ walk : Walk, walk.reach = project.reach entries ∧ walk.Kept project needed ∧
      walk.Closed project ∧ (∀ file ∈ entries, file ∈ walk.reach.files) ∧
      ∀ site, walk.Has site → site ∈ walk.reach.sites := by
  have hstep (walk : Walk) (site : Site) (pending : List Site)
      (hinv : walk.Kept project needed ∧ walk.Closed project ∧
        ∀ file ∈ entries, file ∈ walk.reach.files)
      (hnext : walk.pending.dropWhile (· ∈ walk.reach.sites) = site :: pending) :
      (Walk.visit project { walk with pending } site).Kept project needed ∧
        (Walk.visit project { walk with pending } site).Closed project ∧
        ∀ file ∈ entries, file ∈ (Walk.visit project { walk with pending } site).reach.files :=
    ⟨hinv.1.visit hnext h.loaded, hinv.2.1.visit hnext,
      fun file hfile => (Walk.le_visit hnext).files file (hinv.2.2 file hfile)⟩
  have hentries (file : FileId) (hfile : file ∈ entries) :
      file ∈ (project.startWalk entries).reach.files :=
    Walk.mem_files_loadAll.2 (.inr hfile)
  obtain ⟨last, ⟨hkept, hclosed, hfiles⟩, hreach, hpending⟩ := (ends_reach project entries).invariant
    hstep ⟨kept_startWalk h.entry, closed_startWalk project entries, hentries⟩
  refine ⟨last, hreach, hkept, hclosed, hfiles, fun site hsite => ?_⟩
  rcases hsite with hsite | hsite
  · exact hsite
  · rw [hreach]
    exact hpending site hsite

/-- The links of a project are those of its files. -/
def Linked (project : Project) : Prop :=
  ∃ dependencies, project.links = .ofFiles project.files dependencies

/-- A project of files is linked. -/
theorem linked_ofFiles (config : Config) (manifest : Option Manifest) (files : List SourceModule)
    (failures : List Failure) : (ofFiles config manifest files failures).Linked :=
  ⟨_, rfl⟩

/-- **Who loads a file**: a statement of an existing file that carries an import. -/
theorem Linked.of_mem_modules (hlinked : project.Linked) {link : ModuleLink}
    (h : link ∈ project.links.modules) : ∃ m i, project.file? link.importer = some m ∧
      i ∈ m.imports ∧ i.vertex = some link.vertex := by
  obtain ⟨dependencies, hlinks⟩ := hlinked
  rw [hlinks] at h
  obtain ⟨o, ho, -, -, hvertex, hfile⟩ := Links.mem_modules_iff.1 h
  obtain ⟨m, hm, hi, -⟩ := mem_occurrences_iff.1 ho
  rw [hfile] at hm
  exact ⟨m, o.item, hm, hi, hvertex⟩

/-- **An import edge goes with a module link**: the statement at its source loads the file of its
target. -/
theorem Linked.exists_module_of_edge (hlinked : project.Linked) {e : CrossEdge}
    (h : e ∈ project.links.edges) (hkind : e.relation.kind = .imports) :
    ∃ link ∈ project.links.modules, link.importer = e.sourceFile ∧ link.vertex = e.sourceVertex ∧
      link.target = e.targetFile := by
  obtain ⟨dependencies, hlinks⟩ := hlinked
  rw [hlinks] at h ⊢
  obtain ⟨o, ho, target, id, vertex, hleads, hvertex, found, -, he⟩ := Links.mem_edges_iff.1 h
  refine ⟨⟨o.file, vertex, id⟩, Links.mem_modules_iff.2 ⟨o, ho, target, hleads, hvertex, rfl⟩, ?_⟩
  -- Of the two edges of a pair only the first one is an import.
  simp only [Occurrence.edgePair, List.mem_cons, List.not_mem_nil, or_false] at he
  rcases he with rfl | rfl
  · exact ⟨rfl, rfl, rfl⟩
  · cases hkind

theorem Visits.mono {files' : FileId → Prop} (h : ∀ file, files file → files' file)
    (hv : project.Visits files site) : project.Visits files' site := by
  induction hv with
  | top hfile hm hv => exact .top (h _ hfile) hm hv
  | edge _ hm he hsource hkind ih => exact .edge ih hm he hsource hkind
  | imported _ he hkind ih => exact .imported ih he hkind

/-- The statements visited from needed files are statements of needed files: whoever imports from a
file loads it. -/
theorem Needed.file_of_visits (hlinked : project.Linked) (h : project.Needed entries files)
    (hv : project.Visits files site) : files site.file := by
  induction hv with
  | top hfile => exact hfile
  | edge _ _ _ _ _ ih => exact ih
  | @imported e hv he hkind _ =>
    obtain ⟨link, hlink, himporter, hvertex, htarget⟩ := hlinked.exists_module_of_edge he hkind
    rw [← himporter, ← hvertex] at hv
    exact htarget ▸ h.loaded link hlink hv

/-- What can be visited in the reached files is reached. -/
theorem mem_sites_of_visits (hlinked : project.Linked)
    (hv : project.Visits (· ∈ (project.reach entries).files) site) :
    site ∈ (project.reach entries).sites := by
  obtain ⟨walk, hreach, hkept, hclosed, -, hall⟩ := reach_spec (needed_all project entries)
  rw [← hreach] at hv ⊢
  induction hv with
  | top hfile hm hv => exact hall _ (hkept.top _ hfile _ (mem_loadSites.2 ⟨_, hm, rfl, hv⟩))
  | @edge site m e _ hm he hsource hkind ih =>
    refine hall _ (hclosed.targets site ih _ (List.mem_append_left _ ?_))
    exact mem_localTargets.2 ⟨m, hm, e, he, hsource, hkind, rfl⟩
  | @imported e _ he hkind ih =>
    obtain ⟨link, hlink, himporter, -⟩ := hlinked.exists_module_of_edge he hkind
    obtain ⟨m, -, hm, -⟩ := hlinked.of_mem_modules hlink
    refine hall _ (hclosed.targets _ ih _ (List.mem_append_right _ ?_))
    refine mem_importTargets.2 ⟨?_, e, he, rfl, hkind, rfl⟩
    rw [← himporter, hm]
    rfl

/-- What a reached statement loads is reached. -/
theorem mem_files_of_module (hlinked : project.Linked) {link : ModuleLink}
    (hlink : link ∈ project.links.modules)
    (hsite : ⟨link.importer, link.vertex⟩ ∈ (project.reach entries).sites) :
    link.target ∈ (project.reach entries).files := by
  obtain ⟨walk, hreach, -, hclosed, -, -⟩ := reach_spec (needed_all project entries)
  obtain ⟨m, -, hm, -⟩ := hlinked.of_mem_modules hlink
  rw [← hreach] at hsite ⊢
  refine hclosed.loaded _ hsite _ (mem_loadedAt.2 ⟨?_, link, hlink, rfl, rfl⟩)
  rw [hm]
  rfl

/-- The reached files are enough. -/
theorem needed_reach (hlinked : project.Linked) :
    project.Needed entries (· ∈ (project.reach entries).files) where
  entry := by
    obtain ⟨walk, hreach, -, -, hentries, -⟩ := reach_spec (needed_all project entries)
    rwa [hreach] at hentries
  loaded := fun _ hlink hv => mem_files_of_module hlinked hlink (mem_sites_of_visits hlinked hv)

/-- **The statements reached** are those visited from the files reached. -/
theorem mem_sites_iff (hlinked : project.Linked) :
    site ∈ (project.reach entries).sites ↔
      project.Visits (· ∈ (project.reach entries).files) site := by
  constructor
  · intro hsite
    obtain ⟨walk, hreach, hkept, -, -, -⟩ := reach_spec (needed_reach hlinked)
    rw [← hreach] at hsite
    exact hkept.visits site (.inl hsite)
  · exact mem_sites_of_visits hlinked

/-- **The files reached** are contained in every set of files that is needed. -/
theorem Needed.of_mem_files (h : project.Needed entries files) {file : FileId}
    (hfile : file ∈ (project.reach entries).files) : files file := by
  obtain ⟨walk, hreach, hkept, -, -, -⟩ := reach_spec h
  rw [← hreach] at hfile
  exact hkept.within file hfile

/-- **No file is reached twice.** -/
theorem nodup_files_reach (project : Project) (entries : List FileId) :
    (project.reach entries).files.Nodup := by
  obtain ⟨walk, hreach, hkept, -⟩ := reach_spec (needed_all project entries)
  rw [← hreach]
  exact hkept.nodup

/-- **The reached files** are the entries and what reached statements load. -/
theorem mem_files_iff (hlinked : project.Linked) {file : FileId} :
    file ∈ (project.reach entries).files ↔ file ∈ entries ∨ ∃ link ∈ project.links.modules,
      ⟨link.importer, link.vertex⟩ ∈ (project.reach entries).sites ∧ link.target = file := by
  have hback (f : FileId) (hf : f ∈ entries ∨ ∃ link ∈ project.links.modules,
      ⟨link.importer, link.vertex⟩ ∈ (project.reach entries).sites ∧ link.target = f) :
      f ∈ (project.reach entries).files := by
    rcases hf with hf | ⟨link, hlink, hsite, rfl⟩
    · exact (needed_reach hlinked).entry f hf
    · exact mem_files_of_module hlinked hlink hsite
  refine ⟨fun hfile => ?_, hback file⟩
  -- The entries and the files loaded are a needed set by themselves.
  have hneeded : project.Needed entries fun f => f ∈ entries ∨ ∃ link ∈ project.links.modules,
      ⟨link.importer, link.vertex⟩ ∈ (project.reach entries).sites ∧ link.target = f :=
    ⟨fun f hf => .inl hf, fun link hlink hv =>
      .inr ⟨link, hlink, mem_sites_of_visits hlinked (hv.mono hback), rfl⟩⟩
  exact hneeded.of_mem_files hfile

end Reach

/-- **What a walk reaches.** Whatever the files and the entries are, the walk ends and loads no file
twice. The statements reached are the least set that holds the top level of every file reached and
that is closed under the edges within a file, other than edges back to importers, and under import
edges between files. The files reached are the entries and the files that reached statements load,
and no smaller set of files has this closure. Every statement reached is one of a file reached. -/
theorem reach_exact (config : Config) (manifest : Option Manifest) (files : List SourceModule)
    (failures : List Failure) (entries : List FileId) :
    let project := ofFiles config manifest files failures
    let reached := project.reach entries
    Walk.Ends project (entries.foldl (Walk.load project) {}) reached ∧
    reached.files.Nodup ∧
    (∀ site, site ∈ reached.sites ↔ project.Visits (· ∈ reached.files) site) ∧
    (∀ file, file ∈ reached.files ↔ file ∈ entries ∨ ∃ link ∈ project.links.modules,
      ⟨link.importer, link.vertex⟩ ∈ reached.sites ∧ link.target = file) ∧
    (∀ needed, project.Needed entries needed → ∀ file ∈ reached.files, needed file) ∧
    ∀ site ∈ reached.sites, site.file ∈ reached.files := by
  intro project reached
  have hlinked : project.Linked := linked_ofFiles config manifest files failures
  have hneeded : project.Needed entries (· ∈ reached.files) := needed_reach hlinked
  refine ⟨ends_reach project entries, nodup_files_reach project entries, fun site => mem_sites_iff hlinked,
    fun file => mem_files_iff hlinked, fun needed h file => h.of_mem_files, fun site hsite => ?_⟩
  exact hneeded.file_of_visits hlinked ((mem_sites_iff hlinked).1 hsite)

/-- A file of one statement, which exports a name and imports that name from another file. -/
def mutualImport (path target : Path) : SourceModule :=
  { path, canonical := path, language := .javaScript
    graph :=
      { path
        vertices :=
          #[{ key := ⟨.exportStatement, ⟨0, 1⟩⟩, location := ⟨1, 0⟩, scope := ScopeTree.globalId }] }
    scopes := .ofAmbient []
    imports :=
      [{ source := target.text, localName := none, imported := .named "x", kind := .es6
         target := .relative target, vertex := some 0, line := 1 }]
    exports :=
      [{ name := "x", vertex := 0, producer := 0, path, line := 1, commonJs := false }] }

/-- Two files that import from each other. -/
def importCycle : List SourceModule :=
  [mutualImport ⟨"a"⟩ ⟨"b"⟩, mutualImport ⟨"b"⟩ ⟨"a"⟩]

/-- From the first file of an import cycle and an index that is no file, the walk reaches both files
and nothing else. -/
theorem reach_exact_importCycle :
    (ofFiles {} none importCycle []).Needed [0, 7] (· ∈ [0, 1, 7]) ∧
    (∀ file ∈ ((ofFiles {} none importCycle []).reach [0, 7]).files, file ∈ [0, 1, 7]) ∧
    ⟨1, 0⟩ ∈ ((ofFiles {} none importCycle []).reach [0, 7]).sites ∧
    1 ∈ ((ofFiles {} none importCycle []).reach [0, 7]).files := by
  have hmodules : ∀ link ∈ (ofFiles {} none importCycle []).links.modules,
      link.target ∈ [0, 1, 7] := by decide +kernel
  have hneeded : (ofFiles {} none importCycle []).Needed [0, 7] (· ∈ [0, 1, 7]) :=
    ⟨by decide, fun link hlink _ => hmodules link hlink⟩
  have hsite : ⟨1, 0⟩ ∈ ((ofFiles {} none importCycle []).reach [0, 7]).sites := by
    decide +kernel
  obtain ⟨-, -, -, -, hleast, hfiles⟩ := reach_exact {} none importCycle [] [0, 7]
  exact ⟨hneeded, hleast _ hneeded, hsite, hfiles ⟨1, 0⟩ hsite⟩

end Project

end DeadCode
