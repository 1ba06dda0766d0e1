import DeadCode.Proofs.Project.Closure
import DeadCode.Proofs.Project.Entries
import Mathlib.Logic.Equiv.Basic

/-! # Files in another order

A project knows its files by their indices. If the files are listed in another order, every index
changes, in the links, on the walk and among the entries. This file follows a renumbering through
all of these. -/

namespace DeadCode

/-! ## Renumbering -/

/-- The items of one list stand in another one under new indices. -/
def Renumbers {α : Type} (σ : Equiv.Perm Nat) (xs ys : List α) : Prop :=
  ∀ i, ys[σ i]? = xs[i]?

theorem Renumbers.symm {α : Type} {σ : Equiv.Perm Nat} {xs ys : List α} (h : Renumbers σ xs ys) :
    Renumbers σ.symm ys xs := by
  intro i
  rw [← h, σ.apply_symm_apply]

theorem Renumbers.mem_iff {α : Type} {σ : Equiv.Perm Nat} {xs ys : List α} {x : α}
    (h : Renumbers σ xs ys) : x ∈ ys ↔ x ∈ xs := by
  simp only [List.mem_iff_getElem?]
  constructor
  · rintro ⟨id, hid⟩
    exact ⟨σ.symm id, (h.symm id).trans hid⟩
  · rintro ⟨id, hid⟩
    exact ⟨σ id, (h id).trans hid⟩

/-- A renumbering of the items behind the first one, which stays. -/
def keepFirst (σ : Equiv.Perm Nat) : Equiv.Perm Nat where
  toFun
    | 0 => 0
    | i + 1 => σ i + 1
  invFun
    | 0 => 0
    | i + 1 => σ.symm i + 1
  left_inv i := by cases i <;> simp
  right_inv i := by cases i <;> simp

/-- **A permutation is a renumbering.** -/
theorem exists_renumbers_of_perm {α : Type} {xs ys : List α} (h : xs.Perm ys) :
    ∃ σ, Renumbers σ xs ys := by
  induction h with
  | nil => exact ⟨Equiv.refl Nat, fun _ => rfl⟩
  | cons x _ ih =>
    obtain ⟨σ, hσ⟩ := ih
    refine ⟨keepFirst σ, fun i => ?_⟩
    cases i with
    | zero => rfl
    | succ i => exact hσ i
  | swap x y rest =>
    refine ⟨Equiv.swap 0 1, fun i => ?_⟩
    match i with
    | 0 => rfl
    | 1 => rfl
    | i + 2 => rw [Equiv.swap_apply_of_ne_of_ne (by simp) (by simp)]; rfl
  | trans _ _ ih ih' =>
    obtain ⟨σ, hσ⟩ := ih
    obtain ⟨τ, hτ⟩ := ih'
    exact ⟨σ.trans τ, fun i => (hτ (σ i)).trans (hσ i)⟩

variable {σ : Equiv.Perm FileId}

/-- A statement of a renumbered file. -/
def Site.renumber (σ : Equiv.Perm FileId) (site : Site) : Site :=
  { site with file := σ site.file }

/-- An edge between renumbered files. -/
def CrossEdge.renumber (σ : Equiv.Perm FileId) (e : CrossEdge) : CrossEdge :=
  { e with sourceFile := σ e.sourceFile, targetFile := σ e.targetFile }

/-- A module link between renumbered files. -/
def ModuleLink.renumber (σ : Equiv.Perm FileId) (link : ModuleLink) : ModuleLink :=
  { link with importer := σ link.importer, target := σ link.target }

theorem Site.renumber_symm (σ : Equiv.Perm FileId) (site : Site) :
    (site.renumber σ).renumber σ.symm = site := by
  simp [renumber]

/-! ## Files that are told apart by their paths -/

/-- At most one file lies at each path. -/
def Unambiguous (files : List SourceModule) : Prop :=
  ∀ (path : Path) (id id' : FileId) (m m' : SourceModule), files[id]? = some m →
    files[id']? = some m' → m.LiesAt path → m'.LiesAt path → id' = id

variable {files files' : List SourceModule} {m target : SourceModule} {id : FileId} {i : Import}

/-- Files are told apart by their paths if no two have one canonical path and none is the `index`
file at the path of another. -/
theorem unambiguous_of_pairwise
    (hdistinct : files.Pairwise fun a b => ¬ a.canonical.Same b.canonical)
    (hindex : ∀ a ∈ files, ∀ b ∈ files, ¬ b.canonical.Same (a.canonical.child "index")) :
    Unambiguous files := by
  intro path id id' m m' hm hm' hlies hlies'
  have hmem := List.mem_of_getElem? hm
  have hmem' := List.mem_of_getElem? hm'
  by_contra hne
  have hapart : ¬ m.canonical.Same m'.canonical := by
    obtain ⟨hlt, rfl⟩ := List.getElem?_eq_some_iff.1 hm
    obtain ⟨hlt', rfl⟩ := List.getElem?_eq_some_iff.1 hm'
    obtain hid | hid := Nat.lt_or_gt_of_ne hne
    · exact fun hsame => List.pairwise_iff_getElem.1 hdistinct id' id hlt' hlt hid (Eq.symm hsame)
    · exact List.pairwise_iff_getElem.1 hdistinct id id' hlt hlt' hid
  -- A file with the path itself and an `index` file there never meet.
  have hcross {a b : SourceModule} (ha : a ∈ files) (hb : b ∈ files)
      (hpath : a.canonical.Same path) (hchild : b.canonical.Same (path.child "index")) : False := by
    refine hindex a ha b hb ?_
    rw [Path.Same, Path.components_child_index] at hchild ⊢
    rw [hchild, hpath]
  rcases hlies with hdirect | hchild
  · rcases hlies' with hdirect' | hchild'
    · exact hapart (hdirect.trans (Eq.symm hdirect'))
    · exact hcross hmem hmem' hdirect hchild'
  · rcases hlies' with hdirect' | hchild'
    · exact hcross hmem' hmem hdirect' hchild
    · exact hapart (hchild.trans (Eq.symm hchild'))

namespace Unambiguous

theorem renumber (h : Unambiguous files) (hσ : Renumbers σ files files') : Unambiguous files' := by
  intro path id id' m m' hm hm' hlies hlies'
  rw [← hσ.symm] at hm hm'
  exact σ.symm.injective (h path _ _ m m' hm hm' hlies hlies')

/-- **What an import leads to**: the one file at its path. -/
theorem leadsTo_iff (h : Unambiguous files) :
    i.LeadsTo files target id ↔
      ∃ path, i.target = .relative path ∧ files[id]? = some target ∧ target.LiesAt path := by
  refine ⟨Import.LeadsTo.mem_files, ?_⟩
  rintro ⟨path, hrelative, hid, hlies⟩
  obtain ⟨target', id', hleads⟩ : ∃ target' id', i.LeadsTo files target' id' := by
    by_contra hnone
    exact (Import.not_leadsTo_iff hrelative).1 hnone target (List.mem_of_getElem? hid) hlies
  obtain ⟨path', hrelative', hid', hlies'⟩ := hleads.mem_files
  rw [hrelative] at hrelative'
  cases hrelative'
  cases h path id id' target target' hid hid' hlies hlies'
  rw [hid] at hid'
  cases hid'
  exact hleads

/-- Imports lead to the same files. -/
theorem leadsTo_renumber (h : Unambiguous files) (hσ : Renumbers σ files files') :
    i.LeadsTo files' target (σ id) ↔ i.LeadsTo files target id := by
  rw [h.leadsTo_iff, (h.renumber hσ).leadsTo_iff, hσ]

end Unambiguous

/-! ## Renumbered links -/

theorem occurrence_renumber (hσ : Renumbers σ files files') {o : Occurrence}
    (h : o ∈ occurrences files) : { o with file := σ o.file } ∈ occurrences files' := by
  obtain ⟨m, hm, hi, hpath⟩ := mem_occurrences_iff.1 h
  exact mem_occurrences_iff.2 ⟨m, (hσ o.file).trans hm, hi, hpath⟩

namespace Links

variable {dependencies dependencies' : List Dependency}

theorem renumber_mem_edges (h : Unambiguous files) (hσ : Renumbers σ files files') {e : CrossEdge}
    (he : e ∈ (ofFiles files dependencies).edges) :
    e.renumber σ ∈ (ofFiles files' dependencies').edges := by
  obtain ⟨o, ho, target, id, vertex, hleads, hvertex, found, hfound, he⟩ := mem_edges_iff.1 he
  refine mem_edges_iff.2 ⟨_, occurrence_renumber hσ ho, target, σ id, vertex,
    (h.leadsTo_renumber hσ).2 hleads, hvertex, found, hfound, ?_⟩
  simp only [Occurrence.edgePair, List.mem_cons, List.not_mem_nil, or_false] at he ⊢
  rcases he with rfl | rfl
  · exact .inl rfl
  · exact .inr rfl

theorem renumber_mem_modules (h : Unambiguous files) (hσ : Renumbers σ files files')
    {link : ModuleLink} (hlink : link ∈ (ofFiles files dependencies).modules) :
    link.renumber σ ∈ (ofFiles files' dependencies').modules := by
  obtain ⟨o, ho, target, hleads, hvertex, hfile⟩ := mem_modules_iff.1 hlink
  exact mem_modules_iff.2 ⟨_, occurrence_renumber hσ ho, target, (h.leadsTo_renumber hσ).2 hleads,
    hvertex, congrArg σ hfile⟩

end Links

namespace Project

/-- Two projects differ only in the order of their files. -/
structure Renumbered (σ : Equiv.Perm FileId) (project project' : Project) : Prop where
  /-- The settings are the same. -/
  config : project'.config = project.config
  /-- The manifest is the same. -/
  manifest : project'.manifest = project.manifest
  /-- The files are the same under new indices. -/
  files : Renumbers σ project.files project'.files
  /-- Edges become edges. -/
  edges : ∀ e ∈ project.links.edges, e.renumber σ ∈ project'.links.edges
  /-- Edges come from edges. -/
  edges_symm : ∀ e ∈ project'.links.edges, e.renumber σ.symm ∈ project.links.edges
  /-- Module links become module links. -/
  modules : ∀ link ∈ project.links.modules, link.renumber σ ∈ project'.links.modules
  /-- Module links come from module links. -/
  modules_symm : ∀ link ∈ project'.links.modules, link.renumber σ.symm ∈ project.links.modules

/-- **Renumbered files have renumbered links.** -/
theorem renumbered_ofFiles (config : Config) (manifest : Option Manifest)
    (failures failures' : List Failure) (h : Unambiguous files) (hσ : Renumbers σ files files') :
    Renumbered σ (ofFiles config manifest files failures)
      (ofFiles config manifest files' failures') where
  config := rfl
  manifest := rfl
  files := hσ
  edges := fun _ => Links.renumber_mem_edges h hσ
  edges_symm := fun _ => Links.renumber_mem_edges (h.renumber hσ) hσ.symm
  modules := fun _ => Links.renumber_mem_modules h hσ
  modules_symm := fun _ => Links.renumber_mem_modules (h.renumber hσ) hσ.symm

namespace Renumbered

variable {project project' : Project} {entries : List FileId} {site : Site}

theorem symm (h : Renumbered σ project project') : Renumbered σ.symm project' project where
  config := h.config.symm
  manifest := h.manifest.symm
  files := h.files.symm
  edges := h.edges_symm
  edges_symm := h.edges
  modules := h.modules_symm
  modules_symm := h.modules

theorem file? (h : Renumbered σ project project') (id : FileId) :
    project'.file? (σ id) = project.file? id :=
  h.files id

/-! ## The renumbered walk -/

theorem visits (h : Renumbered σ project project') {files : FileId → Prop}
    (hv : project.Visits (fun file => files (σ file)) site) :
    project'.Visits files (site.renumber σ) := by
  induction hv with
  | top hfile hm hv => exact .top hfile ((h.file? _).trans hm) hv
  | @edge site m e _ hm he hsource hkind ih =>
    exact .edge ih ((h.file? site.file).trans hm) he hsource hkind
  | @imported e _ he hkind ih => exact .imported ih (h.edges e he) hkind

/-- The reached files are renumbered. -/
theorem mem_files (h : Renumbered σ project project') (hlinked' : project'.Linked)
    {entries' : List FileId} (hentries : ∀ file ∈ entries, σ file ∈ entries') {file : FileId}
    (hfile : file ∈ (project.reach entries).files) : σ file ∈ (project'.reach entries').files := by
  -- What the other project reaches, seen from here, is a needed set, and the files reached are the
  -- least one.
  have hneeded' : project'.Needed entries' (· ∈ (project'.reach entries').files) :=
    needed_reach hlinked'
  have hneeded : project.Needed entries fun file => σ file ∈ (project'.reach entries').files :=
    ⟨fun file hfile => hneeded'.entry (σ file) (hentries file hfile), fun link hlink hv =>
      hneeded'.loaded (link.renumber σ) (h.modules link hlink) (h.visits hv)⟩
  exact hneeded.of_mem_files hfile

section Linked

variable (h : Renumbered σ project project') (hlinked : project.Linked)
  (hlinked' : project'.Linked)

include h hlinked hlinked'

/-- **The files reached** are the renumbered ones. -/
theorem mem_files_iff {file : FileId} :
    σ file ∈ (project'.reach (entries.map σ)).files ↔ file ∈ (project.reach entries).files := by
  constructor
  · intro hfile
    have hentries : ∀ file ∈ entries.map σ, σ.symm file ∈ entries := by simp
    simpa using h.symm.mem_files hlinked hentries hfile
  · exact h.mem_files hlinked' fun file hfile => List.mem_map_of_mem hfile

/-- **The statements reached** are the renumbered ones. -/
theorem mem_sites_iff :
    site.renumber σ ∈ (project'.reach (entries.map σ)).sites ↔
      site ∈ (project.reach entries).sites := by
  rw [Project.mem_sites_iff hlinked, Project.mem_sites_iff hlinked']
  constructor
  · intro hv
    have hfiles (file : FileId) (hfile : file ∈ (project'.reach (entries.map σ)).files) :
        σ.symm file ∈ (project.reach entries).files := by
      rw [← h.mem_files_iff hlinked hlinked', σ.apply_symm_apply]
      exact hfile
    have hback : project.Visits (· ∈ (project.reach entries).files)
        ((site.renumber σ).renumber σ.symm) := h.symm.visits (hv.mono hfiles)
    rwa [Site.renumber_symm] at hback
  · intro hv
    exact h.visits (hv.mono fun file hfile => (h.mem_files_iff hlinked hlinked').2 hfile)

theorem mem_packages_iff {package : String} :
    package ∈ (project'.reach (entries.map σ)).packages ↔
      package ∈ (project.reach entries).packages := by
  have hpackages (site : Site) :
      project'.packagesAt (site.renumber σ) = project.packagesAt site := by
    unfold packagesAt
    rw [show (site.renumber σ).file = σ site.file from rfl, h.file?]
    rfl
  rw [Project.mem_packages_iff, Project.mem_packages_iff]
  constructor
  · rintro ⟨site, hsite, hpackage⟩
    have hrenumber : (site.renumber σ.symm).renumber σ = site := Site.renumber_symm σ.symm site
    refine ⟨site.renumber σ.symm, ?_, ?_⟩
    · rw [← h.mem_sites_iff hlinked hlinked', hrenumber]
      exact hsite
    · rw [← hpackages, hrenumber]
      exact hpackage
  · rintro ⟨site, hsite, hpackage⟩
    exact ⟨site.renumber σ, (h.mem_sites_iff hlinked hlinked').2 hsite,
      hpackages site ▸ hpackage⟩

theorem perm_files :
    (project'.reach (entries.map σ)).files.Perm ((project.reach entries).files.map σ) := by
  refine (List.perm_ext_iff_of_nodup (nodup_files_reach _ _)
    ((nodup_files_reach _ _).map σ.injective)).2 fun file => ?_
  obtain ⟨file, rfl⟩ := σ.surjective file
  rw [h.mem_files_iff hlinked hlinked', List.mem_map_of_injective σ.injective]

end Linked

end Renumbered

end Project

end DeadCode
