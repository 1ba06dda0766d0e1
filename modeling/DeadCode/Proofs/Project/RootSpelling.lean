import DeadCode.Proofs.Path.Normal
import DeadCode.Proofs.Project.Analyzed
import DeadCode.Proofs.Project.Entries

/-! # The spelling of the root directory

A declared entry is joined to the root directory and then made canonical, so the spelling of the
root does not matter. The `index` files of the root are found by joining alone: a root that is not
spelled in normal form, such as `.`, has none of them. -/

namespace DeadCode

namespace Path

variable {path : Path} {steps : List Component} {name : String} {c c' : Component}

/-! ## The directories of canonical paths -/

theorem IsNormal.of_concat (h : IsNormal (steps ++ [.normal name])) : IsNormal steps := by
  obtain ⟨lead, names, heq, hlead⟩ := h
  rcases List.eq_nil_or_concat names with rfl | ⟨front, last, rfl⟩
  · -- No lead ends in a name.
    have hmem : Component.normal name ∈ lead := by
      rw [← List.append_nil lead, ← List.map_nil, ← heq]
      simp
    rcases hlead with rfl | ⟨ups, rfl⟩ <;> simp at hmem
  · rw [List.concat_eq_append, List.map_append, ← List.append_assoc] at heq
    exact ⟨lead, front, (List.append_inj' heq rfl).1, hlead⟩

/-- The name left without its extension is spelled like some step; dots alone are a step up. -/
theorem exists_isStep_stripName (h : (Component.normal name).IsStep) :
    ∃ c : Component, c.IsStep ∧ c.render = stripName name := by
  have hparent : Component.parent.IsStep := ⟨['.', '.'], by decide, rfl⟩
  unfold stripName
  split
  · next stem extension hsplit =>
    obtain ⟨htext, hne⟩ := eq_append_of_splitExtension? hsplit
    obtain ⟨-, hslash⟩ : _ ∧ '/' ∉ name.toList := component?_render h
    split
    · split
      · exact ⟨.parent, hparent, rfl⟩
      · next hdot =>
        by_cases hdots : stem = ['.', '.']
        · exact ⟨.parent, hparent, by rw [hdots]; rfl⟩
        · refine ⟨_, isStep_ofList (fun hmem => hslash ?_) (by simp [hne, hdot, hdots]), rfl⟩
          rw [htext]
          exact List.mem_append_left _ hmem
    · exact ⟨_, h, rfl⟩
  · exact ⟨_, h, rfl⟩

theorem ofComponents_concat (hc : c.IsStep) (h : c.render = name) :
    ofComponents (steps ++ [.normal name]) = ofComponents (steps ++ [c]) := by
  subst h
  cases steps with
  | nil => rcases isStep_cases hc with rfl | ⟨name, rfl⟩ <;> rfl
  | cons first rest =>
    have hname : (Component.normal c.render).render = c.render := rfl
    cases first <;> simp [ofComponents, hname]

/-- **The directory of a canonical path is spelled in normal form.** -/
theorem isNormal_of_canonical (h : path.canonical.components = steps ++ [.normal name]) :
    IsNormal steps := by
  have hnormal := isNormal_normalize path
  unfold canonical stripExtension at h
  split at h
  · next last rest hlast =>
    rw [List.reverse_eq_cons_iff] at hlast
    have hspelled := isSpelled_components path.normalize
    rw [hlast] at hnormal hspelled
    have hmem : .normal last ∈ rest.reverse ++ [.normal last] := by simp
    obtain ⟨c, hc, hrender⟩ := exists_isStep_stripName (hspelled.isStep_of_mem hmem)
    rw [ofComponents_concat hc hrender, components_ofComponents
      (hspelled.of_append.append (List.forall_mem_singleton.2 hc))] at h
    rw [← (List.append_inj' h rfl).1]
    exact hnormal.of_concat
  · next hlast =>
    exact absurd (by rw [h, List.reverse_concat]) (hlast name steps.reverse)

/-- Entries do not depend on how the root is spelled. -/
theorem canonical_join_normalize (root entry : Path) :
    (root.normalize.join entry).canonical = (root.join entry).canonical := by
  by_cases habsolute : entry.isAbsolute
  · simp [join, habsolute]
  · rw [canonical, canonical, normalize_join_eq root habsolute]

end Path

/-! ## Entry files under two spellings -/

namespace Project

/-- The project with another spelling of the root directory. -/
def withRoot (project : Project) (root : Path) : Project :=
  { project with config := { project.config with root } }

variable {project : Project}

theorem entryFile?_withRoot_normalize (project : Project) (entry : Path) :
    (project.withRoot project.config.root.normalize).entryFile? entry =
      project.entryFile? entry := by
  simp only [entryFile?, withRoot, Path.canonical_join_normalize]

/-- A normal root finds the index files. -/
theorem indexFiles_eq_of_same (h : project.config.root.normalize.Same project.config.root) :
    project.indexFiles = (project.withRoot project.config.root.normalize).indexFiles := by
  have hchild : project.config.root.normalize.components = project.config.root.components := h
  simp only [indexFiles, withRoot, file?, Path.Same, Path.components_child_index, hchild]

/-- A root that is not normal finds no index file. -/
theorem indexFiles_eq_nil (hanalyzed : ∀ m ∈ project.files, m.Analyzed)
    (h : ¬ project.config.root.normalize.Same project.config.root) : project.indexFiles = [] := by
  rw [List.eq_nil_iff_forall_not_mem]
  intro id hid
  obtain ⟨m, hm, hsame⟩ := mem_indexFiles.1 hid
  rw [(hanalyzed m (List.mem_of_getElem? hm)).hasTree.canonical_eq, Path.Same,
    Path.components_child_index] at hsame
  exact h (Path.same_normalize_iff.2 (Path.isNormal_of_canonical hsame))

theorem entryFiles_eq_of_declared (h : ∃ entry ∈ project.declaredEntries,
    (project.entryFile? entry).isSome) :
    project.entryFiles = distinct (project.declaredEntries.filterMap project.entryFile?) := by
  obtain ⟨entry, hentry, hfile⟩ := h
  obtain ⟨id, hid⟩ := Option.isSome_iff_exists.1 hfile
  have hmem : id ∈ distinct (project.declaredEntries.filterMap project.entryFile?) :=
    mem_distinct.2 (List.mem_filterMap.2 ⟨entry, hentry, hid⟩)
  unfold entryFiles
  split
  · next hnil => simp [hnil] at hmem
  · rfl

/-- Without declared entries the index files are the entries. -/
theorem entryFiles_eq_indexFiles (h : ¬ ∃ entry ∈ project.declaredEntries,
    (project.entryFile? entry).isSome) : project.entryFiles = project.indexFiles := by
  have hnil : project.declaredEntries.filterMap project.entryFile? = [] := by
    rw [List.filterMap_eq_nil_iff]
    intro entry hentry
    exact Option.not_isSome_iff_eq_none.1 fun hsome => h ⟨entry, hentry, hsome⟩
  rw [entryFiles, hnil]
  rfl

/-- **The root in normal form.** Declared entries name the same files, and the `index` files are
those whose canonical path is `index` below the root in normal form. Under another spelling of the
root there are no `index` files. So the entry files are the same unless the root is spelled in
another way, no declared entry names a file, and there is an `index` file to be missed. -/
theorem entryFiles_normalize_root (project : Project) (h : ∀ m ∈ project.files, m.Analyzed) :
    let root := project.config.root
    let normal := project.withRoot root.normalize
    (∀ entry, normal.entryFile? entry = project.entryFile? entry) ∧
    (∀ id, id ∈ normal.indexFiles ↔ ∃ m, project.file? id = some m ∧
      m.canonical.Same (root.normalize.child "index")) ∧
    project.indexFiles = (if root.normalize.Same root then normal.indexFiles else []) ∧
    (project.entryFiles = normal.entryFiles ↔
      (∃ entry ∈ project.declaredEntries, (project.entryFile? entry).isSome) ∨
        root.normalize.Same root ∨ normal.indexFiles = []) := by
  intro root normal
  have hentry (entry : Path) : normal.entryFile? entry = project.entryFile? entry :=
    entryFile?_withRoot_normalize project entry
  have hindex : project.indexFiles =
      if root.normalize.Same root then normal.indexFiles else [] := by
    split
    · next hsame => exact indexFiles_eq_of_same hsame
    · next hdiffers => exact indexFiles_eq_nil h hdiffers
  refine ⟨hentry, fun id => mem_indexFiles, hindex, ?_⟩
  by_cases hdeclared : ∃ entry ∈ project.declaredEntries, (project.entryFile? entry).isSome
  · have hdeclared' : ∃ entry ∈ normal.declaredEntries, (normal.entryFile? entry).isSome := by
      obtain ⟨entry, hmem, hfile⟩ := hdeclared
      exact ⟨entry, hmem, (hentry entry).symm ▸ hfile⟩
    refine iff_of_true ?_ (.inl hdeclared)
    rw [entryFiles_eq_of_declared hdeclared, entryFiles_eq_of_declared hdeclared',
      funext hentry]
    rfl
  · have hdeclared' : ¬ ∃ entry ∈ normal.declaredEntries, (normal.entryFile? entry).isSome := by
      rintro ⟨entry, hmem, hfile⟩
      exact hdeclared ⟨entry, hmem, hentry entry ▸ hfile⟩
    rw [entryFiles_eq_indexFiles hdeclared, entryFiles_eq_indexFiles hdeclared', hindex,
      or_iff_right hdeclared]
    split
    · next hsame => simp [hsame]
    · next hdiffers =>
      rw [or_iff_right hdiffers]
      exact eq_comm

/-- An entry file that is found under every spelling of the root. -/
theorem entryFiles_normalize_root_declared :
    let project := (ofEmptyFiles ⟨"main.js"⟩ [⟨"/app/index.js"⟩, ⟨"/app/main.js"⟩]).withRoot
      ⟨"/app/lib/.."⟩
    (∀ m ∈ project.files, m.Analyzed) ∧
    ¬ project.config.root.normalize.Same project.config.root ∧ project.entryFiles = [1] ∧
    project.entryFiles = (project.withRoot project.config.root.normalize).entryFiles := by
  intro project
  have hanalyzed : ∀ m ∈ project.files, m.Analyzed := fun m => analyzed_of_mem_files
  obtain ⟨-, -, -, hiff⟩ := entryFiles_normalize_root project hanalyzed
  exact ⟨hanalyzed, by decide +kernel, by decide +kernel,
    hiff.2 (.inl ⟨⟨"main.js"⟩, by decide +kernel, by decide +kernel⟩)⟩

/-- The `index` file of the root `.` is missed. -/
theorem entryFiles_ne_normalize_root :
    let project := (ofEmptyFiles ⟨"main.js"⟩ [⟨"./index.js"⟩]).withRoot ⟨"."⟩
    project.entryFiles = [] ∧
    (project.withRoot project.config.root.normalize).entryFiles = [0] := by
  decide +kernel

end Project

end DeadCode
