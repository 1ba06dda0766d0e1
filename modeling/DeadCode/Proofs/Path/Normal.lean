import DeadCode.Module.Specifier
import DeadCode.Proofs.Path.Canonical

/-! # Paths in normal form

Normalizing a path folds its components onto a stack, and what a `..` does depends on the top of the
stack. In the end the stack holds the root or some steps up, and then names only. A list of this
form is folded onto itself, and from this the laws of normal paths follow. -/

namespace DeadCode

namespace Path

variable {a b path : Path} {steps before : List Component} {step : Component}

/-- Components in normal form: the root or some steps up, and then names. -/
def IsNormal (steps : List Component) : Prop :=
  ∃ lead, ∃ names : List String, steps = lead ++ names.map Component.normal ∧
    (lead = [.root] ∨ ∃ ups, lead = List.replicate ups .parent)

theorem IsNormal.current_not_mem (h : IsNormal steps) : .current ∉ steps := by
  obtain ⟨lead, names, rfl, rfl | ⟨ups, rfl⟩⟩ := h
  · simp
  · simp

theorem IsNormal.parent_not_mem (h : IsNormal (.root :: steps)) : .parent ∉ .root :: steps := by
  obtain ⟨lead, names, heq, rfl | ⟨ups, rfl⟩⟩ := h
  · rw [heq]
    simp
  · -- The list starts with the root, so no step up comes first and no name either.
    cases ups with
    | zero => cases names <;> simp at heq
    | succ ups => simp [List.replicate_succ] at heq

/-! ## The stack of components -/

theorem isStep_cases (h : step.IsStep) : step = .parent ∨ ∃ name, step = .normal name := by
  obtain ⟨piece, -, hpiece⟩ := h
  unfold component? at hpiece
  split at hpiece
  · cases hpiece
  · cases hpiece
  · exact .inl (Option.some.inj hpiece).symm
  · exact .inr ⟨_, (Option.some.inj hpiece).symm⟩

theorem fold_parent_ups (ups : Nat) :
    fold (List.replicate ups .parent) .parent = List.replicate (ups + 1) .parent := by
  cases ups <;> rfl

/-- **One step keeps the stack in normal form.** -/
theorem isNormal_fold (h : IsNormal before.reverse) (hstep : step.IsStep) :
    IsNormal (fold before step).reverse := by
  obtain ⟨lead, names, heq, hlead⟩ := h
  rw [List.reverse_eq_iff] at heq
  rcases isStep_cases hstep with rfl | ⟨name, rfl⟩
  · rcases List.eq_nil_or_concat names with rfl | ⟨names, name, rfl⟩
    · -- No name can be taken away.
      rcases hlead with rfl | ⟨ups, rfl⟩
      · exact ⟨[.root], [], by simp [heq, fold], .inl rfl⟩
      · refine ⟨List.replicate (ups + 1) .parent, [], ?_, .inr ⟨_, rfl⟩⟩
        have hbefore : before = List.replicate ups .parent := by simpa using heq
        rw [hbefore, fold_parent_ups, List.reverse_replicate, List.map_nil, List.append_nil]
    · exact ⟨lead, names, by simp [heq, fold], hlead⟩
  · exact ⟨lead, names ++ [name], by simp [heq, fold], hlead⟩

theorem isNormal_foldl_fold (h : IsNormal before.reverse) (hsteps : ∀ c ∈ steps, c.IsStep) :
    IsNormal (steps.foldl fold before).reverse := by
  induction steps generalizing before with
  | nil => exact h
  | cons step rest ih =>
    obtain ⟨hstep, hrest⟩ := List.forall_mem_cons.1 hsteps
    exact ih (isNormal_fold h hstep) hrest

/-- Normalizing makes components normal. -/
theorem isNormal_normalComponents (h : IsSpelled steps) : IsNormal (normalComponents steps) := by
  have hnil : IsNormal [] := ⟨[], [], rfl, .inr ⟨0, rfl⟩⟩
  have hsingle {step : Component} (hstep : step.IsStep) : IsNormal (fold [] step).reverse :=
    isNormal_fold hnil hstep
  cases steps with
  | nil => exact hnil
  | cons first rest =>
    rw [normalComponents, List.foldl_cons]
    refine isNormal_foldl_fold ?_ h.isStep_of_mem_tail
    cases first with
    | root => exact ⟨[.root], [], rfl, .inl rfl⟩
    | current => exact hnil
    | parent => exact hsingle (h _ List.mem_cons_self)
    | normal name => exact hsingle (h _ List.mem_cons_self)

theorem foldl_fold_names (before : List Component) (names : List String) :
    (names.map Component.normal).foldl fold before =
      (names.map Component.normal).reverse ++ before := by
  induction names generalizing before with
  | nil => rfl
  | cons name rest ih => simp [ih, fold]

theorem foldl_fold_ups (ups : Nat) :
    (List.replicate ups Component.parent).foldl fold [] = List.replicate ups .parent := by
  induction ups with
  | zero => rfl
  | succ ups ih =>
    rw [List.replicate_succ', List.foldl_append, ih, ← List.replicate_succ']
    exact fold_parent_ups ups

/-- **What is in normal form is folded onto itself.** -/
theorem IsNormal.normalComponents_eq (h : IsNormal steps) : normalComponents steps = steps := by
  obtain ⟨lead, names, rfl, hlead⟩ := h
  have hfold : lead.foldl fold [] = lead.reverse := by
    rcases hlead with rfl | ⟨ups, rfl⟩
    · rfl
    · rw [foldl_fold_ups, List.reverse_replicate]
  rw [normalComponents, List.foldl_append, hfold, foldl_fold_names, ← List.reverse_append,
    List.reverse_reverse]

theorem normalComponents_append (h : IsSpelled steps) (more : List Component) :
    normalComponents (normalComponents steps ++ more) = normalComponents (steps ++ more) := by
  have hfold : (normalComponents steps).foldl fold [] = steps.foldl fold [] := by
    have heq := (isNormal_normalComponents h).normalComponents_eq
    rwa [normalComponents, List.reverse_eq_iff, normalComponents, List.reverse_reverse] at heq
  rw [normalComponents, List.foldl_append, hfold, ← List.foldl_append]
  rfl

/-! ## Normalized paths -/

/-- **A normalized path is in normal form.** -/
theorem isNormal_normalize (path : Path) : IsNormal path.normalize.components := by
  rw [components_normalize]
  exact isNormal_normalComponents (isSpelled_components path)

/-- **The paths in normal form are those that normalizing leaves alone.** -/
theorem same_normalize_iff : path.normalize.Same path ↔ IsNormal path.components := by
  rw [Same, components_normalize]
  constructor
  · intro h
    rw [← h]
    exact isNormal_normalComponents (isSpelled_components path)
  · exact IsNormal.normalComponents_eq

/-- In a spelling without a leading slash all pieces are read alike, except for a leading `.`. -/
theorem components_of_relative (h : ¬ path.isAbsolute) :
    ∃ lead, path.components = lead ++ (segments path.text.toList).filterMap component? ∧
      (lead = [] ∨ lead = [.current]) := by
  unfold components componentsOf
  split
  · next piece pieces hpieces =>
    -- Only a slash leaves an empty piece before another one.
    rw [isAbsolute, decide_eq_true_eq] at h
    cases htext : path.text.toList with
    | nil => simp [htext, segments] at hpieces
    | cons c rest =>
      have hc : c ≠ '/' := by simpa [htext] using h
      rw [htext, segments, if_neg hc] at hpieces
      split at hpieces <;> simp at hpieces
  · next hpieces => exact ⟨[.current], by rw [hpieces]; rfl, .inr rfl⟩
  · exact ⟨[], rfl, .inl rfl⟩

theorem isStep_of_mem_pieces {text : List Char} {c : Component}
    (h : c ∈ (segments text).filterMap component?) : c.IsStep := by
  obtain ⟨piece, hpiece, hc⟩ := List.mem_filterMap.1 h
  exact ⟨piece, not_mem_of_mem_segments hpiece, hc⟩

theorem isAbsolute_iff : path.isAbsolute ↔ path.components.head? = some .root := by
  constructor
  · intro h
    rw [isAbsolute, decide_eq_true_eq, List.head?_eq_some_iff] at h
    obtain ⟨rest, hrest⟩ := h
    rw [components, hrest, componentsOf_slash]
    rfl
  · intro h
    by_contra hrelative
    obtain ⟨lead, hcomponents, rfl | rfl⟩ := components_of_relative hrelative
    · rw [hcomponents] at h
      exact not_isStep_root (isStep_of_mem_pieces (List.mem_of_mem_head? h))
    · rw [hcomponents] at h
      cases h

theorem getLast?_fold (hstep : step.IsStep) :
    (fold before step).getLast? = some .root ↔ before.getLast? = some .root := by
  rcases isStep_cases hstep with rfl | ⟨name, rfl⟩
  · match before with
    | [] => simp [fold]
    | .root :: rest => exact Iff.rfl
    | .current :: rest => simp [fold]
    | .parent :: rest => simp [fold]
    | .normal name :: rest => cases rest <;> simp [fold]
  · cases before <;> simp [fold]

theorem getLast?_foldl_fold (hsteps : ∀ c ∈ steps, c.IsStep) :
    (steps.foldl fold before).getLast? = some .root ↔ before.getLast? = some .root := by
  induction steps generalizing before with
  | nil => exact Iff.rfl
  | cons step rest ih =>
    obtain ⟨hstep, hrest⟩ := List.forall_mem_cons.1 hsteps
    rw [List.foldl_cons, ih hrest, getLast?_fold hstep]

/-- Normalizing keeps absolute paths. -/
theorem isAbsolute_normalize (path : Path) : path.normalize.isAbsolute = path.isAbsolute := by
  rw [Bool.eq_iff_iff, isAbsolute_iff, isAbsolute_iff, components_normalize, normalComponents,
    List.head?_reverse]
  have hspelled := isSpelled_components path
  cases hsteps : path.components with
  | nil => exact Iff.rfl
  | cons first rest =>
    rw [hsteps] at hspelled
    rw [List.foldl_cons, getLast?_foldl_fold hspelled.isStep_of_mem_tail]
    cases first <;> simp [fold]

/-- **No step up is left in an absolute path.** -/
theorem parent_not_mem_normalize (h : path.isAbsolute) : .parent ∉ path.normalize.components := by
  rw [← isAbsolute_normalize, isAbsolute_iff, List.head?_eq_some_iff] at h
  obtain ⟨rest, hrest⟩ := h
  have hnormal := isNormal_normalize path
  rw [hrest] at hnormal ⊢
  exact hnormal.parent_not_mem

/-! ## Ways from a directory -/

/-- A way is folded onto the components of the directory, also where the directory is the empty path
and adds nothing to the spelling. -/
theorem components_normalize_join (a : Path) (hb : ¬ b.isAbsolute) :
    (a.join b).normalize.components =
      normalComponents (a.components ++ (segments b.text.toList).filterMap component?) := by
  rw [components_normalize]
  by_cases ha : a.text.toList = []
  · have htext : a.text = "" := String.toList_eq_nil_iff.1 ha
    have hjoin : a.join b = b := by simp [join, htext]
    have hcomponents : a.components = [] := by
      rw [components, ha]
      rfl
    obtain ⟨lead, hlead, rfl | rfl⟩ := components_of_relative hb
    · rw [hjoin, hlead, hcomponents]
    · rw [hjoin, hlead, hcomponents]
      rfl
  · rw [components_join ha hb]

/-- **A way leads to the same place from a directory and from the normalized directory.** -/
theorem normalize_join_eq (a : Path) (hb : ¬ b.isAbsolute) :
    (a.normalize.join b).normalize = (a.join b).normalize := by
  refine normalize_eq_of_same ?_
  rw [Same, components_normalize_join _ hb, components_normalize_join _ hb, components_normalize,
    normalComponents_append (isSpelled_components a)]

theorem isAbsolute_join (ha : a.isAbsolute) (b : Path) : (a.join b).isAbsolute := by
  by_cases hb : b.isAbsolute
  · simp [join, hb]
  · have hne : a.text.toList ≠ [] := by
      intro hnil
      simp [isAbsolute, hnil] at ha
    rw [isAbsolute_iff] at ha ⊢
    rw [components_join hne hb, List.head?_append, ha]
    rfl

end Path

/-- **A specifier is resolved by the place of the directory**, however the directory is spelled. -/
theorem Specifier.resolve?_eq_of_same_normalize {directory directory' : Path}
    (h : directory.normalize.Same directory'.normalize) (specifier : String) :
    resolve? directory specifier = resolve? directory' specifier := by
  have hcanonical : (directory.join ⟨specifier⟩).canonical =
      (directory'.join ⟨specifier⟩).canonical := by
    by_cases habsolute : (Path.mk specifier).isAbsolute
    · simp [Path.join, habsolute]
    · have hplace : (directory.join ⟨specifier⟩).normalize =
          (directory'.join ⟨specifier⟩).normalize := by
        rw [← Path.normalize_join_eq _ habsolute, Path.normalize_eq_of_same h,
          Path.normalize_join_eq _ habsolute]
      exact congrArg Path.stripExtension hplace
  rw [resolve?, resolve?, hcanonical]

namespace Path

/-- **The laws of normal paths.** Normalizing a second time changes nothing. Walking along a
relative path from a directory and from the normalized directory leads to the same place, so that
what a specifier means depends on the place of the importing directory only. What is normalized has
no `.` among its components; it is the root or a run of `..` and then names, and exactly what has
this form is left alone. It is absolute if the path was, and then it has no `..` at all. -/
theorem normalize_lawful (a b : Path) (hb : ¬ b.isAbsolute) :
    a.normalize.normalize.Same a.normalize ∧
    (a.join b).normalize.Same (a.normalize.join b).normalize ∧
    (∀ directory, directory.normalize.Same a.normalize → ∀ specifier,
      Specifier.resolve? directory specifier = Specifier.resolve? a specifier) ∧
    (∀ path : Path, .current ∉ path.normalize.components ∧ IsNormal path.normalize.components ∧
      (path.normalize.Same path ↔ IsNormal path.components) ∧
      path.normalize.isAbsolute = path.isAbsolute) ∧
    (a.isAbsolute → .parent ∉ a.normalize.components ∧
      .parent ∉ (a.join b).normalize.components) := by
  refine ⟨same_normalize_iff.2 (isNormal_normalize a), ?_, fun directory hplace => ?_,
    fun path => ?_, fun ha => ?_⟩
  · rw [normalize_join_eq a hb]
    rfl
  · exact Specifier.resolve?_eq_of_same_normalize hplace
  · exact ⟨(isNormal_normalize path).current_not_mem, isNormal_normalize path, same_normalize_iff,
      isAbsolute_normalize path⟩
  · exact ⟨parent_not_mem_normalize ha, parent_not_mem_normalize (isAbsolute_join ha b)⟩

/-- A directory that steps up past the root and a way that steps up past the directory. -/
theorem normalize_lawful_pastRoot :
    ¬ (Path.mk "./b/../../../c").isAbsolute ∧ (Path.mk "/../a/.").isAbsolute ∧
    ((Path.mk "/../a/.").join ⟨"./b/../../../c"⟩).normalize.Same
      ((Path.mk "/../a/.").normalize.join ⟨"./b/../../../c"⟩).normalize ∧
    .parent ∉ ((Path.mk "/../a/.").join ⟨"./b/../../../c"⟩).normalize.components := by
  have hb : ¬ (Path.mk "./b/../../../c").isAbsolute := by decide +kernel
  have ha : (Path.mk "/../a/.").isAbsolute := by decide +kernel
  obtain ⟨-, hjoin, -, -, hparent⟩ := normalize_lawful ⟨"/../a/."⟩ ⟨"./b/../../../c"⟩ hb
  exact ⟨hb, ha, hjoin, (hparent ha).2⟩

end Path

end DeadCode
