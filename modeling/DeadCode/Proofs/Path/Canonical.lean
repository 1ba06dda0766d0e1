import DeadCode.Proofs.Path

/-! # Canonical paths

Files are known by canonical paths: normalized, and without a source extension. Several files can
share one, so the extension has to be told otherwise. Here it is shown that nothing else is lost. -/

namespace DeadCode

namespace Path

variable {a b path : Path} {steps more before : List Component} {step : Component} {name : String}

/-! ## Folding components -/

theorem not_isStep_root : ¬ Component.root.IsStep := by
  rintro ⟨piece, -, hpiece⟩
  unfold component? at hpiece
  split at hpiece <;> cases hpiece

theorem IsSpelled.append (h : IsSpelled steps) (hmore : ∀ c ∈ more, c.IsStep) :
    IsSpelled (steps ++ more) := by
  match steps with
  | [] => exact isSpelled_of_isStep hmore
  | .root :: rest => exact List.forall_mem_append.2 ⟨h, hmore⟩
  | .current :: rest => exact List.forall_mem_append.2 ⟨h, hmore⟩
  | .parent :: rest => exact List.forall_mem_append.2 ⟨h, hmore⟩
  | .normal name :: rest => exact List.forall_mem_append.2 ⟨h, hmore⟩

theorem IsSpelled.isStep_of_mem_tail (h : IsSpelled (step :: steps)) : ∀ c ∈ steps, c.IsStep := by
  cases step with
  | root => exact h
  | current => exact h
  | parent => exact (List.forall_mem_cons.1 h).2
  | normal name => exact (List.forall_mem_cons.1 h).2

theorem IsSpelled.isStep_of_mem (h : IsSpelled steps) (hmem : .normal name ∈ steps) :
    (Component.normal name).IsStep := by
  match steps with
  | .root :: rest => exact h _ (by simpa using hmem)
  | .current :: rest => exact h _ (by simpa using hmem)
  | .parent :: rest => exact h _ hmem
  | .normal name :: rest => exact h _ hmem

/-- One step is folded onto components that can be spelled, and the result can be spelled again. -/
theorem isSpelled_fold (h : IsSpelled before.reverse) (hstep : step.IsStep) :
    IsSpelled (fold before step).reverse := by
  have hpush : IsSpelled (step :: before).reverse := by
    rw [List.reverse_cons]
    exact h.append (List.forall_mem_singleton.2 hstep)
  cases step with
  | root => exact absurd hstep not_isStep_root
  | current => exact h
  | parent =>
    match before with
    | .normal _ :: rest =>
      -- The name is taken away.
      rw [List.reverse_cons] at h
      exact h.of_append
    | .root :: _ => exact h
    | [] | .current :: _ | .parent :: _ => exact hpush
  | normal name => exact hpush

theorem isSpelled_foldl_fold (h : IsSpelled before.reverse) (hsteps : ∀ c ∈ steps, c.IsStep) :
    IsSpelled (steps.foldl fold before).reverse := by
  induction steps generalizing before with
  | nil => exact h
  | cons step rest ih =>
    obtain ⟨hstep, hrest⟩ := List.forall_mem_cons.1 hsteps
    exact ih (isSpelled_fold h hstep) hrest

/-- Normal components can be spelled. -/
theorem isSpelled_normalComponents (h : IsSpelled steps) : IsSpelled (normalComponents steps) := by
  cases steps with
  | nil => exact h
  | cons first rest =>
    -- Only the first component can be other than a step.
    rw [normalComponents, List.foldl_cons]
    refine isSpelled_foldl_fold ?_ h.isStep_of_mem_tail
    cases first with
    | root => exact List.forall_mem_nil _
    | current => exact List.forall_mem_nil _
    | parent => exact List.forall_mem_singleton.2 (h _ List.mem_cons_self)
    | normal name => exact List.forall_mem_singleton.2 (h _ List.mem_cons_self)

/-- **Normalizing a path folds its components.** -/
theorem components_normalize (path : Path) :
    path.normalize.components = normalComponents path.components :=
  components_ofComponents (isSpelled_normalComponents (isSpelled_components path))

theorem normalize_eq_of_same (h : a.normalize.Same b.normalize) : a.normalize = b.normalize := by
  rw [Same, components_normalize, components_normalize] at h
  rw [normalize, normalize, h]

theorem normalComponents_concat (steps : List Component) (name : String) :
    normalComponents (steps ++ [.normal name]) = normalComponents steps ++ [.normal name] := by
  simp [normalComponents, fold]

/-! ## The name at the end of a path -/

theorem exists_componentsOf_eq_append (pieces : List (List Char)) :
    ∃ lead, componentsOf pieces = lead ++ pieces.filterMap component? ∧
      ∀ name, .normal name ∉ lead := by
  unfold componentsOf
  split
  · exact ⟨[.root], rfl, by simp⟩
  · exact ⟨[.current], rfl, by simp⟩
  · exact ⟨[], rfl, by simp⟩

/-- **A way that ends in a name leads to that name.** -/
theorem fileName?_join (base : Path) (h : path.fileName? = some name) :
    (base.join path).fileName? = some name := by
  by_cases halone : path.isAbsolute ∨ base.text.toList = []
  · have hjoin : base.join path = path := by
      have htext : path.isAbsolute ∨ base.text = "" := by
        rwa [String.toList_eq_nil_iff] at halone
      simp [join, htext]
    rwa [hjoin]
  · -- Past the directory come the components of all pieces, so the name is last among them.
    obtain ⟨hrelative, hbase⟩ := not_or.1 halone
    obtain ⟨steps, hsteps⟩ := fileName?_eq_some_iff.1 h
    obtain ⟨lead, hlead, hnone⟩ := exists_componentsOf_eq_append (segments path.text.toList)
    have hlast : ((segments path.text.toList).filterMap component?).getLast? =
        some (.normal name) := by
      have hall : (lead ++ (segments path.text.toList).filterMap component?).getLast? =
          some (.normal name) := by
        rw [← hlead, List.getLast?_eq_some_iff]
        exact ⟨steps, hsteps⟩
      rw [List.getLast?_append, Option.or_eq_some_iff] at hall
      rcases hall with hall | ⟨-, hall⟩
      · exact hall
      · exact absurd (List.mem_of_getLast? hall) (hnone name)
    obtain ⟨rest, hrest⟩ := List.getLast?_eq_some_iff.1 hlast
    rw [fileName?_eq_some_iff, components_join hbase hrelative, hrest, ← List.append_assoc]
    exact ⟨_, rfl⟩

theorem components_normalize_of_fileName? (h : path.fileName? = some name) :
    ∃ steps, path.normalize.components = steps ++ [.normal name] := by
  obtain ⟨steps, hsteps⟩ := fileName?_eq_some_iff.1 h
  refine ⟨normalComponents steps, ?_⟩
  rw [components_normalize, hsteps, normalComponents_concat]

theorem fileName?_normalize (h : path.fileName? = some name) :
    path.normalize.fileName? = some name :=
  fileName?_eq_some_iff.2 (components_normalize_of_fileName? h)

theorem isStep_of_fileName? (h : path.fileName? = some name) : (Component.normal name).IsStep := by
  obtain ⟨steps, hsteps⟩ := fileName?_eq_some_iff.1 h
  exact (isSpelled_components path).isStep_of_mem (by simp [hsteps])

theorem fileName?_eq_of_same_normalize (h : a.normalize.Same b.normalize)
    (ha : a.fileName?.isSome) (hb : b.fileName?.isSome) : a.fileName? = b.fileName? := by
  obtain ⟨name, hname⟩ := Option.isSome_iff_exists.1 ha
  obtain ⟨name', hname'⟩ := Option.isSome_iff_exists.1 hb
  rw [hname, hname', ← fileName?_normalize hname, ← fileName?_normalize hname',
    normalize_eq_of_same h]

theorem extension?_eq_of_fileName? (h : a.fileName? = b.fileName?) :
    a.extension? = b.extension? := by
  rw [extension?, extension?, h]

/-! ## Stems and extensions -/

section Names

variable {stem extension : List Char}

/-- A name is its stem, a dot and its extension. -/
theorem eq_append_of_splitExtension? {name : List Char}
    (h : splitExtension? name = some (stem, extension)) :
    name = stem ++ '.' :: extension ∧ stem ≠ [] := by
  unfold splitExtension? at h
  split at h
  · next dot c rest hdrop =>
    cases h
    -- The name is read from its end, and the reading stops at a dot.
    have hdot : dot = '.' := by
      have hhead := List.head?_dropWhile_not (· ≠ '.') name.reverse
      rw [hdrop] at hhead
      simpa using hhead
    have hname := List.takeWhile_append_dropWhile (p := (· ≠ '.')) (l := name.reverse)
    rw [hdrop, hdot, ← List.reverse_inj, List.reverse_reverse] at hname
    generalize name.reverse.takeWhile (· ≠ '.') = ending at hname ⊢
    refine ⟨?_, by simp⟩
    rw [← hname]
    simp
  · cases h

/-- The stem of a name: what comes before the dot of its extension. -/
def stemOf (name : String) : String :=
  match splitExtension? name.toList with
  | some (stem, _) => String.ofList stem
  | none => name

theorem stemOf_eq (h : splitExtension? name.toList = some (stem, extension)) :
    stemOf name = String.ofList stem := by
  rw [stemOf, h]

theorem stripName_eq (h : splitExtension? name.toList = some (stem, extension))
    (hdot : stemOf name ≠ ".") :
    stripName name =
      if Language.extensions.contains (lowercase (String.ofList extension)) then stemOf name
      else name := by
  have hstem : stem ≠ ['.'] := by
    rintro rfl
    exact hdot (stemOf_eq h)
  simp only [stripName, h, stemOf_eq h, if_neg hstem]

/-- Names with one stem and one extension are the same. -/
theorem eq_of_stripName {name' : String} {stem' : List Char}
    (h : splitExtension? name.toList = some (stem, extension))
    (h' : splitExtension? name'.toList = some (stem', extension))
    (hdot : stemOf name ≠ ".") (hdot' : stemOf name' ≠ ".")
    (hstrip : stripName name = stripName name') : name = name' := by
  rw [stripName_eq h hdot, stripName_eq h' hdot'] at hstrip
  split at hstrip
  · -- The stems agree, and so do the extensions.
    rw [stemOf_eq h, stemOf_eq h', String.ofList_inj] at hstrip
    rw [← String.toList_inj, (eq_append_of_splitExtension? h).1,
      (eq_append_of_splitExtension? h').1, hstrip]
  · exact hstrip

theorem isStep_ofList {piece : List Char} (hslash : '/' ∉ piece)
    (h : piece ∉ [[], ['.'], ['.', '.']]) : (Component.normal (String.ofList piece)).IsStep := by
  refine ⟨piece, hslash, ?_⟩
  unfold component?
  split
  · simp at h
  · simp at h
  · simp at h
  · rfl

theorem isStep_stripName (hname : (Component.normal name).IsStep)
    (h : splitExtension? name.toList = some (stem, extension))
    (hdots : stemOf name ≠ "." ∧ stemOf name ≠ "..") :
    (Component.normal (stripName name)).IsStep := by
  obtain ⟨htext, hne⟩ := eq_append_of_splitExtension? h
  obtain ⟨-, hslash⟩ : _ ∧ '/' ∉ name.toList := component?_render hname
  rw [htext] at hslash
  rw [stripName_eq h hdots.1]
  split
  · rw [stemOf_eq h] at hdots ⊢
    refine isStep_ofList (fun hmem => hslash (List.mem_append_left _ hmem)) ?_
    have hdot : stem ≠ ['.'] := fun heq => hdots.1 (heq ▸ rfl)
    have hdotdot : stem ≠ ['.', '.'] := fun heq => hdots.2 (heq ▸ rfl)
    simp [hne, hdot, hdotdot]
  · exact hname

end Names

/-! ## Canonical paths -/

/-- The stem of the name a path ends in. -/
def stem? (path : Path) : Option String :=
  path.fileName?.map stemOf

/-- The name of a path is not made of its extension and dots alone. -/
def HasPlainStem (path : Path) : Prop :=
  path.stem? ≠ some "." ∧ path.stem? ≠ some ".."

instance : Decidable path.HasPlainStem :=
  inferInstanceAs (Decidable (_ ∧ _))

theorem canonical_eq_of_same_normalize (h : a.normalize.Same b.normalize) :
    a.canonical = b.canonical := by
  rw [canonical, canonical, normalize_eq_of_same h]

theorem components_stripExtension (h : path.components = steps ++ [.normal name])
    (hstep : (Component.normal (stripName name)).IsStep) :
    path.stripExtension.components = steps ++ [.normal (stripName name)] := by
  have hsteps : IsSpelled steps := (h ▸ isSpelled_components path).of_append
  have hstrip : path.stripExtension = ofComponents (steps ++ [.normal (stripName name)]) := by
    simp [stripExtension, h]
  rw [hstrip]
  exact components_ofComponents (hsteps.append (List.forall_mem_singleton.2 hstep))

/-- A path with an extension in parts: where it leads, the name it ends in, and its canonical
path. -/
theorem exists_canonical_parts {extension : String} (h : path.extension? = some extension)
    (hstem : path.HasPlainStem) :
    ∃ steps name stem, path.normalize.components = steps ++ [.normal name] ∧
      splitExtension? name.toList = some (stem, extension.toList) ∧ stemOf name ≠ "." ∧
      path.canonical.components = steps ++ [.normal (stripName name)] := by
  obtain ⟨name, hname, h⟩ := Option.bind_eq_some_iff.1 h
  obtain ⟨⟨stem, rest⟩, hsplit, hextension⟩ := Option.bind_eq_some_iff.1 h
  obtain rfl : String.ofList rest = extension := Option.some.inj hextension
  obtain ⟨steps, hsteps⟩ := components_normalize_of_fileName? hname
  simp only [HasPlainStem, stem?, hname, Option.map_some, Option.some.injEq, ne_eq] at hstem
  refine ⟨steps, name, stem, hsteps, ?_, hstem.1, ?_⟩
  · rw [String.toList_ofList]
    exact hsplit
  · exact components_stripExtension hsteps
      (isStep_stripName (isStep_of_fileName? hname) hsplit hstem)

/-- **The canonical path and the extension of a file tell where it lies.** -/
theorem same_normalize_of_canonical {extension : String} (ha : a.extension? = some extension)
    (hb : b.extension? = some extension) (hastem : a.HasPlainStem) (hbstem : b.HasPlainStem)
    (h : a.canonical.Same b.canonical) : a.normalize.Same b.normalize := by
  obtain ⟨steps, name, stem, hsteps, hsplit, hdot, hcanonical⟩ := exists_canonical_parts ha hastem
  obtain ⟨steps', name', stem', hsteps', hsplit', hdot', hcanonical'⟩ :=
    exists_canonical_parts hb hbstem
  rw [Same, hcanonical, hcanonical'] at h
  obtain ⟨rfl, hlast⟩ := List.append_inj' h rfl
  have hstrip : stripName name = stripName name' := by simpa using hlast
  rw [Same, hsteps, hsteps', eq_of_stripName hsplit hsplit' hdot hdot' hstrip]

end Path

end DeadCode
