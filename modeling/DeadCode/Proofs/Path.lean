import DeadCode.Language
import Mathlib.Data.List.Basic

/-! # Paths and their components

Two spellings of a path are the same if they stand for the same components. This file says which
lists of components a spelling can stand for, how to spell such a list, and what the components of a
path inside a directory are. -/

namespace DeadCode

/-! ## The order of paths -/

namespace Component

/-- The place of a kind of component in the order. -/
def rank : Component → Nat
  | root => 0
  | current => 1
  | parent => 2
  | normal _ => 3

/-- Components are compared by rank and then by text. -/
theorem compare_eq_compareLex : (compare : Component → Component → Ordering) =
    compareLex (compareOn rank) (compareOn render) := by
  funext a b
  cases a <;> cases b <;> first | rfl | exact Ordering.then_eq

instance : Std.TransOrd Component := by
  rw [Std.TransOrd, compare_eq_compareLex]
  infer_instance

instance : Std.LawfulEqOrd Component where
  eq_of_compare := by
    intro a b h
    rw [compare_eq_compareLex] at h
    obtain ⟨hrank, hrender⟩ := compareLex_eq_eq.1 h
    have hrank := Std.LawfulEqOrd.eq_of_compare hrank
    have hrender := Std.LawfulEqOrd.eq_of_compare hrender
    cases a <;> cases b <;> simp_all [rank, render]

end Component

namespace Path

variable {a b : Path}

instance : Std.TransCmp order :=
  inferInstanceAs (Std.TransCmp (compareOn components))

/-- Paths are ordered as equal if they are the same. -/
theorem order_eq_eq_iff : a.order b = .eq ↔ a.Same b := by
  rw [order, Std.LawfulEqCmp.compare_eq_iff_eq, Same]

/-! ## The pieces of a spelling -/

theorem segments_ne_nil (text : List Char) : segments text ≠ [] := by
  cases text with
  | nil => simp [segments]
  | cons c rest =>
    rw [segments]
    split
    · simp
    · split <;> simp

/-- A slash separates segments. -/
theorem segments_append_slash (before after : List Char) :
    segments (before ++ '/' :: after) = segments before ++ segments after := by
  induction before with
  | nil => simp [segments]
  | cons c rest ih =>
    rw [List.cons_append, segments, segments, ih]
    split
    · rfl
    · cases hrest : segments rest with
      | nil => exact absurd hrest (segments_ne_nil rest)
      | cons piece pieces => rfl

theorem segments_of_not_mem {piece : List Char} (h : '/' ∉ piece) : segments piece = [piece] := by
  induction piece with
  | nil => rfl
  | cons c rest ih =>
    obtain ⟨hc, hrest⟩ := List.ne_and_not_mem_of_not_mem_cons h
    rw [segments, if_neg (Ne.symm hc), ih hrest]

/-- No segment has a slash in it. -/
theorem not_mem_of_mem_segments {text piece : List Char} (h : piece ∈ segments text) :
    '/' ∉ piece := by
  induction text generalizing piece with
  | nil => simp_all [segments]
  | cons c rest ih =>
    rw [segments] at h
    split at h
    · rcases List.mem_cons.1 h with rfl | h
      · exact List.not_mem_nil
      · exact ih h
    · next hc =>
      cases hrest : segments rest with
      | nil => exact absurd hrest (segments_ne_nil rest)
      | cons first pieces =>
        rw [hrest] at h ih
        rcases List.mem_cons.1 h with rfl | h
        · exact List.not_mem_cons_of_ne_of_not_mem (Ne.symm hc) (ih List.mem_cons_self)
        · exact ih (List.mem_cons_of_mem _ h)

/-- Joined segments are read back. -/
theorem segments_intercalate {pieces : List (List Char)} (hne : pieces ≠ [])
    (h : ∀ piece ∈ pieces, '/' ∉ piece) : segments (['/'].intercalate pieces) = pieces := by
  induction pieces with
  | nil => exact absurd rfl hne
  | cons piece rest ih =>
    have hpiece := segments_of_not_mem (h piece List.mem_cons_self)
    cases rest with
    | nil => rw [List.intercalate_singleton, hpiece]
    | cons next rest =>
      have hrest := ih (List.cons_ne_nil _ _) fun p hp => h p (List.mem_cons_of_mem _ hp)
      rw [List.intercalate_cons_cons, List.append_assoc, List.singleton_append,
        segments_append_slash, hpiece, hrest]
      rfl

/-! ## Walking from a directory -/

theorem componentsOf_append {pieces : List (List Char)} (hne : pieces ≠ []) (hempty : pieces ≠ [[]])
    (more : List (List Char)) :
    componentsOf (pieces ++ more) = componentsOf pieces ++ more.filterMap component? := by
  match pieces with
  | [] => exact absurd rfl hne
  | [[]] => exact absurd rfl hempty
  | [] :: piece :: rest =>
    exact congrArg (Component.root :: ·) (List.filterMap_append (l := piece :: rest))
  | (c :: cs) :: rest =>
    by_cases hdot : c :: cs = ['.']
    · rw [hdot]
      exact congrArg (Component.current :: ·) List.filterMap_append
    · have hplain (pieces : List (List Char)) :
          componentsOf ((c :: cs) :: pieces) = ((c :: cs) :: pieces).filterMap component? := by
        simp [componentsOf, hdot]
      rw [List.cons_append, hplain, hplain, ← List.cons_append, List.filterMap_append]

theorem eq_nil_of_segments {text : List Char} (h : segments text = [[]]) : text = [] := by
  cases text with
  | nil => rfl
  | cons c rest =>
    rw [segments] at h
    split at h
    · exact absurd (List.cons.inj h).2 (segments_ne_nil rest)
    · split at h <;> simp at h

/-- What follows a slash adds components. -/
theorem componentsOf_append_slash {before : List Char} (h : before ≠ []) (after : List Char) :
    componentsOf (segments (before ++ '/' :: after)) =
      componentsOf (segments before) ++ (segments after).filterMap component? := by
  rw [segments_append_slash]
  exact componentsOf_append (segments_ne_nil before) (fun hnil => h (eq_nil_of_segments hnil)) _

theorem componentsOf_slash (after : List Char) :
    componentsOf (segments ('/' :: after)) = .root :: (segments after).filterMap component? := by
  cases hafter : segments after with
  | nil => exact absurd hafter (segments_ne_nil after)
  | cons piece pieces => simp [segments, hafter, componentsOf]

/-- **Walking from a directory** appends the components that the pieces of the way stand for. -/
theorem components_join {base other : Path} (hbase : base.text.toList ≠ [])
    (hother : ¬ other.isAbsolute) :
    (base.join other).components =
      base.components ++ (segments other.text.toList).filterMap component? := by
  have hempty : base.text.isEmpty = false := by
    rw [← Bool.not_eq_true, String.isEmpty_iff]
    intro h
    exact hbase (by rw [h]; rfl)
  have hjoin : base.join other = if base.text.toList.getLast? = some '/' then
      ⟨base.text ++ other.text⟩ else ⟨base.text ++ "/" ++ other.text⟩ := by
    simp [join, hother, hempty]
  rw [hjoin]
  split
  · next hslash =>
    -- A directory that ends in a slash has no piece after it.
    obtain ⟨before, hbefore⟩ := List.getLast?_eq_some_iff.1 hslash
    simp only [components, String.toList_append, hbefore, List.append_assoc, List.singleton_append]
    cases before with
    | nil =>
      rw [List.nil_append, List.nil_append, componentsOf_slash, componentsOf_slash]
      simp [segments, component?]
    | cons c rest =>
      rw [componentsOf_append_slash (List.cons_ne_nil c rest),
        componentsOf_append_slash (List.cons_ne_nil c rest)]
      simp [segments, component?]
  · have htext : (base.text ++ "/" ++ other.text).toList =
        base.text.toList ++ '/' :: other.text.toList := by simp
    rw [components, htext, componentsOf_append_slash hbase]
    rfl

/-! ## Spelling components -/

end Path

/-- A component that can stand anywhere in a path: some piece of a spelling stands for it. -/
def Component.IsStep (component : Component) : Prop :=
  ∃ piece, '/' ∉ piece ∧ Path.component? piece = some component

namespace Path

variable {step : Component} {steps : List Component}

/-- A component is written as it was read. -/
theorem toList_render_of_component? {piece : List Char} (h : component? piece = some step) :
    step.render.toList = piece := by
  unfold component? at h
  split at h
  · cases h
  · cases h
  · cases h
    rfl
  · cases h
    exact String.toList_ofList

/-- A step is read as it is written. -/
theorem component?_render (h : step.IsStep) :
    component? step.render.toList = some step ∧ '/' ∉ step.render.toList := by
  obtain ⟨piece, hslash, hpiece⟩ := h
  rw [toList_render_of_component? hpiece]
  exact ⟨hpiece, hslash⟩

theorem filterMap_component?_render (h : ∀ c ∈ steps, c.IsStep) :
    (steps.map (·.render.toList)).filterMap component? = steps := by
  have hsome : ∀ c ∈ steps, (component? ∘ (·.render.toList)) c = some c :=
    fun c hc => (component?_render (h c hc)).1
  rw [List.filterMap_map, List.filterMap_congr hsome]
  exact List.filterMap_some

theorem not_mem_render (h : ∀ c ∈ steps, c.IsStep) :
    ∀ piece ∈ steps.map (·.render.toList), '/' ∉ piece := by
  intro piece hpiece
  obtain ⟨c, hc, rfl⟩ := List.mem_map.1 hpiece
  exact (component?_render (h c hc)).2

/-- The lists of components that a spelling can stand for: the root, and a step in place, can only
come first. -/
def IsSpelled : List Component → Prop
  | .root :: rest | .current :: rest => ∀ c ∈ rest, c.IsStep
  | steps => ∀ c ∈ steps, c.IsStep

theorem isSpelled_of_isStep (h : ∀ c ∈ steps, c.IsStep) : IsSpelled steps := by
  unfold IsSpelled
  split
  · exact fun c hc => h c (List.mem_cons_of_mem _ hc)
  · exact fun c hc => h c (List.mem_cons_of_mem _ hc)
  · exact h

/-- The components of a path can be spelled. -/
theorem isSpelled_components (path : Path) : IsSpelled path.components := by
  have hstep {pieces : List (List Char)} (hsub : pieces ⊆ segments path.text.toList) :
      ∀ c ∈ pieces.filterMap component?, c.IsStep := by
    intro c hc
    obtain ⟨piece, hpiece, hcomponent⟩ := List.mem_filterMap.1 hc
    exact ⟨piece, not_mem_of_mem_segments (hsub hpiece), hcomponent⟩
  unfold components componentsOf
  split
  · next heq => exact hstep (heq ▸ List.subset_cons_self _ _)
  · next heq => exact hstep (heq ▸ List.subset_cons_self _ _)
  · exact isSpelled_of_isStep (hstep (List.Subset.refl _))

theorem IsSpelled.of_append {more : List Component} (h : IsSpelled (steps ++ more)) :
    IsSpelled steps := by
  match steps with
  | [] => exact List.forall_mem_nil _
  | .root :: rest => exact fun c hc => h c (List.mem_append_left _ hc)
  | .current :: rest => exact fun c hc => h c (List.mem_append_left _ hc)
  | .parent :: rest => exact fun c hc => h c (List.mem_append_left _ hc)
  | .normal name :: rest => exact fun c hc => h c (List.mem_append_left _ hc)

theorem toList_intercalate (components : List Component) :
    ("/".intercalate (components.map Component.render)).toList =
      ['/'].intercalate (components.map (·.render.toList)) := by
  rw [String.toList_intercalate, List.map_map]
  rfl

theorem componentsOf_intercalate (hslash : '/' ∉ step.render.toList) (hne : step.render.toList ≠ [])
    (h : ∀ c ∈ steps, c.IsStep) :
    componentsOf (segments (['/'].intercalate ((step :: steps).map (·.render.toList)))) =
      componentsOf [step.render.toList] ++ steps := by
  rw [segments_intercalate (by simp)]
  · have happend : componentsOf ([step.render.toList] ++ steps.map (·.render.toList)) =
        componentsOf [step.render.toList] ++ (steps.map (·.render.toList)).filterMap component? :=
      componentsOf_append (by simp) (by simp [hne]) _
    rwa [filterMap_component?_render h] at happend
  · rw [List.map_cons, List.forall_mem_cons]
    exact ⟨hslash, not_mem_render h⟩

theorem componentsOf_render (h : step.IsStep) :
    step.render.toList ≠ [] ∧ componentsOf [step.render.toList] = [step] := by
  obtain ⟨hstep, -⟩ := component?_render h
  generalize step.render.toList = piece at hstep
  have hnil : piece ≠ [] := fun heq => nomatch heq ▸ hstep
  have hdot : piece ≠ ['.'] := fun heq => nomatch heq ▸ hstep
  exact ⟨hnil, by simp [componentsOf, hdot, hstep]⟩

theorem ofComponents_of_ne_root (h : step ≠ .root) :
    ofComponents (step :: steps) = ⟨"/".intercalate ((step :: steps).map Component.render)⟩ := by
  cases step <;> first | exact absurd rfl h | rfl

/-- **The plain spelling of components stands for them.** -/
theorem components_ofComponents (h : IsSpelled steps) :
    (ofComponents steps).components = steps := by
  match steps with
  | [] => rfl
  | .root :: rest =>
    have htext : (ofComponents (.root :: rest)).text.toList =
        '/' :: ['/'].intercalate (rest.map (·.render.toList)) := by
      rw [← toList_intercalate]
      exact String.toList_append
    rw [components, htext, componentsOf_slash]
    cases rest with
    | nil => rfl
    | cons step rest =>
      rw [segments_intercalate (by simp) (not_mem_render h), filterMap_component?_render h]
  | .current :: rest =>
    rw [components, ofComponents_of_ne_root (by simp), toList_intercalate,
      componentsOf_intercalate (by decide) (by decide) h]
    rfl
  | .parent :: rest | .normal name :: rest =>
    obtain ⟨hstep, hrest⟩ := List.forall_mem_cons.1 h
    obtain ⟨hne, hcomponents⟩ := componentsOf_render hstep
    rw [components, ofComponents_of_ne_root (by simp), toList_intercalate,
      componentsOf_intercalate (component?_render hstep).2 hne hrest, hcomponents]
    rfl

/-! ## Names in a directory -/

/-- The child of a directory has one component more. -/
theorem components_child {base : Path} {name : String} (h : (Component.normal name).IsStep) :
    (base.child name).components = base.components ++ [.normal name] := by
  obtain ⟨hname, hslash⟩ : component? name.toList = some (.normal name) ∧ '/' ∉ name.toList :=
    component?_render h
  have hrelative : ¬ (Path.mk name).isAbsolute := by
    rw [isAbsolute, decide_eq_true_eq]
    exact fun hhead => hslash (List.mem_of_mem_head? hhead)
  by_cases hbase : base.text.toList = []
  · -- Nothing comes before the name.
    have htext : base.text = "" := String.toList_eq_nil_iff.1 hbase
    have hchild : base.child name = ⟨name⟩ := by simp [child, join, htext]
    have hcomponents : componentsOf [name.toList] = [.normal name] := (componentsOf_render h).2
    simp only [hchild, components, hbase, segments_of_not_mem hslash, hcomponents]
    rfl
  · rw [child, components_join hbase hrelative]
    simp only [segments_of_not_mem hslash, List.filterMap_cons_some hname, List.filterMap_nil]

/-- The file name is the last component. -/
theorem fileName?_eq_some_iff {path : Path} {name : String} :
    path.fileName? = some name ↔ ∃ steps, path.components = steps ++ [.normal name] := by
  rw [← List.getLast?_eq_some_iff, fileName?]
  constructor
  · intro h
    split at h
    · next hlast =>
      cases h
      exact hlast
    · cases h
  · intro h
    rw [h]

/-- The parent lacks the last component. -/
theorem parent?_of_components {path : Path} {name : String}
    (h : path.components = steps ++ [.normal name]) :
    ∃ directory, path.parent? = some directory ∧ directory.components = steps := by
  have hspelled : IsSpelled steps := (h ▸ isSpelled_components path).of_append
  refine ⟨ofComponents steps, ?_, components_ofComponents hspelled⟩
  rw [parent?, h]
  simp

/-- Paths that are the same have one canonical form. -/
theorem canonical_eq_of_same {a b : Path} (h : a.Same b) : a.canonical = b.canonical := by
  rw [canonical, canonical, normalize, normalize, h]

end Path

end DeadCode
