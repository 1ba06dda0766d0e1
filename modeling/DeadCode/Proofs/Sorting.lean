import DeadCode.Sorting
import Mathlib.Data.List.Basic

/-! # Sorting does not depend on the order of the items

Items that differ in the order can be inserted in any order. So a sorted list does not depend on how
the sorted items stood before, as long as items that are level keep theirs. -/

namespace DeadCode

variable {α : Type} {cmp : α → α → Ordering} [Std.TransCmp cmp] {le : α → α → Bool} {a b : α}
  {xs ys : List α}

theorem le_and_not_le_or (hle : ∀ x y, le x y = (cmp x y).isLE) (h : cmp a b ≠ .eq) :
    (le a b ∧ ¬ le b a) ∨ (le b a ∧ ¬ le a b) := by
  have hswap : cmp b a = (cmp a b).swap := Std.OrientedCmp.eq_swap
  rw [hle, hle, hswap]
  cases hcmp : cmp a b with
  | lt => exact .inl ⟨rfl, Bool.false_ne_true⟩
  | eq => exact absurd hcmp h
  | gt => exact .inr ⟨rfl, Bool.false_ne_true⟩

theorem insertBy_comm_of_le (hle : ∀ x y, le x y = (cmp x y).isLE) (hab : le a b) (hba : ¬ le b a)
    (items : List α) :
    insertBy le a (insertBy le b items) = insertBy le b (insertBy le a items) := by
  -- The items need not be sorted: what stops the second one stops the first one too.
  induction items with
  | nil => simp [insertBy, hab, hba]
  | cons c rest ih =>
    by_cases hbc : le b c
    · have hac : le a c := by
        rw [hle] at hab hbc ⊢
        exact Std.TransCmp.isLE_trans hab hbc
      simp [insertBy, hab, hba, hbc, hac]
    · by_cases hac : le a c
      · simp [insertBy, hba, hbc, hac]
      · simp [insertBy, hbc, hac, ih]

theorem insertBy_comm (hle : ∀ x y, le x y = (cmp x y).isLE) (h : cmp a b ≠ .eq) (items : List α) :
    insertBy le a (insertBy le b items) = insertBy le b (insertBy le a items) := by
  obtain ⟨hab, hba⟩ | ⟨hba, hab⟩ := le_and_not_le_or hle h
  · exact insertBy_comm_of_le hle hab hba items
  · exact (insertBy_comm_of_le hle hba hab items).symm

theorem insertBy_foldr (hle : ∀ x y, le x y = (cmp x y).isLE) (h : ∀ y ∈ ys, cmp a y ≠ .eq)
    (items : List α) :
    insertBy le a (ys.foldr (insertBy le) items) =
      ys.foldr (insertBy le) (insertBy le a items) := by
  induction ys with
  | nil => rfl
  | cons y rest ih =>
    obtain ⟨hy, hrest⟩ := List.forall_mem_cons.1 h
    rw [List.foldr_cons, List.foldr_cons, insertBy_comm hle hy, ih hrest]

theorem foldr_insertBy_comm (hle : ∀ x y, le x y = (cmp x y).isLE)
    (h : ∀ x ∈ xs, ∀ y ∈ ys, cmp x y ≠ .eq) (items : List α) :
    xs.foldr (insertBy le) (ys.foldr (insertBy le) items) =
      ys.foldr (insertBy le) (xs.foldr (insertBy le) items) := by
  induction xs with
  | nil => rfl
  | cons x rest ih =>
    obtain ⟨hx, hrest⟩ := List.forall_mem_cons.1 h
    rw [List.foldr_cons, List.foldr_cons, ih hrest, insertBy_foldr hle hx]

theorem sortBy_append (le : α → α → Bool) (xs ys : List α) :
    sortBy le (xs ++ ys) = xs.foldr (insertBy le) (sortBy le ys) := by
  induction xs with
  | nil => rfl
  | cons x rest ih => rw [List.cons_append, sortBy, ih, List.foldr_cons]

/-- **Blocks can change places**: sorting their items gives the same if no two items of different
blocks are level. -/
theorem sortBy_flatten_of_perm (hle : ∀ x y, le x y = (cmp x y).isLE)
    {blocks blocks' : List (List α)} (hperm : blocks.Perm blocks')
    (hapart : blocks.Pairwise fun xs ys => ∀ x ∈ xs, ∀ y ∈ ys, cmp x y ≠ .eq) :
    sortBy le blocks.flatten = sortBy le blocks'.flatten := by
  induction hperm with
  | nil => rfl
  | cons block _ ih =>
    rw [List.flatten_cons, List.flatten_cons, sortBy_append, sortBy_append,
      ih (List.pairwise_cons.1 hapart).2]
  | swap xs ys rest =>
    have hdiffer := (List.pairwise_cons.1 hapart).1 xs List.mem_cons_self
    simp only [List.flatten_cons, sortBy_append, foldr_insertBy_comm hle hdiffer]
  | trans hfirst _ ih ih' =>
    refine (ih hapart).trans (ih' (hapart.perm hfirst ?_))
    intro xs ys hdiffer y hy x hx heq
    exact hdiffer x hx y hy (Std.OrientedCmp.eq_symm heq)

/-- **Sorting does not depend on the order before.** -/
theorem sortBy_of_perm (hle : ∀ x y, le x y = (cmp x y).isLE) (hperm : xs.Perm ys)
    (hapart : xs.Pairwise fun x y => cmp x y ≠ .eq) : sortBy le xs = sortBy le ys := by
  have hflatten (zs : List α) : (zs.map ([·])).flatten = zs := by
    simp [← List.flatMap_def]
  rw [← hflatten xs, ← hflatten ys]
  refine sortBy_flatten_of_perm hle (hperm.map _) (List.pairwise_map.2 (hapart.imp ?_))
  intro x y hxy x' hx' y' hy'
  rw [List.mem_singleton.1 hx', List.mem_singleton.1 hy']
  exact hxy

/-! ## Sorted items -/

theorem perm_insertBy (le : α → α → Bool) (item : α) (items : List α) :
    (insertBy le item items).Perm (item :: items) := by
  induction items with
  | nil => exact .refl _
  | cons other rest ih =>
    rw [insertBy]
    split
    · exact .refl _
    · exact (ih.cons other).trans (.swap item other rest)

/-- Sorting keeps the elements. -/
theorem perm_sortBy (le : α → α → Bool) (items : List α) : (sortBy le items).Perm items := by
  induction items with
  | nil => exact .refl _
  | cons item rest ih => exact (perm_insertBy le item _).trans (ih.cons item)

theorem sortBy_eq_self (h : xs.Pairwise fun x y => le x y) : sortBy le xs = xs := by
  induction xs with
  | nil => rfl
  | cons x rest ih =>
    obtain ⟨hfirst, hrest⟩ := List.pairwise_cons.1 h
    rw [sortBy, ih hrest]
    cases rest with
    | nil => rfl
    | cons y rest => rw [insertBy, if_pos (hfirst y List.mem_cons_self)]

theorem pairwise_insertBy (hle : ∀ x y, le x y = (cmp x y).isLE) (item : α) {items : List α}
    (h : items.Pairwise fun x y => le x y) :
    (insertBy le item items).Pairwise fun x y => le x y := by
  induction items with
  | nil => exact List.pairwise_singleton _ _
  | cons other rest ih =>
    obtain ⟨hother, hrest⟩ := List.pairwise_cons.1 h
    rw [insertBy]
    split
    · next hitem =>
      refine List.pairwise_cons.2 ⟨fun y hy => ?_, h⟩
      rcases List.mem_cons.1 hy with rfl | hy
      · exact hitem
      · have hy' := hother y hy
        rw [hle] at hitem hy' ⊢
        exact Std.TransCmp.isLE_trans hitem hy'
    · next hitem =>
      refine List.pairwise_cons.2 ⟨fun y hy => ?_, ih hrest⟩
      rcases mem_insertBy.1 hy with rfl | hy
      · -- What may not precede the other one has to follow it.
        have hswap : cmp other y = (cmp y other).swap := Std.OrientedCmp.eq_swap
        rw [hle] at hitem
        rw [hle, hswap]
        cases hcmp : cmp y other <;> simp_all
      · exact hother y hy

/-- Sorted elements are in order. -/
theorem pairwise_sortBy (hle : ∀ x y, le x y = (cmp x y).isLE) (items : List α) :
    (sortBy le items).Pairwise fun x y => le x y := by
  induction items with
  | nil => exact .nil
  | cons item rest ih => exact pairwise_insertBy hle item ih

/-! ## Renamed items -/

section Map

variable {β : Type} {le' : β → β → Bool} {f : α → β}

theorem insertBy_map (hle : ∀ x y, le' (f x) (f y) = le x y) (item : α) (items : List α) :
    insertBy le' (f item) (items.map f) = (insertBy le item items).map f := by
  induction items with
  | nil => rfl
  | cons other rest ih =>
    rw [List.map_cons, insertBy, insertBy, hle]
    split
    · rfl
    · rw [ih, List.map_cons]

theorem sortBy_map (hle : ∀ x y, le' (f x) (f y) = le x y) (items : List α) :
    sortBy le' (items.map f) = (sortBy le items).map f := by
  induction items with
  | nil => rfl
  | cons item rest ih => rw [List.map_cons, sortBy, sortBy, ih, insertBy_map hle]

end Map

end DeadCode
