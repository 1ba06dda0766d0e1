/-! # Stable sorting

`sortBy le items` sorts by inserting the items one after the other, the last one first, each before
the first item that it may precede. Items that may precede each other keep their order. -/

namespace DeadCode

/-- An item put before the first one that it may precede. -/
def insertBy {α : Type} (le : α → α → Bool) (item : α) : List α → List α
  | [] => [item]
  | other :: rest => if le item other then item :: other :: rest else other :: insertBy le item rest

/-- The items in order; equal ones stay as they stand. -/
def sortBy {α : Type} (le : α → α → Bool) : List α → List α
  | [] => []
  | item :: rest => insertBy le item (sortBy le rest)

theorem mem_insertBy {α : Type} {le : α → α → Bool} {a item : α} {items : List α} :
    a ∈ insertBy le item items ↔ a = item ∨ a ∈ items := by
  induction items with
  | nil => simp [insertBy]
  | cons other rest ih =>
    rw [insertBy]
    split
    · simp
    · rw [List.mem_cons, ih, List.mem_cons]
      exact or_left_comm

theorem mem_sortBy {α : Type} {le : α → α → Bool} {a : α} {items : List α} :
    a ∈ sortBy le items ↔ a ∈ items := by
  induction items with
  | nil => simp [sortBy]
  | cons item rest ih => rw [sortBy, mem_insertBy, ih, List.mem_cons]

end DeadCode
