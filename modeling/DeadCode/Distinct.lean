/-! # First occurrences

`distinctBy key items` keeps of each key the first item that has it, in the order of `items`. -/

namespace DeadCode

/-- The items that are the first with their key. -/
def distinctBy {α β : Type} [DecidableEq β] (key : α → β) : List α → List α
  | [] => []
  | item :: rest => item :: (distinctBy key rest).filter fun other => key other ≠ key item

/-- The items without repetitions; the first of each stays. -/
def distinct {α : Type} [DecidableEq α] (items : List α) : List α :=
  distinctBy id items

end DeadCode
