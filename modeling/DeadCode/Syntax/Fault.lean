import DeadCode.Syntax.Node

/-! # Syntax errors

A tree in error has nodes that stand for misplaced text and nodes put in for missing text. The
search for the first of them enters only subtrees that are known to hold one. -/

namespace DeadCode

namespace Node

/-- Whether a node is itself a fault: misplaced text, or text that is missing. -/
def isFault (n : Node) : Bool :=
  n.flags.isError || n.flags.isMissing

theorem sizes_append (a b : List Node) : sizes (a ++ b) = sizes a + sizes b := by
  induction a with
  | nil => simp [sizes]
  | cons n rest ih => simp only [List.cons_append, sizes, ih]; omega

/-- The first fault among the pending nodes, depth first and in order; only nodes flagged to hold
one are entered. -/
def firstFault? : (pending : List Node) → Option Node
  | [] => none
  | n :: rest =>
    if n.isFault then some n
    else if n.flags.hasError then firstFault? (n.children ++ rest)
    else firstFault? rest
termination_by pending => sizes pending
decreasing_by
  · rw [sizes_append, sizes, size_eq]; omega
  · rw [sizes, size_eq]; omega

/-- The line of the first fault of a tree, or of the tree itself if it has none. -/
def faultLine (source : String) (root : Node) : Nat :=
  (((firstFault? [root]).getD root).location source).line

end Node

end DeadCode
