import DeadCode.Module.Basic
import DeadCode.Proofs.Syntax.Nodes
import Mathlib.Logic.Function.Iterate

/-! # The first fault of a syntax tree

The search for a fault keeps the nodes that it still has to look at on a stack. It pushes the
children of a node only if the node is flagged, so it never sees most of a tree. Where the flags
agree with the faults, what it passes over holds none. -/

namespace DeadCode

namespace Node

variable {root n c : Node}

/-! ## The stack -/

/-- How far a search has come: it has a stack of nodes to look at, the top one last, or it is over
with what it found. -/
inductive Search where
  | pending (stack : List Node)
  | done (found : Option Node)

namespace Search

/-- One turn of a search takes the top off the stack. A fault ends the search, a flagged node leaves
its children on the stack, the first one on top, and any other node is passed over. -/
def turn : Search → Search
  | done found => done found
  | pending stack =>
    match stack.getLast? with
    | none => done none
    | some n =>
      if n.isFault then done (some n)
      else if n.flags.hasError then pending (stack.dropLast ++ n.children.reverse)
      else pending stack.dropLast

/-- One turn of the search. -/
theorem turn_push (stack : List Node) (n : Node) :
    turn (pending (stack ++ [n])) =
      if n.isFault then done (some n)
      else if n.flags.hasError then pending (stack ++ n.children.reverse)
      else pending stack := by
  simp [turn]

theorem iterate_turn_done (found : Option Node) (turns : Nat) :
    turn^[turns] (done found) = done found :=
  Function.iterate_fixed rfl turns

/-- **A search ends**, after at most one turn more than there are nodes in the trees on its stack. -/
theorem iterate_turn_pending (ns : List Node) {turns : Nat} (h : sizes ns < turns) :
    turn^[turns] (pending ns.reverse) = done (firstFault? ns) := by
  -- The recursion of the search, its pending nodes from the top of the stack down.
  induction ns using firstFault?.induct generalizing turns with
  | case1 =>
    obtain ⟨turns, rfl⟩ := Nat.exists_eq_add_of_lt h
    rw [Function.iterate_succ_apply, firstFault?]
    exact iterate_turn_done none _
  | case2 n rest hfault =>
    obtain ⟨turns, rfl⟩ := Nat.exists_eq_add_of_lt h
    rw [Function.iterate_succ_apply, List.reverse_cons, turn_push, if_pos hfault, firstFault?,
      if_pos hfault]
    exact iterate_turn_done (some n) _
  | case3 n rest hfault hflag ih =>
    obtain ⟨turns, rfl⟩ := Nat.exists_eq_add_of_lt h
    rw [Function.iterate_succ_apply, List.reverse_cons, turn_push, if_neg hfault, if_pos hflag,
      ← List.reverse_append, firstFault?, if_neg hfault, if_pos hflag]
    exact ih (by rw [sizes_append, sizes, size_eq]; omega)
  | case4 n rest hfault hflag ih =>
    obtain ⟨turns, rfl⟩ := Nat.exists_eq_add_of_lt h
    rw [Function.iterate_succ_apply, List.reverse_cons, turn_push, if_neg hfault, if_neg hflag,
      firstFault?, if_neg hfault, if_neg hflag]
    exact ih (by rw [sizes, size_eq]; omega)

end Search

/-! ## Flags -/

/-- Every node of a tree is flagged exactly if it is a fault or has a flagged child. -/
def FlagsAgree (root : Node) : Prop :=
  ∀ n ∈ root.nodes, n.flags.hasError ↔ n.isFault ∨ ∃ c ∈ n.children, c.flags.hasError

instance (root : Node) : Decidable root.FlagsAgree :=
  inferInstanceAs (Decidable (∀ n ∈ root.nodes,
    n.flags.hasError ↔ n.isFault ∨ ∃ c ∈ n.children, c.flags.hasError))

theorem FlagsAgree.of_child (h : n.FlagsAgree) (hc : c ∈ n.children) : c.FlagsAgree :=
  fun m hm => h m (mem_nodes_trans hm (child_mem_nodes hc))

/-- **A node is flagged exactly if there is a fault in its tree.** -/
theorem FlagsAgree.hasError_iff (h : n.FlagsAgree) :
    n.flags.hasError ↔ ∃ m ∈ n.nodes, m.isFault := by
  induction n using childInduction with
  | step n ih =>
    have hchildren : (∃ c ∈ n.children, c.flags.hasError) ↔ ∃ m ∈ n.descendants, m.isFault := by
      constructor
      · rintro ⟨c, hc, hflag⟩
        obtain ⟨m, hm, hfault⟩ := (ih c hc (h.of_child hc)).1 hflag
        exact ⟨m, mem_descendants_of_child hc hm, hfault⟩
      · rintro ⟨m, hm, hfault⟩
        obtain ⟨c, hc, hmc⟩ := mem_descendants_iff.1 hm
        exact ⟨c, hc, (ih c hc (h.of_child hc)).2 ⟨m, hmc, hfault⟩⟩
    rw [h n n.self_mem_nodes, hchildren, nodes_eq, List.exists_mem_cons_iff]

/-- **What is still to be found is the first fault** of the pending trees, a node before the nodes
below it. -/
theorem firstFault?_eq_find? {pending : List Node} (h : ∀ n ∈ pending, n.FlagsAgree) :
    firstFault? pending = (pending.flatMap nodes).find? isFault := by
  induction pending using firstFault?.induct with
  | case1 => rw [firstFault?, List.flatMap_nil, List.find?_nil]
  | case2 n rest hfault =>
    rw [firstFault?, if_pos hfault, List.flatMap_cons, nodes_eq, List.cons_append,
      List.find?_cons_of_pos hfault]
  | case3 n rest hfault hflag ih =>
    obtain ⟨hn, hrest⟩ := List.forall_mem_cons.1 h
    have hnext : ∀ m ∈ n.children ++ rest, m.FlagsAgree := by
      intro m hm
      rcases List.mem_append.1 hm with hm | hm
      · exact hn.of_child hm
      · exact hrest m hm
    rw [firstFault?, if_neg hfault, if_pos hflag, ih hnext, List.flatMap_append, List.flatMap_cons,
      nodes_eq, List.cons_append, List.find?_cons_of_neg hfault, descendants]
  | case4 n rest hfault hflag ih =>
    obtain ⟨hn, hrest⟩ := List.forall_mem_cons.1 h
    -- The whole tree of a node without a flag can be passed over.
    have hnone : n.nodes.find? isFault = none :=
      List.find?_eq_none.2 fun m hm hfault => hflag (hn.hasError_iff.2 ⟨m, hm, hfault⟩)
    rw [firstFault?, if_neg hfault, if_neg hflag, ih hrest, List.flatMap_cons, List.find?_append,
      hnone, Option.none_or]

/-! ## The line of a syntax error -/

/-- **The search of a flagged tree ends at its first fault**, a node before the nodes below it and
all children in order, though it passes over what is not flagged. The file is reported as malformed
at the row of the fault, counted from one. -/
theorem exists_first_fault (source : String) (h : root.FlagsAgree) (hroot : root.flags.hasError) :
    ∃ fault, root.nodes.find? isFault = some fault ∧
      (∀ turns, root.size < turns → Search.turn^[turns] (.pending [root]) = .done (some fault)) ∧
      root.faultLine source = (fault.position source).1 + 1 ∧
      ∀ path language ambient, SourceModule.analyze path source language (some root) ambient =
        .error (.malformed path ((fault.position source).1 + 1)) := by
  obtain ⟨m, hm, hfault⟩ := h.hasError_iff.1 hroot
  obtain ⟨fault, hfirst⟩ := Option.isSome_iff_exists.1 (List.find?_isSome.2 ⟨m, hm, hfault⟩)
  have hfound : firstFault? [root] = some fault := by
    rw [firstFault?_eq_find? (by simpa using h), List.flatMap_singleton, hfirst]
  have hline : root.faultLine source = (fault.position source).1 + 1 := by
    rw [faultLine, hfound]
    rfl
  refine ⟨fault, hfirst, fun turns hturns => ?_, hline, fun path language ambient => ?_⟩
  · rw [← hfound]
    exact Search.iterate_turn_pending [root] (by simpa [sizes] using hturns)
  · rw [SourceModule.analyze, if_pos hroot, hline]

/-- The tree of `a;`, a line with a misplaced `(` and one in which a name is missing. The first
statement has no flag, and the missing name is nearer to the root than the `(`. -/
def brokenLines : Node :=
  let misplaced : Node :=
    { kind := .other "ERROR", span := ⟨5, 6⟩, children := [.token "(" 5 6]
      flags := { named := true, isError := true, hasError := true } }
  let missing : Node :=
    { kind := .identifier, span := ⟨12, 12⟩
      flags := { named := true, isMissing := true, hasError := true } }
  let broken : Node :=
    { kind := .expressionStatement, span := ⟨3, 7⟩, flags := { named := true, hasError := true }
      children := [.of .identifier 3 4, misplaced, .token ";" 6 7] }
  { kind := .other "program", span := ⟨0, 12⟩, flags := { named := true, hasError := true }
    children :=
      [.of .expressionStatement 0 2 [.of .identifier 0 1, .token ";" 1 2], broken,
       .token "let" 8 11, missing] }

/-- The file is malformed at the line of the `(`. -/
theorem exists_first_fault_brokenLines :
    brokenLines.FlagsAgree ∧ brokenLines.flags.hasError ∧
      brokenLines.faultLine "a;\nb (;\nlet " = 2 := by
  have hagree : brokenLines.FlagsAgree := by decide
  obtain ⟨fault, hfirst, -, hline, -⟩ := exists_first_fault "a;\nb (;\nlet " hagree rfl
  obtain rfl := Option.some.inj hfirst
  exact ⟨hagree, rfl, hline.trans (by decide +kernel)⟩

end Node

end DeadCode
