import DeadCode.Resolution.Callable
import Mathlib.Algebra.GroupWithZero.Nat
import Mathlib.Data.List.Flatten
import Mathlib.Data.List.Nodup

/-! # The nodes of a syntax tree

`Node.nodes` lists the nodes of a tree, a node before the nodes below it, and `Node.descendants` lists
those strictly below the root. Membership in these lists is how the proofs say that one node lies in
another, and a list with a repetition tells two places of a tree apart even if equal nodes stand
there. -/

namespace DeadCode

/-- **What a computation gives, and a fact about it**, both read off the computation itself. -/
theorem exists_ok_of_decide {ε α : Type} {x : Except ε α} {p : α → Prop} [DecidablePred p]
    (h : x.toOption.any fun a => decide (p a)) : ∃ a, x = .ok a ∧ p a := by
  cases x with
  | error _ => cases h
  | ok a => exact ⟨a, rfl, of_decide_eq_true h⟩

namespace Node

/-! ## Trees, written out -/

/-- A named node with its children. -/
def of (kind : Kind) (start stop : Nat) (children : List Node := []) : Node :=
  { kind, span := ⟨start, stop⟩, flags := { named := true }, children }

/-- A node under a field of its parent. -/
def part (field : Field) (n : Node) : Node :=
  { n with field := some field }

/-- A word that has a kind of its own. -/
def keyword (kind : Kind) (start stop : Nat) : Node :=
  { kind, span := ⟨start, stop⟩ }

/-- Any other word or mark; its kind is its text. -/
def token (text : String) (start stop : Nat) : Node :=
  .keyword (.other text) start stop

/-- A string in quotation marks. -/
def quoted (mark : String) (start stop : Nat) : Node :=
  .of .stringLiteral start stop
    [.token mark start (start + 1), .of .stringFragment (start + 1) (stop - 1),
     .token mark (stop - 1) stop]

/-! ## The nodes of a tree -/

mutual

/-- All nodes of a tree, a node before the nodes below it. -/
def nodes : Node → List Node
  | ⟨kind, span, flags, field, children⟩ =>
    ⟨kind, span, flags, field, children⟩ :: nodesOf children

/-- All nodes of a list of trees. -/
def nodesOf : List Node → List Node
  | [] => []
  | n :: rest => nodes n ++ nodesOf rest

end

/-- The nodes strictly below a node. -/
def descendants (n : Node) : List Node :=
  n.children.flatMap nodes

theorem nodesOf_eq_flatMap (ns : List Node) : nodesOf ns = ns.flatMap nodes := by
  induction ns with
  | nil => rfl
  | cons n rest ih => rw [nodesOf, ih, List.flatMap_cons]

/-- A tree is its root and what is below. -/
theorem nodes_eq (n : Node) : n.nodes = n :: n.descendants := by
  obtain ⟨kind, span, flags, field, children⟩ := n
  rw [nodes, nodesOf_eq_flatMap]
  rfl

@[simp] theorem self_mem_nodes (n : Node) : n ∈ n.nodes := by
  rw [nodes_eq]
  exact List.mem_cons_self

variable {m n c : Node} {field : Field}

theorem mem_nodes_iff : m ∈ n.nodes ↔ m = n ∨ m ∈ n.descendants := by
  rw [nodes_eq, List.mem_cons]

theorem mem_nodes_of_descendant (h : m ∈ n.descendants) : m ∈ n.nodes :=
  mem_nodes_iff.2 (.inr h)

/-- What is below a node is in one of its children. -/
theorem mem_descendants_iff : m ∈ n.descendants ↔ ∃ c ∈ n.children, m ∈ c.nodes :=
  List.mem_flatMap

/-- A property passes from the children of every node to the node, so it holds of every node. -/
theorem childInduction {motive : Node → Prop}
    (step : ∀ n, (∀ c ∈ n.children, motive c) → motive n) (n : Node) : motive n :=
  step n fun c hc =>
    have := size_lt_of_mem hc
    childInduction step c
termination_by n.size

theorem mem_descendants_of_child (hc : c ∈ n.children) (h : m ∈ c.nodes) : m ∈ n.descendants :=
  mem_descendants_iff.2 ⟨c, hc, h⟩

theorem child_mem_descendants (h : c ∈ n.children) : c ∈ n.descendants :=
  mem_descendants_of_child h c.self_mem_nodes

theorem child_mem_nodes (h : c ∈ n.children) : c ∈ n.nodes :=
  mem_nodes_of_descendant (child_mem_descendants h)

/-- The nodes of a subtree are nodes of the tree. -/
theorem mem_nodes_trans {k : Node} (hm : m ∈ k.nodes) (hk : k ∈ n.nodes) : m ∈ n.nodes := by
  -- The induction is on the outer tree: `k` is its root or lies in one of its children.
  induction n using childInduction with
  | step n ih =>
    rcases mem_nodes_iff.1 hk with rfl | hk
    · exact hm
    · obtain ⟨c, hc, hkc⟩ := mem_descendants_iff.1 hk
      exact mem_nodes_of_descendant (mem_descendants_of_child hc (ih c hc hkc))

theorem mem_descendants_trans {k : Node} (hm : m ∈ k.nodes) (hk : k ∈ n.descendants) :
    m ∈ n.descendants := by
  obtain ⟨c, hc, hkc⟩ := mem_descendants_iff.1 hk
  exact mem_descendants_of_child hc (mem_nodes_trans hm hkc)

/-- What is below a node is smaller. -/
theorem size_lt_of_descendant (h : m ∈ n.descendants) : m.size < n.size := by
  induction n using childInduction with
  | step n ih =>
    obtain ⟨c, hc, hm⟩ := mem_descendants_iff.1 h
    have hlt : c.size < n.size := size_lt_of_mem hc
    rcases mem_nodes_iff.1 hm with rfl | hm
    · exact hlt
    · exact Nat.lt_trans (ih c hc hm) hlt

/-! ## Picking children -/

theorem mem_children_of_namedChildren (h : c ∈ n.namedChildren) : c ∈ n.children :=
  (List.mem_filter.1 h).1

theorem mem_children_of_child? (h : n.child? field = some c) : c ∈ n.children :=
  List.mem_of_find?_eq_some h

theorem field_of_child? (h : n.child? field = some c) : c.field = some field := by
  simpa using List.find?_some h

theorem mem_children_of_childrenAt (h : c ∈ n.childrenAt field) : c ∈ n.children :=
  (List.mem_filter.1 h).1

theorem field_of_childrenAt (h : c ∈ n.childrenAt field) : c.field = some field := by
  have := (List.mem_filter.1 h).2
  simp only [Bool.and_eq_true, decide_eq_true_eq] at this
  exact this.1

theorem mem_namedChildren_of_sole? (h : n.sole? = some c) : c ∈ n.namedChildren := by
  unfold sole? at h
  split at h
  · next hc =>
    cases h
    rw [hc]
    exact List.mem_singleton.2 rfl
  · cases h

theorem mem_namedChildren_of_orderedChildren {source : String} (h : c ∈ n.orderedChildren source) :
    c ∈ n.namedChildren :=
  mem_inSourceOrder.1 h

theorem mem_children_of_declarators {d : Node} (h : d ∈ n.declarators) : d ∈ n.children :=
  mem_children_of_namedChildren (List.mem_filter.1 h).1

/-! ## Nested ranges -/

/-- Every child's range lies inside that of its parent. -/
def Nested (n : Node) : Prop :=
  ∀ m ∈ n.nodes, ∀ c ∈ m.children, m.span.contains c.span

instance (n : Node) : Decidable n.Nested :=
  inferInstanceAs (Decidable (∀ m ∈ n.nodes, ∀ c ∈ m.children, m.span.contains c.span))

end Node

namespace Span

/-- A range contains another if it starts before and stops after it. -/
theorem contains_iff {a b : Span} : a.contains b ↔ a.start ≤ b.start ∧ b.stop ≤ a.stop := by
  simp [contains]

@[simp] theorem contains_self (a : Span) : a.contains a := by
  simp [contains]

theorem contains_trans {a b c : Span} (hab : a.contains b) (hbc : b.contains c) :
    a.contains c := by
  rw [contains_iff] at *
  omega

end Span

namespace Node

variable {n m : Node}

/-- In a nested tree a node contains what is below it. -/
theorem Nested.contains {root : Node} (h : root.Nested) (hn : n ∈ root.nodes) (hm : m ∈ n.nodes) :
    n.span.contains m.span := by
  -- Down the path from `n` to `m`, one child at a time.
  induction n using childInduction with
  | step n ih =>
    rcases mem_nodes_iff.1 hm with rfl | hm
    · exact m.span.contains_self
    · obtain ⟨c, hc, hmc⟩ := mem_descendants_iff.1 hm
      have hcr : c ∈ root.nodes := mem_nodes_trans (child_mem_nodes hc) hn
      exact Span.contains_trans (h n hn c hc) (ih c hc hcr hmc)

/-! ## Callables -/

/-- The callables of a tree, an outer one before those in it. -/
def callables (n : Node) : List Node :=
  n.nodes.filter (·.kind.isCallable)

/-- The callables strictly below a node. -/
def inner (n : Node) : List Node :=
  n.descendants.filter (·.kind.isCallable)

/-- The callables of a tree. -/
theorem mem_callables : m ∈ n.callables ↔ m ∈ n.nodes ∧ m.kind.isCallable := by
  simp [callables]

/-- The callables below a node. -/
theorem mem_inner : m ∈ n.inner ↔ m ∈ n.descendants ∧ m.kind.isCallable := by
  simp [inner]

theorem callables_eq (n : Node) :
    n.callables = if n.kind.isCallable then n :: n.inner else n.inner := by
  rw [callables, nodes_eq, List.filter_cons, inner]

/-- The callables below a node are those of its children. -/
theorem inner_eq_flatMap (n : Node) : n.inner = n.children.flatMap callables := by
  rw [inner, descendants, List.filter_flatMap]
  rfl

theorem mem_callables_of_child {d c : Node} (hc : c ∈ n.children) (h : d ∈ c.callables) :
    d ∈ n.callables := by
  obtain ⟨hmem, hkind⟩ := mem_callables.1 h
  exact mem_callables.2 ⟨mem_nodes_trans hmem (child_mem_nodes hc), hkind⟩

theorem mem_callables_of_mem_inner (h : m ∈ n.inner) : m ∈ n.callables :=
  mem_callables.2 ⟨mem_nodes_of_descendant (mem_inner.1 h).1, (mem_inner.1 h).2⟩

theorem eq_or_mem_inner (h : m ∈ n.callables) : m = n ∨ m ∈ n.inner := by
  obtain ⟨hm, hkind⟩ := mem_callables.1 h
  exact (mem_nodes_iff.1 hm).imp_right fun hm => mem_inner.2 ⟨hm, hkind⟩

/-- What is inside a callable inside a node is inside the node. -/
theorem mem_inner_trans {k : Node} (hm : m ∈ k.inner) (hk : k ∈ n.inner) : m ∈ n.inner :=
  mem_inner.2 ⟨mem_descendants_trans (mem_nodes_of_descendant (mem_inner.1 hm).1) (mem_inner.1 hk).1,
    (mem_inner.1 hm).2⟩

/-- The bound on the entries that a callable accounts for: one of its own, and those of the
callables in it. -/
def weight (n : Node) : Nat :=
  entryBounds n.children + 1

theorem entryBounds_eq_sum (ns : List Node)
    (h : ∀ n ∈ ns, n.entryBound = (n.callables.map weight).sum) :
    entryBounds ns = ((ns.flatMap callables).map weight).sum := by
  induction ns with
  | nil => simp [entryBounds]
  | cons n rest ih =>
    rw [entryBounds, h n List.mem_cons_self, ih fun m hm => h m (List.mem_cons_of_mem _ hm),
      List.flatMap_cons, List.map_append, List.sum_append]

/-- The bound of entries, over the children. -/
theorem entryBound_def (n : Node) :
    n.entryBound = if n.kind.isCallable then 2 * entryBounds n.children + 1
      else entryBounds n.children := by
  obtain ⟨kind, span, flags, field, children⟩ := n
  rw [entryBound]

/-- **The bound on the entries of a tree is the sum of its callables' weights.** -/
theorem entryBound_eq_sum (n : Node) : n.entryBound = (n.callables.map weight).sum := by
  induction n using childInduction with
  | step n ih =>
    have hsum := entryBounds_eq_sum n.children ih
    rw [← inner_eq_flatMap] at hsum
    rw [entryBound_def, callables_eq]
    split
    · rw [List.map_cons, List.sum_cons, ← hsum, weight]
      omega
    · exact hsum

/-- The weight of a callable is one more than that of all inside it. -/
theorem weight_eq (n : Node) : n.weight = (n.inner.map weight).sum + 1 := by
  rw [weight, entryBounds_eq_sum _ fun c _ => c.entryBound_eq_sum, inner_eq_flatMap]

end Node

end DeadCode
