import DeadCode.Sorting
import DeadCode.Source
import DeadCode.Syntax.Kind

/-! # Concrete syntax trees

A `Node` is a node of the concrete syntax tree of one source text: a kind, a byte range, the field
it hangs under, and all its children, named ones and tokens alike. Two nodes with equal `Node.key`
are the same statement as far as the analysis is concerned.

The walkers `Node.withChild`, `Node.forNamed`, … run a continuation on children of a node and hand
it the fact that the child is smaller, so a recursion over a tree ends by `Node.size`. -/

namespace DeadCode

/-- What is known of a node beside its place in the tree. -/
structure Flags where
  /-- The node is a named node and not a token. -/
  named : Bool := false
  /-- The node stands for text that fits no rule of the grammar. -/
  isError : Bool := false
  /-- The node was put in where the grammar wants one and the text has none. -/
  isMissing : Bool := false
  /-- The node is in error or has a node in error below it. -/
  hasError : Bool := false
deriving DecidableEq, Inhabited, Repr

/-- A node of a concrete syntax tree. -/
structure Node where
  /-- The kind of the node. -/
  kind : Kind
  /-- The bytes of the source text the node covers. -/
  span : Span
  /-- What else is known of the node. -/
  flags : Flags := {}
  /-- The field under which the node hangs in its parent. -/
  field : Option Field := none
  /-- All children, in order. -/
  children : List Node := []
deriving Inhabited, Repr

/-- The identity of a syntax node: its kind and its byte range. -/
structure Key where
  /-- The kind of the node. -/
  kind : Kind
  /-- The byte range of the node. -/
  span : Span
deriving DecidableEq, Inhabited, Repr

namespace Node

/-- The identity of a node. -/
def key (n : Node) : Key :=
  ⟨n.kind, n.span⟩

mutual

/-- The number of nodes of a tree. -/
def size : Node → Nat
  | ⟨_, _, _, _, children⟩ => sizes children + 1

/-- The number of nodes of a list of trees. -/
def sizes : List Node → Nat
  | [] => 0
  | n :: rest => size n + sizes rest

end

theorem size_le_sizes {c : Node} {ns : List Node} (h : c ∈ ns) : c.size ≤ sizes ns := by
  induction ns with
  | nil => cases h
  | cons n rest ih =>
    rw [sizes]
    cases h with
    | head => omega
    | tail _ h => have := ih h; omega

theorem size_eq (n : Node) : n.size = sizes n.children + 1 := by
  cases n; rw [size]

theorem size_lt_of_mem {c n : Node} (h : c ∈ n.children) : c.size < n.size := by
  have := size_le_sizes h
  rw [n.size_eq]
  omega

/-! ## Children -/

/-- The named children of a node other than comments. -/
def namedChildren (n : Node) : List Node :=
  n.children.filter fun c => c.flags.named && c.kind ≠ .comment

/-- The first child under a field. -/
def child? (n : Node) (field : Field) : Option Node :=
  n.children.find? (·.field = some field)

/-- All children under a field other than comments. -/
def childrenAt (n : Node) (field : Field) : List Node :=
  n.children.filter fun c => c.field = some field && c.kind ≠ .comment

/-- The only named child of a node, if it has exactly one. -/
def sole? (n : Node) : Option Node :=
  match n.namedChildren with
  | [c] => some c
  | _ => none

theorem size_lt_of_mem_namedChildren {c n : Node} (h : c ∈ n.namedChildren) : c.size < n.size :=
  size_lt_of_mem (List.mem_filter.1 h).1

theorem size_lt_of_child? {c n : Node} {field : Field} (h : n.child? field = some c) :
    c.size < n.size :=
  size_lt_of_mem (List.mem_of_find?_eq_some h)

theorem size_lt_of_mem_childrenAt {c n : Node} {field : Field} (h : c ∈ n.childrenAt field) :
    c.size < n.size :=
  size_lt_of_mem (List.mem_filter.1 h).1

theorem size_lt_of_sole? {c n : Node} (h : n.sole? = some c) : c.size < n.size := by
  unfold sole? at h
  split at h
  · next hc =>
    cases h
    exact size_lt_of_mem_namedChildren (by rw [hc]; exact List.mem_singleton.2 rfl)
  · cases h

/-! ## Source order -/

/-- The row and column at which a node starts. -/
def position (source : String) (n : Node) : Nat × Nat :=
  Source.position source n.span.start

/-- The location at which a node starts. -/
def location (source : String) (n : Node) : Location :=
  Source.locate source n.span.start

/-- Whether a row and column come no later than others. -/
def notAfter (a b : Nat × Nat) : Bool :=
  (compare a.1 b.1).then (compare a.2 b.2) |>.isLE

/-- Nodes by row and then by column, equal places in the order given. -/
def inSourceOrder (source : String) (ns : List Node) : List Node :=
  (sortBy (fun a b => notAfter a.1 b.1) (ns.map fun n => (n.position source, n))).map Prod.snd

theorem mem_inSourceOrder {source : String} {c : Node} {ns : List Node} :
    c ∈ inSourceOrder source ns ↔ c ∈ ns := by
  simp [inSourceOrder, mem_sortBy]

/-- The named children in source order. -/
def orderedChildren (source : String) (n : Node) : List Node :=
  inSourceOrder source n.namedChildren

/-- The node without its first child under a field. -/
def without (n : Node) (field : Field) : Node :=
  { n with children := n.children.eraseP (·.field = some field) }

theorem mem_children_of_mem_without {c n : Node} {field : Field}
    (h : c ∈ (n.without field).children) : c ∈ n.children :=
  List.mem_of_mem_eraseP h

theorem size_lt_of_mem_orderedChildren {source : String} {c n : Node}
    (h : c ∈ n.orderedChildren source) : c.size < n.size :=
  size_lt_of_mem_namedChildren (mem_inSourceOrder.1 h)

theorem size_lt_of_mem_ordered_without {source : String} {c n : Node} {field : Field}
    (h : c ∈ (n.without field).orderedChildren source) : c.size < n.size :=
  size_lt_of_mem (mem_children_of_mem_without (List.mem_filter.1 (mem_inSourceOrder.1 h)).1)

/-! ## Walkers -/

section Walkers

universe u v

variable {m : Type u → Type v} [Monad m] {β : Type u}

/-- Runs `visit` on the first child under `field`, or `otherwise` if there is none. -/
@[specialize] def withChild (n : Node) (field : Field) (otherwise : m β)
    (visit : (c : Node) → c.size < n.size → m β) : m β :=
  match h : n.child? field with
  | some c => visit c (size_lt_of_child? h)
  | none => otherwise

/-- Runs `visit` on the only named child, or `otherwise` if there is not exactly one. -/
@[specialize] def withSole (n : Node) (otherwise : m β)
    (visit : (c : Node) → c.size < n.size → m β) : m β :=
  match h : n.sole? with
  | some c => visit c (size_lt_of_sole? h)
  | none => otherwise

/-- Folds `visit` over the children of `n` that `ns` lists, in that order. -/
@[specialize] def foldOver (n : Node) (ns : List Node) (h : ∀ c ∈ ns, c.size < n.size) (init : β)
    (visit : β → (c : Node) → c.size < n.size → m β) : m β :=
  ns.attach.foldlM (fun acc c => visit acc c.1 (h c.1 c.2)) init

/-- Folds `visit` over the named children. -/
@[specialize] def foldNamed (n : Node) (init : β)
    (visit : β → (c : Node) → c.size < n.size → m β) : m β :=
  n.foldOver n.namedChildren (fun _ => size_lt_of_mem_namedChildren) init visit

end Walkers

section UnitWalkers

universe v

variable {m : Type → Type v} [Monad m]

/-- Runs `visit` on the first child under `field`, if there is one. -/
@[specialize] def onChild (n : Node) (field : Field) (visit : (c : Node) → c.size < n.size → m Unit) :
    m Unit :=
  n.withChild field (pure ()) visit

/-- Runs `visit` on every named child in order. -/
@[specialize] def forNamed (n : Node) (visit : (c : Node) → c.size < n.size → m Unit) : m Unit :=
  n.foldNamed () fun _ => visit

/-- Runs `visit` on every named child, in source order. -/
@[specialize] def forOrdered (n : Node) (source : String)
    (visit : (c : Node) → c.size < n.size → m Unit) : m Unit :=
  n.foldOver (n.orderedChildren source) (fun _ => size_lt_of_mem_orderedChildren) () fun _ => visit

/-- Runs `visit` on every named child but the first one under `field`, in source order. -/
@[specialize] def forOrderedWithout (n : Node) (field : Field) (source : String)
    (visit : (c : Node) → c.size < n.size → m Unit) : m Unit :=
  n.foldOver ((n.without field).orderedChildren source)
    (fun _ => size_lt_of_mem_ordered_without) () fun _ => visit

/-- Runs `visit` on every child under `field` in order. -/
@[specialize] def forChildrenAt (n : Node) (field : Field)
    (visit : (c : Node) → c.size < n.size → m Unit) : m Unit :=
  n.foldOver (n.childrenAt field) (fun _ => size_lt_of_mem_childrenAt) () fun _ => visit

end UnitWalkers

end Node

end DeadCode
