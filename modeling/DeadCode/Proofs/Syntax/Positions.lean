import DeadCode.Proofs.Syntax.Nodes
import Mathlib.Data.List.Pairwise

/-! # Statement and expression positions

Linking a body visits the nodes of the body in different ways: some as statements, some as
expressions, some as members of a class or an object. The way a node is visited (`Visit`) follows
from its kind, from that of its parent and from the way the parent is visited (`Visit.below`), as
long as the tree keeps what the grammar promises (`Node.Grammatical`): no statement stands where an
expression is read, and a clause stands where a clause is read. -/

namespace DeadCode

/-- Whether statements are linked in place in the statements of a form. -/
def Form.isNesting : Form → Bool
  | .exportDecl | .conditional | .selection | .countedLoop | .iteration | .whileLoop | .doLoop
  | .guarded | .block | .labeled => true
  | .importDecl | .functionDecl | .classDecl | .lexicalDecl | .varDecl | .returning | .throwing
  | .expression | .inert => false

/-- The kind of the statements of a form, if they have one kind. -/
def Form.soleKind? : Form → Option Kind
  | .importDecl => some .importStatement
  | .exportDecl => some .exportStatement
  | .varDecl => some .variableDeclaration
  | .conditional => some .ifStatement
  | .selection => some .switchStatement
  | .countedLoop => some .forStatement
  | .iteration => some .forInStatement
  | .guarded => some .tryStatement
  | .block => some .statementBlock
  | .returning => some .returnStatement
  | .labeled => some .labeledStatement
  | _ => none

namespace Kind

/-- Whether a kind is that of a function written as an expression. -/
def isFunctionValue (kind : Kind) : Bool :=
  kind.isFunctionLiteral || kind = .arrowFunction

/-- Whether a kind is that of a statement or clause that holds other statements or is a callable:
what no expression position holds. -/
def isCompound (kind : Kind) : Bool :=
  match kind.form? with
  | some .exportDecl | some .functionDecl | some .classDecl | some .conditional | some .selection
  | some .countedLoop | some .iteration | some .whileLoop | some .doLoop | some .guarded
  | some .block | some .labeled => true
  | some .importDecl | some .lexicalDecl | some .varDecl | some .returning | some .throwing
  | some .expression | some .inert => false
  | none => kind.isClause

/-- Whether a kind is that of a statement or clause in which statements are linked in place. -/
def holdsStatements (kind : Kind) : Bool :=
  kind.isCompound && kind.form? ≠ some .functionDecl && kind.form? ≠ some .classDecl

/-- Whether a kind is that of a value or a block that holds callables in a way of its own. -/
def isEnclosure (kind : Kind) : Bool :=
  kind.isFunctionValue || kind = .classLiteral || kind = .objectLiteral || kind = .statementBlock

/-- Whether an expression of a kind is visited by visiting its parts as expressions. -/
def isPlain : Kind → Bool
  | functionExpression | functionLiteral | generatorFunction | arrowFunction | classLiteral
  | objectLiteral => false
  | _ => true

variable {kind : Kind}

theorem isPlain_iff : kind.isPlain ↔
    kind.isFunctionValue = false ∧ kind ≠ .classLiteral ∧ kind ≠ .objectLiteral := by
  cases kind <;> simp [isPlain, isFunctionValue, isFunctionLiteral]

theorem isPlain_of_not_isEnclosure (h : ¬ kind.isEnclosure) : kind.isPlain := by
  rw [isPlain_iff]
  simp only [isEnclosure, Bool.or_eq_true, decide_eq_true_eq, not_or, Bool.not_eq_true] at h
  exact ⟨h.1.1.1, h.1.1.2, h.1.2⟩

theorem holdsStatements_of_form {form : Form} (h : kind.form? = some form)
    (hform : form.isNesting) : kind.holdsStatements := by
  cases form <;> simp_all [holdsStatements, isCompound, Form.isNesting]

theorem holdsStatements_of_isClause (h : kind.isClause) : kind.holdsStatements := by
  cases kind <;> first | rfl | cases h

theorem isCompound_of_holdsStatements (h : kind.holdsStatements) : kind.isCompound := by
  simp_all [holdsStatements]

/-- Some forms have one kind only. -/
theorem eq_of_form {sole : Kind} {form : Form} (h : kind.form? = some form)
    (hsole : form.soleKind? = some sole) : kind = sole := by
  cases kind <;> simp only [form?, Option.some.injEq, reduceCtorEq] at h <;> subst h <;>
    simp only [Form.soleKind?, Option.some.injEq, reduceCtorEq] at hsole <;> exact hsole

theorem isPlain_of_form (h : kind.form?.isSome) : kind.isPlain := by
  cases kind <;> first | rfl | simp [form?] at h

theorem isCallable_of_isClass (h : kind.isClass) : kind.isCallable := by
  cases kind <;> first | rfl | simp [isClass] at h

end Kind

/-! ## What the grammar promises -/

/-- The fields of a statement or a clause that hold expressions. -/
def Field.isHeader : Field → Bool
  | .condition | .value | .left | .right | .initializer | .increment => true
  | _ => false

/-- The fields that hold a list of expressions or of patterns. -/
def Field.isList : Field → Bool
  | .arguments | .parameters | .parameter => true
  | _ => false

/-- The kind of the part that a statement or a clause has under a field, where the grammar allows
only one. -/
def Kind.part? : Kind → Field → Option Kind
  | .ifStatement, .alternative => some .elseClause
  | .switchStatement, .body => some .switchBody
  | .tryStatement, .handler => some .catchClause
  | .tryStatement, .finalizer => some .finallyClause
  | .catchClause, .body => some .statementBlock
  | _, _ => none

namespace Node

/-- What the grammar promises of the children of one node. -/
structure ChildrenFit (n : Node) : Prop where
  /-- The header of a statement holds no compound statement. -/
  header : n.kind.isCompound → ∀ c ∈ n.children, c.field.any Field.isHeader → ¬ c.kind.isCompound
  /-- A clause stands where a clause is read. -/
  part : ∀ c ∈ n.children, ∀ kind ∈ c.field.bind n.kind.part?, c.kind = kind
  /-- The body of a `switch` statement consists of cases. -/
  cases : n.kind = .switchBody → ∀ c ∈ n.namedChildren,
    c.kind = .switchCase ∨ c.kind = .switchDefault
  /-- The body of a class is not its heritage. -/
  body : n.kind.isClass → ∀ c ∈ n.children, c.field = some .body → c.kind ≠ .classHeritage
  /-- A list of arguments or parameters is no value and no block. -/
  list : ∀ c ∈ n.children, c.field.any Field.isList → ¬ c.kind.isEnclosure

instance (n : Node) : Decidable n.ChildrenFit :=
  decidable_of_iff
    ((n.kind.isCompound → ∀ c ∈ n.children, c.field.any Field.isHeader → ¬ c.kind.isCompound) ∧
      (∀ c ∈ n.children, ∀ kind ∈ c.field.bind n.kind.part?, c.kind = kind) ∧
      (n.kind = .switchBody → ∀ c ∈ n.namedChildren,
        c.kind = .switchCase ∨ c.kind = .switchDefault) ∧
      (n.kind.isClass → ∀ c ∈ n.children, c.field = some .body → c.kind ≠ .classHeritage) ∧
      ∀ c ∈ n.children, c.field.any Field.isList → ¬ c.kind.isEnclosure)
    ⟨fun ⟨header, part, cases, body, list⟩ => ⟨header, part, cases, body, list⟩,
      fun h => ⟨h.header, h.part, h.cases, h.body, h.list⟩⟩

/-- What the grammar promises of a tree, as far as the positions of statements go. -/
def Grammatical (n : Node) : Prop :=
  ∀ m ∈ n.nodes, m.ChildrenFit

instance (n : Node) : Decidable n.Grammatical :=
  inferInstanceAs (Decidable (∀ m ∈ n.nodes, m.ChildrenFit))

/-- The parts of a grammatical tree have their kinds. -/
theorem Grammatical.kind_eq {root n c : Node} {field : Field} {kind : Kind} (h : root.Grammatical)
    (hn : n ∈ root.nodes) (hc : n.child? field = some c) (hpart : n.kind.part? field = some kind) :
    c.kind = kind := by
  refine (h n hn).part c (mem_children_of_child? hc) kind ?_
  rw [field_of_child? hc]
  exact hpart

end Node

/-! ## Ways to visit a node -/

/-- The ways in which linking visits a node. -/
inductive Visit where
  /-- As an expression. -/
  | resolve
  /-- As a statement or a clause that holds statements. -/
  | link
  /-- As the body of a class. -/
  | members
  /-- As a member of a class or an object. -/
  | member
  /-- As a whole file. -/
  | file
  /-- As a callable that is entered. -/
  | callable
deriving DecidableEq, Repr

namespace Visit

/-- How a node is visited that stands where a statement may stand. -/
def ofStatement (kind : Kind) : Visit :=
  if kind.isCompound then link else resolve

/-- How a child of a class is visited. -/
def ofClassPart (kind : Kind) : Visit :=
  if kind = .classHeritage then resolve else members

/-- Whether a visit leaves a node of a kind for later and does not look into it. -/
def defers : Visit → Kind → Bool
  | resolve, kind => kind.isFunctionValue
  | member, kind => kind = .methodDefinition || kind.isFunctionValue
  | link, kind => kind.form? = some .functionDecl
  | members, _ | file, _ | callable, _ => false

/-- How a visit of a node visits a child, by the kinds of the two. -/
def below : Visit → Kind → Kind → Visit
  | members, _, _ => member
  | file, _, child => ofStatement child
  | callable, _, child => if child = .statementBlock then link else resolve
  | link, kind, child =>
    if kind.form? = some .classDecl then ofClassPart child
    else if kind.isCompound then ofStatement child else resolve
  | resolve, kind, child | member, kind, child =>
    if kind = .classLiteral then ofClassPart child
    else if kind = .objectLiteral then member else resolve

theorem isCallable_of_defers {visit : Visit} {kind : Kind} (h : visit.defers kind) :
    kind.isCallable ∧ kind.isClass = false := by
  have hvalue : kind.isFunctionValue → kind.isCallable ∧ kind.isClass = false := by
    intro h
    cases kind <;> first | exact ⟨rfl, rfl⟩ | simp [Kind.isFunctionValue, Kind.isFunctionLiteral] at h
  cases visit with
  | resolve => exact hvalue h
  | member =>
    simp only [defers, Bool.or_eq_true, decide_eq_true_eq] at h
    rcases h with rfl | h
    · exact ⟨rfl, rfl⟩
    · exact hvalue h
  | link =>
    cases kind <;> first | exact ⟨rfl, rfl⟩ | simp [defers, Kind.form?] at h
  | members | file | callable => cases h

end Visit

namespace Node

/-- A visit of a node comes upon a callable and leaves it for later. -/
inductive Declares : Visit → Node → Node → Prop where
  | self {visit : Visit} {n : Node} (h : visit.defers n.kind) : Declares visit n n
  | child {visit : Visit} {n c d : Node} (h : visit.defers n.kind = false) (hc : c ∈ n.children)
      (hd : Declares (visit.below n.kind c.kind) c d) : Declares visit n d

variable {visit : Visit} {n d : Node}

theorem Declares.mem_nodes (h : Declares visit n d) : d ∈ n.nodes := by
  induction h with
  | self => exact self_mem_nodes _
  | child _ hc _ ih => exact mem_nodes_of_descendant (mem_descendants_of_child hc ih)

/-- What is left for later is a callable, but no class. -/
theorem Declares.isCallable (h : Declares visit n d) :
    d.kind.isCallable ∧ d.kind.isClass = false := by
  induction h with
  | self h => exact Visit.isCallable_of_defers h
  | child _ _ _ ih => exact ih

theorem Declares.mem_callables (h : Declares visit n d) : d ∈ n.callables :=
  Node.mem_callables.2 ⟨h.mem_nodes, h.isCallable.1⟩

/-- A visit of a node of the tree may come upon a callable: it lies in the node and is no class, and
the visit leaves it for later, as far as the tree is grammatical. -/
structure Met (root : Node) (visit : Visit) (n d : Node) : Prop where
  mem : d ∈ n.callables
  notClass : d.kind.isClass = false
  declares : root.Grammatical → Declares visit n d

namespace Met

variable {root n c d : Node} {visit visit' : Visit}

theorem self (h : visit.defers n.kind) : Met root visit n n where
  mem := Node.mem_callables.2 ⟨self_mem_nodes n, (Visit.isCallable_of_defers h).1⟩
  notClass := (Visit.isCallable_of_defers h).2
  declares := fun _ => .self h

/-- What is met in a child is met in the node, if the child is visited as a part of the node. -/
theorem child (hc : c ∈ n.children) (hdefers : root.Grammatical → visit.defers n.kind = false)
    (hbelow : root.Grammatical → visit.below n.kind c.kind = visit') (h : Met root visit' c d) :
    Met root visit n d where
  mem := mem_callables_of_child hc h.mem
  notClass := h.notClass
  declares := fun hroot => .child (hdefers hroot) hc (hbelow hroot ▸ h.declares hroot)

/-- What is met in a part of a plain node is met in the node. -/
theorem part (hplain : root.Grammatical → n.kind.isPlain) (hc : c ∈ n.children)
    (h : Met root .resolve c d) : Met root .resolve n d := by
  refine h.child hc (fun hroot => (Kind.isPlain_iff.1 (hplain hroot)).1) fun hroot => ?_
  obtain ⟨-, hclass, hobject⟩ := Kind.isPlain_iff.1 (hplain hroot)
  simp [Visit.below, hclass, hobject]

theorem objectPart (hkind : n.kind = .objectLiteral) (hc : c ∈ n.children)
    (h : Met root .member c d) : Met root .resolve n d :=
  h.child hc (fun _ => by rw [hkind]; rfl) fun _ => by rw [hkind]; rfl

theorem member (hkind : n.kind ≠ .methodDefinition) (h : Met root .resolve n d) :
    Met root .member n d where
  mem := h.mem
  notClass := h.notClass
  declares := fun hroot => by
    cases h.declares hroot with
    | self hdefers => exact .self (by simpa [Visit.defers, hkind] using hdefers)
    | child hdefers hc hd => exact .child (by simpa [Visit.defers, hkind] using hdefers) hc hd

/-- What is met in a nested statement is met. -/
theorem nested (hkind : root.Grammatical → n.kind.holdsStatements) (hc : c ∈ n.children)
    (h : Met root (.ofStatement c.kind) c d) : Met root .link n d := by
  have hparts (hroot : root.Grammatical) : n.kind.isCompound ∧
      n.kind.form? ≠ some .functionDecl ∧ n.kind.form? ≠ some .classDecl := by
    simpa [Kind.holdsStatements, and_assoc] using hkind hroot
  refine h.child hc (fun hroot => ?_) fun hroot => ?_
  · simpa [Visit.defers] using (hparts hroot).2.1
  · simp [Visit.below, hparts hroot]

theorem clause (hkind : root.Grammatical → n.kind.isCompound) (h : Met root .link n d) :
    Met root (.ofStatement n.kind) n d where
  mem := h.mem
  notClass := h.notClass
  declares := fun hroot => by
    rw [Visit.ofStatement, if_pos (hkind hroot)]
    exact h.declares hroot

/-- What is met in a header is met in the statement. -/
theorem header (hkind : root.Grammatical → n.kind.holdsStatements) (hn : n ∈ root.nodes)
    (hc : c ∈ n.children) (hfield : c.field.any Field.isHeader) (h : Met root .resolve c d) :
    Met root .link n d where
  mem := mem_callables_of_child hc h.mem
  notClass := h.notClass
  declares := fun hroot => by
    have hcompound := Kind.isCompound_of_holdsStatements (hkind hroot)
    have hc' : ¬ c.kind.isCompound := (hroot n hn).header hcompound c hc hfield
    refine (nested hkind hc ?_).declares hroot
    rwa [Visit.ofStatement, if_neg hc']

end Met

/-! ## Callables with identities of their own -/

/-- No two callables of a tree have the same identity. -/
def DistinctCallables (n : Node) : Prop :=
  (n.callables.map key).Nodup

instance (n : Node) : Decidable n.DistinctCallables :=
  inferInstanceAs (Decidable (n.callables.map key).Nodup)

namespace DistinctCallables

variable {n : Node}

/-- The callables inside a node are told apart. -/
theorem nodup_inner (h : n.DistinctCallables) : n.inner.Nodup := by
  have hn : n.callables.Nodup := List.Nodup.of_map key h
  rw [callables_eq] at hn
  split at hn
  · exact (List.nodup_cons.1 hn).2
  · exact hn

/-- Callables are told apart by their keys. -/
theorem eq_of_key_eq (h : n.DistinctCallables) {a b : Node} (ha : a ∈ n.callables)
    (hb : b ∈ n.callables) (hk : a.key = b.key) : a = b :=
  List.inj_on_of_nodup_map h ha hb hk

theorem child (h : n.DistinctCallables) {c : Node} (hc : c ∈ n.children) : c.DistinctCallables := by
  have hsub : c.callables.Sublist n.callables := by
    refine List.Sublist.trans ?_ (List.Sublist.filter _ (n.nodes_eq ▸ List.sublist_cons_self ..))
    exact List.Sublist.filter _ (List.sublist_flatten_of_mem (List.mem_map_of_mem hc))
  exact List.Nodup.sublist (hsub.map key) h

theorem of_mem_nodes (h : n.DistinctCallables) {m : Node} (hm : m ∈ n.nodes) :
    m.DistinctCallables := by
  induction n using childInduction with
  | step n ih =>
    rcases mem_nodes_iff.1 hm with rfl | hm
    · exact h
    · obtain ⟨c, hc, hm⟩ := mem_descendants_iff.1 hm
      exact ih c hc (h.child hc) hm

/-- A callable lies in one child only. -/
theorem child_unique (h : n.DistinctCallables) {c c' d : Node} (hc : c ∈ n.children)
    (hc' : c' ∈ n.children) (hd : d ∈ c.callables) (hd' : d ∈ c'.callables) : c = c' := by
  have hn := h.nodup_inner
  rw [inner_eq_flatMap, List.nodup_flatMap] at hn
  by_contra hne
  have : Std.Symm (Function.onFun List.Disjoint callables) :=
    ⟨fun _ _ hdis _ hx hy => hdis hy hx⟩
  exact hn.2.forall hc hc' hne hd hd'

/-- Callables around a common one lie one in the other. -/
theorem comparable (h : n.DistinctCallables) {a b d : Node} (ha : a ∈ n.callables)
    (hb : b ∈ n.callables) (hda : d ∈ a.callables) (hdb : d ∈ b.callables) :
    a ∈ b.callables ∨ b ∈ a.callables := by
  induction n using childInduction with
  | step n ih =>
    rcases mem_nodes_iff.1 (mem_callables.1 ha).1 with rfl | hac
    · exact .inr hb
    rcases mem_nodes_iff.1 (mem_callables.1 hb).1 with rfl | hbc
    · exact .inl ha
    -- Both lie in children, and in the same one, since they share `d`.
    obtain ⟨c, hc, hac⟩ := mem_descendants_iff.1 hac
    obtain ⟨c', hc', hbc⟩ := mem_descendants_iff.1 hbc
    have hdc : d ∈ c.callables :=
      mem_callables.2 ⟨mem_nodes_trans (mem_callables.1 hda).1 hac, (mem_callables.1 hda).2⟩
    have hdc' : d ∈ c'.callables :=
      mem_callables.2 ⟨mem_nodes_trans (mem_callables.1 hdb).1 hbc, (mem_callables.1 hdb).2⟩
    obtain rfl := h.child_unique hc hc' hdc hdc'
    exact ih c hc (h.child hc) (mem_callables.2 ⟨hac, (mem_callables.1 ha).2⟩)
      (mem_callables.2 ⟨hbc, (mem_callables.1 hb).2⟩)

end DistinctCallables

/-- **The callables that one visit leaves for later lie side by side**: none lies in another. -/
theorem Declares.antichain {q : Node} (hn : n.DistinctCallables) (hd : Declares visit n d)
    (hq : Declares visit n q) : d ∉ q.inner := by
  intro hdq
  induction hd with
  | @self visit n h =>
    -- The visit stops at `n`, so `q` is `n` itself, and nothing lies below itself.
    cases hq with
    | self => exact Nat.lt_irrefl _ (size_lt_of_descendant (mem_inner.1 hdq).1)
    | child h' => simp [h] at h'
  | @child visit n c d h hc hd ih =>
    cases hq with
    | self h' => simp [h] at h'
    | @child _ _ c' _ _ hc' hq =>
      have hd' : d ∈ c'.callables := Node.mem_callables.2
        ⟨mem_nodes_trans (mem_nodes_of_descendant (mem_inner.1 hdq).1) hq.mem_nodes,
          hd.isCallable.1⟩
      obtain rfl := hn.child_unique hc hc' hd.mem_callables hd'
      exact ih (hn.child hc) hq hdq

end Node

end DeadCode
