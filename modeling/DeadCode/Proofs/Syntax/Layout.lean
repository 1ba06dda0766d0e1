import DeadCode.Proofs.Syntax.Positions

/-! # Trees laid out in the text

The children of a node stand one after another in the text, inside the range of the node. Then the
ranges of a tree nest like the tree itself: two nodes around a common piece of text lie one in the
other (`LaidOut.comparable`), and a node that is not empty has one place in the tree only. -/

namespace DeadCode

/-- A range with some text in it. -/
def Span.Nonempty (span : Span) : Prop :=
  span.start < span.stop

instance (span : Span) : Decidable span.Nonempty :=
  inferInstanceAs (Decidable (span.start < span.stop))

theorem Span.Nonempty.of_contains {outer inner : Span} (h : inner.Nonempty)
    (hc : outer.contains inner) : outer.Nonempty := by
  rw [Span.contains_iff] at hc
  unfold Nonempty at h ⊢
  omega

namespace Node

/-- The nodes of a tree are laid out in the text: children lie inside their parent, one after
another. -/
structure LaidOut (root : Node) : Prop where
  nested : root.Nested
  ordered : ∀ m ∈ root.nodes, m.children.Pairwise fun a b => a.span.stop ≤ b.span.start

instance (root : Node) : Decidable root.LaidOut :=
  decidable_of_iff (root.Nested ∧
      ∀ m ∈ root.nodes, m.children.Pairwise fun a b => a.span.stop ≤ b.span.start)
    ⟨fun ⟨nested, ordered⟩ => ⟨nested, ordered⟩, fun h => ⟨h.nested, h.ordered⟩⟩

namespace LaidOut

variable {root a b c n m q : Node} {t : Span}

theorem of_mem_nodes (h : root.LaidOut) (hn : n ∈ root.nodes) : n.LaidOut where
  nested := fun m hm => h.nested m (mem_nodes_trans hm hn)
  ordered := fun m hm => h.ordered m (mem_nodes_trans hm hn)

/-- A piece of text lies in one child. -/
theorem child_unique (h : root.LaidOut) (hn : n ∈ root.nodes) (ha : a ∈ n.children)
    (hb : b ∈ n.children) (ht : t.Nonempty) (hat : a.span.contains t) (hbt : b.span.contains t) :
    a = b := by
  by_contra hne
  have hsides : n.children.Pairwise fun a b =>
      a.span.stop ≤ b.span.start ∨ b.span.stop ≤ a.span.start :=
    (h.ordered n hn).imp fun hle => .inl hle
  have hsymm : Std.Symm fun a b : Node => a.span.stop ≤ b.span.start ∨ b.span.stop ≤ a.span.start :=
    ⟨fun _ _ hab => hab.symm⟩
  have hdisjoint := hsides.forall ha hb hne
  rw [Span.contains_iff] at hat hbt
  unfold Span.Nonempty at ht
  omega

/-- **Nodes around a common piece of text lie one in the other.** -/
theorem comparable (h : root.LaidOut) (ha : a ∈ root.nodes) (hb : b ∈ root.nodes)
    (ht : t.Nonempty) (hat : a.span.contains t) (hbt : b.span.contains t) :
    a ∈ b.nodes ∨ b ∈ a.nodes := by
  -- The induction is on the tree around both: if neither is its root, they lie in the same child.
  induction root using childInduction with
  | step root ih =>
    rcases mem_nodes_iff.1 ha with rfl | ha
    · exact .inr hb
    rcases mem_nodes_iff.1 hb with rfl | hb
    · exact .inl (mem_nodes_of_descendant ha)
    obtain ⟨c, hc, hac⟩ := mem_descendants_iff.1 ha
    obtain ⟨d, hd, hbd⟩ := mem_descendants_iff.1 hb
    have hcontains {x y : Node} (hy : y ∈ root.children) (hx : x ∈ y.nodes)
        (hxt : x.span.contains t) : y.span.contains t :=
      Span.contains_trans (h.nested.contains (child_mem_nodes hy) hx) hxt
    obtain rfl : c = d := h.child_unique (self_mem_nodes root) hc hd ht (hcontains hc hac hat)
      (hcontains hd hbd hbt)
    exact ih c hc (h.of_mem_nodes (child_mem_nodes hc)) hac hbd

theorem comparable_of_mem (h : root.LaidOut) (ha : a ∈ root.nodes) (hb : b ∈ root.nodes)
    (hm : m.span.Nonempty) (hma : m ∈ a.nodes) (hmb : m ∈ b.nodes) : a ∈ b.nodes ∨ b ∈ a.nodes :=
  h.comparable ha hb hm (h.nested.contains ha hma) (h.nested.contains hb hmb)

/-- Nothing lies between a node and its child. -/
theorem not_between (h : root.LaidOut) (hn : n ∈ root.nodes) (hc : c ∈ n.children)
    (hne : c.span.Nonempty) (hq : q ∈ n.descendants) : c ∉ q.descendants := by
  intro hcq
  obtain ⟨d, hd, hqd⟩ := mem_descendants_iff.1 hq
  have hcd : c ∈ d.nodes := mem_nodes_trans (mem_nodes_of_descendant hcq) hqd
  have hdn : d ∈ root.nodes := mem_nodes_trans (child_mem_nodes hd) hn
  obtain rfl : c = d := h.child_unique hn hc hd hne c.span.contains_self (h.nested.contains hdn hcd)
  -- Then `q` lies in its own descendant.
  have hlt : c.size < q.size := size_lt_of_descendant hcq
  rcases mem_nodes_iff.1 hqd with rfl | hqc
  · exact Nat.lt_irrefl _ hlt
  · exact Nat.lt_asymm hlt (size_lt_of_descendant hqc)

/-- **A node around a child of `n` is `n`, or it lies around `n`, or it is the child.** -/
theorem mem_nodes_of_child (h : root.LaidOut) (hn : n ∈ root.nodes) (hq : q ∈ root.nodes)
    (hc : c ∈ n.children) (hne : c.span.Nonempty) (hcq : c ∈ q.descendants) : n ∈ q.nodes := by
  rcases h.comparable_of_mem hn hq hne (child_mem_nodes hc) (mem_nodes_of_descendant hcq)
    with hnq | hqn
  · exact hnq
  · rcases mem_nodes_iff.1 hqn with rfl | hqn
    · exact self_mem_nodes q
    · exact absurd hcq (h.not_between hn hc hne hqn)

theorem parent_unique (h : root.LaidOut) (hn : n ∈ root.nodes) (hm : m ∈ root.nodes)
    (hcn : c ∈ n.children) (hcm : c ∈ m.children) (hne : c.span.Nonempty) : n = m := by
  have hnm := h.mem_nodes_of_child hn hm hcn hne (child_mem_descendants hcm)
  have hmn := h.mem_nodes_of_child hm hn hcm hne (child_mem_descendants hcn)
  rcases mem_nodes_iff.1 hnm with heq | hlt
  · exact heq
  · rcases mem_nodes_iff.1 hmn with heq | hlt'
    · exact heq.symm
    · exact absurd (size_lt_of_descendant hlt) (Nat.lt_asymm (size_lt_of_descendant hlt'))

end LaidOut

/-! ## From one node to another -/

/-- Visiting a node one way comes to a node below it another way, and no node on the way is left for
later but perhaps the last. -/
inductive Along (visit : Visit) (n : Node) : Visit → Node → Prop where
  | refl : Along visit n visit n
  | child {visit' : Visit} {m c : Node} (h : Along visit n visit' m)
      (hdefers : visit'.defers m.kind = false) (hc : c ∈ m.children) :
      Along visit n (visit'.below m.kind c.kind) c

namespace Along

variable {root n m c q : Node} {visit visit' visit'' : Visit}

theorem mem_nodes (h : Along visit n visit' m) : m ∈ n.nodes := by
  induction h with
  | refl => exact self_mem_nodes _
  | child _ _ hc ih => exact mem_nodes_trans (child_mem_nodes hc) ih

/-- The way to a node passes through every node between, and leaves none of them for later. -/
theorem through (h : Along visit n visit' m) (hroot : root.LaidOut) (hn : n ∈ root.nodes)
    (hm : m.span.Nonempty) (hq : q ∈ n.nodes) (hmq : m ∈ q.descendants) :
    ∃ between, Along visit n between q ∧ between.defers q.kind = false := by
  induction h with
  | refl =>
    -- Nothing lies between a node and itself.
    have hlt := size_lt_of_descendant hmq
    rcases mem_nodes_iff.1 hq with rfl | hq
    · exact absurd hlt (Nat.lt_irrefl _)
    · exact absurd hlt (Nat.lt_asymm (size_lt_of_descendant hq))
  | @child visit' k c h hdefers hc ih =>
    have hk : k ∈ root.nodes := mem_nodes_trans h.mem_nodes hn
    have hkc : k.span.contains c.span := hroot.nested k hk c hc
    have hkq := hroot.mem_nodes_of_child hk (mem_nodes_trans hq hn) hc hm hmq
    rcases mem_nodes_iff.1 hkq with rfl | hkq
    · exact ⟨visit', h, hdefers⟩
    · exact ih (hm.of_contains hkc) hkq

end Along

end Node

namespace Visit

/-- How a visit of a node visits a child, which may have to wait until the node is entered. -/
def inside (visit : Visit) (kind child : Kind) : Visit :=
  if visit.defers kind then callable.below kind child else visit.below kind child

theorem below_ne (visit : Visit) (kind child : Kind) :
    visit.below kind child ≠ .file ∧ visit.below kind child ≠ .callable := by
  cases visit <;> grind [below, ofStatement, ofClassPart]

theorem inside_ne (visit : Visit) (kind child : Kind) :
    visit.inside kind child ≠ .file ∧ visit.inside kind child ≠ .callable := by
  unfold inside
  split
  · exact below_ne ..
  · exact below_ne ..

end Visit

namespace Node

theorem Along.eq_of_callable {visit visit' : Visit} {n m : Node} (h : Along visit n visit' m)
    (hvisit : visit' = .callable) : visit = .callable ∧ m = n := by
  cases h with
  | refl => exact ⟨hvisit, rfl⟩
  | child => exact absurd hvisit (Visit.below_ne ..).2

/-- **The way in which a node is visited**, from its place in the tree. -/
inductive Way (root : Node) : Visit → Node → Prop where
  | root : Way root .file root
  | child {visit : Visit} {n c : Node} (h : Way root visit n) (hc : c ∈ n.children) :
      Way root (visit.inside n.kind c.kind) c

namespace Way

variable {root n m c : Node} {visit visit' : Visit}

theorem mem_nodes (h : Way root visit n) : n ∈ root.nodes := by
  induction h with
  | root => exact self_mem_nodes root
  | child _ hc ih => exact mem_nodes_trans (child_mem_nodes hc) ih

theorem eq_root (h : Way root visit n) (hvisit : visit = .file) : n = root := by
  cases h with
  | root => rfl
  | child => exact absurd hvisit (Visit.inside_ne ..).1

theorem ne_callable (h : Way root visit n) : visit ≠ .callable := by
  cases h with
  | root => exact nofun
  | child => exact (Visit.inside_ne ..).2

theorem through {q : Node} (hroot : root.LaidOut) (h : Way root visit n) (hn : n.span.Nonempty)
    (hq : q ∈ root.nodes) (hnq : n ∈ q.nodes) : ∃ visit', Way root visit' q := by
  induction h with
  | root =>
    rcases mem_nodes_iff.1 hnq with rfl | hlt
    · exact ⟨.file, .root⟩
    · exact absurd (size_lt_of_descendant (mem_descendants_trans hq hlt)) (Nat.lt_irrefl _)
  | @child visit m c h hc ih =>
    rcases mem_nodes_iff.1 hnq with rfl | hlt
    · exact ⟨_, h.child hc⟩
    · have hmq := hroot.mem_nodes_of_child h.mem_nodes hq hc hn hlt
      exact ih (hn.of_contains (hroot.nested m h.mem_nodes c hc)) hmq

/-- **A node is visited in one way.** -/
theorem unique (hroot : root.LaidOut) (h : Way root visit n) (h' : Way root visit' n)
    (hn : n.span.Nonempty) : visit = visit' := by
  induction h generalizing visit' with
  | root =>
    cases h' with
    | root => rfl
    | child h hc =>
      exact absurd (size_lt_of_descendant (mem_descendants_of_child hc h.mem_nodes))
        (Nat.lt_irrefl _)
  | @child visit m c h hc ih =>
    cases h' with
    | root =>
      exact absurd (size_lt_of_descendant (mem_descendants_of_child hc h.mem_nodes))
        (Nat.lt_irrefl _)
    | @child visit' m' _ h' hc' =>
      obtain rfl := hroot.parent_unique h.mem_nodes h'.mem_nodes hc hc' hn
      have hm : m.span.Nonempty := hn.of_contains (hroot.nested m h.mem_nodes c hc)
      rw [ih h' hm]

theorem along (h : Way root visit n) (h' : Along visit n visit' m) : Way root visit' m := by
  induction h' with
  | refl => exact h
  | child _ hdefers hc ih =>
    have hway := ih.child hc
    rwa [Visit.inside, hdefers] at hway

theorem along_callable (h : Way root visit n) (hdefers : visit.defers n.kind)
    (h' : Along .callable n visit' m) (hm : m ∈ n.descendants) : Way root visit' m := by
  induction h' with
  | refl => exact absurd (size_lt_of_descendant hm) (Nat.lt_irrefl _)
  | @child visit' k c hk hdefers' hc ih =>
    rcases mem_nodes_iff.1 hk.mem_nodes with rfl | hkn
    · cases hk with
      | refl =>
        have hway := h.child hc
        rwa [Visit.inside, if_pos hdefers] at hway
      | child hk _ hc' =>
        exact absurd (size_lt_of_descendant (mem_descendants_of_child hc' hk.mem_nodes))
          (Nat.lt_irrefl _)
    · have hway := (ih hkn).child hc
      rwa [Visit.inside, hdefers'] at hway

end Way

end Node

end DeadCode
