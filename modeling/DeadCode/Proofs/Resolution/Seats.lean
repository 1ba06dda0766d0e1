import DeadCode.Proofs.Graph.Closest
import DeadCode.Proofs.Resolution.Runs.Expression

/-! # The statements of a tree and their owners

Whether a node becomes a statement of the graph follows from its kind and from the way in which its
parent is visited: a block is no statement of its own, the header of a loop holds statements only if
they declare something, and a method is one only in the body of a class. The nodes that do are said to
have a seat. The owner of a node is the innermost of them around it. -/

namespace DeadCode

/-- Whether a kind is that of a statement that is one of its own: any but a block. -/
def Kind.isItem (kind : Kind) : Bool :=
  kind.form?.any (· ≠ .block)

namespace Kind

variable {kind : Kind} {form : Form}

/-- Every statement but a block is an item. -/
theorem isItem_of_form (h : kind.form? = some form) (hblock : form ≠ .block) : kind.isItem := by
  simp [isItem, h, hblock]

theorem form?_isSome_of_isItem (h : kind.isItem) : kind.form?.isSome := by
  unfold isItem at h
  cases hform : kind.form? with
  | none => simp [hform] at h
  | some form => rfl

theorem not_isItem_of_block (h : kind.form? = some .block) : ¬ kind.isItem := by
  simp [isItem, h]

theorem not_isItem_of_isClause (h : kind.isClause) : ¬ kind.isItem := by
  cases kind <;> first | decide | cases h

end Kind

namespace Node

/-- The header of a statement or a clause: the children that are read as expressions while it is
linked. -/
def headers (n : Node) : List Node :=
  n.kind.headerFields.flatMap fun field =>
    if n.kind.form? = some .countedLoop then n.childrenAt field else (n.child? field).toList

section Headers

variable {root n c : Node} {field : Field}

/-- The parts of a header are children in its fields. -/
theorem of_mem_headers (h : c ∈ n.headers) :
    c ∈ n.children ∧ ∃ field ∈ n.kind.headerFields, c.field = some field := by
  obtain ⟨field, hfield, hc⟩ := List.mem_flatMap.1 h
  split at hc
  · exact ⟨mem_children_of_childrenAt hc, field, hfield, field_of_childrenAt hc⟩
  · have hc := Option.mem_toList.1 hc
    exact ⟨mem_children_of_child? hc, field, hfield, field_of_child? hc⟩

theorem field_isHeader_of_mem_headers (h : c ∈ n.headers) : c.field.any Field.isHeader := by
  obtain ⟨-, field, hfield, heq⟩ := of_mem_headers h
  rw [heq]
  exact Kind.isHeader_of_mem_headerFields hfield

theorem not_mem_headers_of_field (h : c.field = some field) (hfield : field ∉ n.kind.headerFields) :
    c ∉ n.headers := by
  intro hc
  obtain ⟨-, field', hfield', heq⟩ := of_mem_headers hc
  rw [h] at heq
  cases heq
  exact hfield hfield'

theorem not_mem_headers_of_nil (h : n.kind.headerFields = []) : c ∉ n.headers := by
  simp [headers, h]

theorem mem_headers_of_child? (h : n.child? field = some c) (hfield : field ∈ n.kind.headerFields)
    (hform : n.kind.form? ≠ some .countedLoop) : c ∈ n.headers :=
  List.mem_flatMap.2 ⟨field, hfield, by rw [if_neg hform]; exact Option.mem_toList.2 h⟩

theorem mem_headers_of_childrenAt (h : c ∈ n.childrenAt field)
    (hfield : field ∈ n.kind.headerFields) (hform : n.kind.form? = some .countedLoop) :
    c ∈ n.headers :=
  List.mem_flatMap.2 ⟨field, hfield, by rwa [if_pos hform]⟩

/-- Without a field its child is gone. -/
theorem not_mem_without (hroot : root.LaidOut) (hn : n ∈ root.nodes) (hc : n.child? field = some c)
    (hne : c.span.Nonempty) : c ∉ (n.without field).children := by
  have hordered := hroot.ordered n hn
  have hself : ¬ c.span.stop ≤ c.span.start := Nat.not_le.2 hne
  unfold child? at hc
  change c ∉ n.children.eraseP _
  generalize n.children = children at hordered hc
  induction children with
  | nil => simp
  | cons first rest ih =>
    obtain ⟨hfirst, hrest⟩ := List.pairwise_cons.1 hordered
    by_cases hfield : first.field = some field
    · -- The first child is the one under the field, and none of the rest starts before it ends.
      obtain rfl : first = c := by simpa [hfield] using hc
      rw [List.eraseP_cons_of_pos (by simpa using hfield)]
      exact fun hmem => hself (hfirst _ hmem)
    · rw [List.find?_cons_of_neg (by simpa using hfield)] at hc
      rw [List.eraseP_cons_of_neg (by simpa using hfield), List.mem_cons, not_or]
      refine ⟨?_, ih hrest hc⟩
      rintro rfl
      exact hfield (by simpa using List.find?_some hc)

end Headers

/-! ## What is asked of a tree -/

/-- **Trees that are spaced well**: the nodes are laid out in a text of less than `2 ^ 64` bytes, and
statements and methods are not empty and strictly smaller than the statements and callables they lie
in. What an export declares counts as a statement; a namespace that makes up an expression statement
does not. -/
structure WellSpaced (root : Node) : Prop where
  laid : root.LaidOut
  program : root.kind ≠ .expressionStatement
  shrinking : ∀ outer ∈ root.nodes, outer.Encloses ∨ outer.Stated → ∀ p ∈ outer.nodes,
    ∀ n ∈ p.children, n.Stated → (p.kind = .expressionStatement → n.kind ≠ .internalModule) →
      n.span.length < outer.span.length
  statements : ∀ n ∈ root.nodes, n.Stated → n.span.Nonempty
  bounded : root.span.stop < Span.offsets

instance (root : Node) : Decidable root.WellSpaced :=
  decidable_of_iff (root.LaidOut ∧ root.kind ≠ .expressionStatement ∧
      (∀ outer ∈ root.nodes, outer.Encloses ∨ outer.Stated → ∀ p ∈ outer.nodes,
        ∀ n ∈ p.children, n.Stated → (p.kind = .expressionStatement → n.kind ≠ .internalModule) →
          n.span.length < outer.span.length) ∧
      (∀ n ∈ root.nodes, n.Stated → n.span.Nonempty) ∧ root.span.stop < Span.offsets)
    ⟨fun ⟨laid, program, shrinking, statements, bounded⟩ =>
        ⟨laid, program, shrinking, statements, bounded⟩,
      fun h => ⟨h.laid, h.program, h.shrinking, h.statements, h.bounded⟩⟩

/-- What the grammar promises of declarations: of the headers of statements only that of a counted loop
declares variables, and what an export declares is no block. -/
structure DeclarationsFit (root : Node) : Prop where
  header : ∀ n ∈ root.nodes, ∀ c ∈ n.headers, c.kind.form?.any Form.declaresVariables →
    n.kind.form? = some .countedLoop
  exported : ∀ n ∈ root.nodes, n.kind.form? = some .exportDecl →
    ∀ c ∈ n.child? .declaration, c.kind.form? ≠ some .block

instance (root : Node) : Decidable root.DeclarationsFit :=
  decidable_of_iff
    ((∀ n ∈ root.nodes, ∀ c ∈ n.headers, c.kind.form?.any Form.declaresVariables →
        n.kind.form? = some .countedLoop) ∧
      ∀ n ∈ root.nodes, n.kind.form? = some .exportDecl →
        ∀ c ∈ n.child? .declaration, c.kind.form? ≠ some .block)
    ⟨fun ⟨header, exported⟩ => ⟨header, exported⟩, fun h => ⟨h.header, h.exported⟩⟩

/-! ## Seats -/

/-- A visit of a node makes a statement of its own of a child. -/
def Seats (visit : Visit) (n c : Node) : Prop :=
  match visit with
  | .file => c.kind.isItem
  | .link => n.kind.holdsStatements ∧
      (c.kind.isItem ∨ n.kind.form? = some .exportDecl ∧ n.child? .declaration = some c) ∧
      (c ∈ n.headers → c.kind.form?.any Form.declaresVariables)
  | .members => c.kind = .methodDefinition
  | .resolve | .member | .callable => False

/-- **A node has a seat in the graph**: the visit of its parent makes a statement of it. -/
def Seated (root c : Node) : Prop :=
  ∃ visit n, Way root visit n ∧ c ∈ n.children ∧ Seats visit n c

section Seats

variable {root n c m : Node} {visit : Visit}

/-- What is seated is a statement. -/
theorem Seats.stated (h : Seats visit n c) : c.Stated := by
  cases visit with
  | file => exact .inl (.inl (Kind.form?_isSome_of_isItem h))
  | link =>
    rcases h.2.1 with hitem | ⟨-, hc⟩
    · exact .inl (.inl (Kind.form?_isSome_of_isItem hitem))
    · exact .inr (field_of_child? hc)
  | members => exact .inl (.inr h)
  | resolve | member | callable => cases h

/-- Nothing is seated in an expression. -/
theorem not_seats_of_reads {kind : Kind} (h : visit.Reads kind) : ¬ Seats visit n c := by
  rcases h.visit_eq with rfl | rfl <;> exact id

theorem not_seats_of_class (h : Build.IsClassVisit visit n) : ¬ Seats visit n c := by
  have hbelow := h.below .identifier
  intro hseat
  cases visit with
  | file => cases hbelow
  | link =>
    rw [Visit.below_link hseat.1] at hbelow
    cases hbelow
  | members => cases hbelow
  | resolve | member | callable => exact hseat

theorem not_seats_of_defers (h : visit.defers n.kind) : ¬ Seats visit n c := by
  intro hseat
  cases visit with
  | link =>
    rw [Visit.defers_link hseat.1] at h
    cases h
  | file | members => cases h
  | resolve | member | callable => exact hseat

/-- The statements of a file are seated. -/
theorem seated_of_top (hc : c ∈ root.namedChildren) (hitem : c.kind.isItem) : Seated root c :=
  ⟨.file, root, .root, mem_children_of_namedChildren hc, hitem⟩

/-- An exported declaration is seated. -/
theorem seated_of_exported (hway : Way root .link n) (hform : n.kind.form? = some .exportDecl)
    (hc : n.child? .declaration = some c) : Seated root c := by
  refine ⟨.link, n, hway, mem_children_of_child? hc, Kind.holdsStatements_of_form hform rfl,
    .inr ⟨hform, hc⟩, fun hheader => ?_⟩
  exact absurd hheader
    (not_mem_headers_of_field (field_of_child? hc) (by simp [Kind.headerFields, hform]))

theorem Seated.mem_nodes (h : Seated root c) : c ∈ root.nodes := by
  obtain ⟨visit, n, hway, hc, -⟩ := h
  exact mem_nodes_trans (child_mem_nodes hc) hway.mem_nodes

theorem Seated.stated (h : Seated root c) : c.Stated := by
  obtain ⟨visit, n, -, -, hseats⟩ := h
  exact hseats.stated

/-- What is seated has a statement. -/
theorem Seated.hasStatement (h : Seated root c) : root.HasStatement c := by
  obtain ⟨visit, n, hway, -, hseats⟩ := h
  cases visit with
  | file => exact .inl (.inl (Kind.form?_isSome_of_isItem hseats))
  | link =>
    rcases hseats.2.1 with hitem | ⟨hform, hc⟩
    · exact .inl (.inl (Kind.form?_isSome_of_isItem hitem))
    · exact .inr ⟨n, hway.mem_nodes, Kind.eq_of_form hform rfl, hc⟩
  | members => exact .inl (.inr hseats)
  | resolve | member | callable => cases hseats

theorem Seated.nonempty (h : Seated root c) (hroot : root.WellSpaced) : c.span.Nonempty :=
  hroot.statements c h.mem_nodes h.stated

/-- What is seated is seated by its parent. -/
theorem Seated.seats (h : Seated root c) (hroot : root.WellSpaced) (hway : Way root visit n)
    (hc : c ∈ n.children) : Seats visit n c := by
  have hne := h.nonempty hroot
  obtain ⟨visit', n', hway', hc', hseats⟩ := h
  obtain rfl := hroot.laid.parent_unique hway.mem_nodes hway'.mem_nodes hc hc' hne
  have hn : n.span.Nonempty :=
    hne.of_contains (hroot.laid.nested n hway.mem_nodes c hc)
  obtain rfl := hway.unique hroot.laid hway' hn
  exact hseats

theorem Seats.kind_ne_internalModule (h : Seats visit n c) (hroot : root.WellSpaced)
    (hway : Way root visit n) (hn : n.kind = .expressionStatement) : c.kind ≠ .internalModule := by
  cases visit with
  | file => exact absurd (hway.eq_root rfl ▸ hn) hroot.program
  | link =>
    have hholds := h.1
    rw [hn] at hholds
    cases hholds
  | members =>
    rw [show c.kind = .methodDefinition from h]
    decide
  | resolve | member | callable => cases h

/-- **What has a seat is strictly smaller than the statements and callables it lies in.** -/
theorem Seated.length_lt_of_mem (h : Seated root c) (hroot : root.WellSpaced) {outer : Node}
    (houter : outer ∈ root.nodes) (hsort : outer.Encloses ∨ outer.Stated)
    (hmem : c ∈ outer.descendants) : c.span.length < outer.span.length := by
  have hne := h.nonempty hroot
  obtain ⟨visit, n, hway, hc, hseats⟩ := h
  have hn : n ∈ outer.nodes := hroot.laid.mem_nodes_of_child hway.mem_nodes houter hc hne hmem
  exact hroot.shrinking outer houter hsort n hn c hc hseats.stated
    (hseats.kind_ne_internalModule hroot hway)

/-- The seated statements are told apart. -/
theorem WellSpaced.spaced (h : root.WellSpaced) : root.Spaced (Seated root) where
  laid := h.laid
  shrinking := fun _ ho hs _ hn hseated => hseated.length_lt_of_mem h ho (.inr hs.stated) hn
  nonempty := fun _ _ hseated => hseated.nonempty h
  bounded := h.bounded

/-- A block is not seated. -/
theorem not_seated_of_block (hroot : root.DeclarationsFit) (hform : c.kind.form? = some .block) :
    ¬ Seated root c := by
  rintro ⟨visit, n, hway, -, hseats⟩
  have hitem := Kind.not_isItem_of_block hform
  cases visit with
  | file => exact hitem hseats
  | link =>
    rcases hseats.2.1 with h | ⟨hexport, hc⟩
    · exact hitem h
    · exact hroot.exported n hway.mem_nodes hexport c hc hform
  | members =>
    rw [show c.kind = .methodDefinition from hseats] at hform
    cases hform
  | resolve | member | callable => exact hseats

/-- The statements in a statement are linked. -/
theorem Way.nested (h : Way root .link n) (hkind : n.kind.holdsStatements) (hc : c ∈ n.children) :
    Way root (.ofStatement c.kind) c := by
  have hway := h.child hc
  rwa [Visit.inside, Visit.defers_link hkind, if_neg Bool.false_ne_true,
    Visit.below_link hkind] at hway

/-! ## Seats below an expression -/

/-- A node below an expression is visited as an expression or a member too, unless it lies in a
callable there. -/
theorem Way.below_expression (hroot : root.LaidOut) (hway : Way root visit n)
    (hvisit : visit = .resolve ∨ visit = .member) {visit' : Visit} (hm : Way root visit' m)
    (hne : m.span.Nonempty) (hmem : m ∈ n.nodes) :
    (∃ d ∈ n.nodes, d.kind.isCallable ∧ m ∈ d.descendants) ∨
      visit' = .resolve ∨ visit' = .member := by
  have hself {visit' : Visit} (h : Way root visit' n) (hn : n.span.Nonempty) :
      visit' = .resolve ∨ visit' = .member := by
    rwa [h.unique hroot hway hn]
  induction hm with
  | root =>
    rcases mem_nodes_iff.1 hmem with rfl | hlt
    · exact .inr (hself .root hne)
    · exact absurd (size_lt_of_descendant (mem_descendants_trans hway.mem_nodes hlt))
        (Nat.lt_irrefl _)
  | @child visit' k c hk hc ih =>
    rcases mem_nodes_iff.1 hmem with rfl | hlt
    · exact .inr (hself (hk.child hc) hne)
    have hkn := hroot.mem_nodes_of_child hk.mem_nodes hway.mem_nodes hc hne hlt
    rcases ih (hne.of_contains (hroot.nested k hk.mem_nodes c hc)) hkn with ⟨d, hd, hcall, hkd⟩ | h
    · exact .inl ⟨d, hd, hcall, mem_descendants_trans (child_mem_nodes hc) hkd⟩
    by_cases hcall : k.kind.isCallable
    · exact .inl ⟨k, hkn, hcall, child_mem_descendants hc⟩
    · -- No callable, so nothing is left for later, and the parts are expressions or members.
      have hdefers : visit'.defers k.kind = false :=
        Bool.eq_false_iff.2 fun hd => hcall (Visit.isCallable_of_defers hd).1
      have hclass : k.kind ≠ .classLiteral := fun hk => hcall (by rw [hk]; rfl)
      refine .inr ?_
      rw [Visit.inside, hdefers]
      rcases h with rfl | rfl <;> simp only [Bool.false_eq_true, if_false, Visit.below, hclass] <;>
        split <;> simp

/-- **What has a seat in an expression is strictly smaller than the expression.** It lies in a callable
there. -/
theorem Seated.length_lt (h : Seated root m) (hroot : root.WellSpaced) (hway : Way root visit n)
    (hvisit : visit = .resolve ∨ visit = .member) (hmem : m ∈ n.descendants) :
    m.span.length < n.span.length := by
  have hne := h.nonempty hroot
  have hsmaller (d : Node) (hd : d ∈ n.nodes) (hcall : d.kind.isCallable)
      (hmd : m ∈ d.descendants) : m.span.length < n.span.length := by
    have hd' := mem_nodes_trans hd hway.mem_nodes
    calc m.span.length
        < d.span.length := h.length_lt_of_mem hroot hd' (.inl (.inr hcall)) hmd
      _ ≤ n.span.length :=
        Span.length_le_of_contains (hroot.laid.nested.contains hway.mem_nodes hd)
  obtain ⟨visit', p, hp, hm, hseats⟩ := h
  have hpn := hroot.laid.mem_nodes_of_child hp.mem_nodes hway.mem_nodes hm hne hmem
  have hpne : p.span.Nonempty := hne.of_contains (hroot.laid.nested p hp.mem_nodes m hm)
  rcases hway.below_expression hroot.laid hvisit hp hpne hpn with ⟨d, hd, hcall, hpd⟩ | rfl | rfl
  · exact hsmaller d hd hcall (mem_descendants_trans (child_mem_nodes hm) hpd)
  · cases hseats
  · cases hseats

end Seats

/-! ## Owners -/

/-- **The owner of a node**: the innermost node with a seat that the node lies strictly in. -/
structure Owner (root o n : Node) : Prop where
  seated : Seated root o
  mem : n ∈ o.descendants
  least : ∀ m, Seated root m → n ∈ m.descendants → o ∈ m.nodes

/-- The innermost node with a seat that a node lies in. -/
structure Holder (root o n : Node) : Prop where
  seated : Seated root o
  mem : n ∈ o.nodes
  least : ∀ m, Seated root m → n ∈ m.nodes → o ∈ m.nodes

section Owners

variable {root o o' n c : Node}

theorem Holder.self (h : Seated root n) : Holder root n n :=
  ⟨h, self_mem_nodes n, fun _ _ hmem => hmem⟩

/-- The holder of a node owns its children. -/
theorem Holder.owner (h : Holder root o n) (hroot : root.LaidOut) (hn : n ∈ root.nodes)
    (hc : c ∈ n.children) (hne : c.span.Nonempty) : Owner root o c where
  seated := h.seated
  mem := by
    rcases mem_nodes_iff.1 h.mem with rfl | hlt
    · exact child_mem_descendants hc
    · exact mem_descendants_trans (child_mem_nodes hc) hlt
  least := fun m hm hmem =>
    h.least m hm (hroot.mem_nodes_of_child hn hm.mem_nodes hc hne hmem)

/-- The owner of a node that is not seated holds it. -/
theorem Owner.holder (h : Owner root o n) (hnot : ¬ Seated root n) : Holder root o n where
  seated := h.seated
  mem := mem_nodes_of_descendant h.mem
  least := by
    intro m hm hmem
    rcases mem_nodes_iff.1 hmem with rfl | hlt
    · exact absurd hm hnot
    · exact h.least m hm hlt

/-- **A node has one owner.** -/
theorem Owner.unique (h : Owner root o n) (h' : Owner root o' n) : o = o' := by
  have hmem := h.least o' h'.seated h'.mem
  have hmem' := h'.least o h.seated h.mem
  rcases mem_nodes_iff.1 hmem with heq | hlt
  · exact heq
  · rcases mem_nodes_iff.1 hmem' with heq | hlt'
    · exact heq.symm
    · exact absurd (size_lt_of_descendant hlt) (Nat.lt_asymm (size_lt_of_descendant hlt'))

/-- What holds an expression that is not empty lies in every node with a seat around its range. -/
theorem Holder.mem_nodes_of_contains {visit : Visit} {m : Node} (h : Holder root o n)
    (hroot : root.WellSpaced) (hway : Way root visit n)
    (hvisit : visit = .resolve ∨ visit = .member) (hne : n.span.Nonempty) (hm : Seated root m)
    (hcontains : m.span.contains n.span) : o ∈ m.nodes := by
  rcases hroot.laid.comparable hway.mem_nodes hm.mem_nodes hne n.span.contains_self hcontains
    with hnm | hmn
  · exact h.least m hm hnm
  · rcases mem_nodes_iff.1 hmn with rfl | hlt
    · exact h.least m hm (self_mem_nodes m)
    · have hlength := hm.length_lt hroot hway hvisit hlt
      exact absurd hlength (Nat.not_lt.2 (Span.length_le_of_contains hcontains))

end Owners

end Node

end DeadCode
