import DeadCode.Proofs.Sorting
import DeadCode.Proofs.Syntax.Layout

/-! # Source order is the order of the offsets

Statements are linked by row and column. Both are found by walking over the bytes before an offset,
and each byte leads to a later place. So what starts at a smaller offset comes first. -/

namespace DeadCode

namespace Node

theorem notAfter_iff {a b : Nat × Nat} : notAfter a b ↔ a.1 < b.1 ∨ a.1 = b.1 ∧ a.2 ≤ b.2 := by
  unfold notAfter
  rcases Nat.lt_trichotomy a.1 b.1 with h | h | h
  · simp [Nat.compare_eq_lt.2 h, h]
  · simp [h, Nat.isLE_compare]
  · simp [Nat.compare_eq_gt.2 h, Nat.not_lt_of_gt h, Nat.ne_of_gt h]

end Node

namespace Source

theorem advance_succ (bytes : ByteArray) (count offset row column : Nat) :
    advance bytes (count + 1) offset row column =
      if isLineFeed bytes (offset + count) then
        ((advance bytes count offset row column).1 + 1, 0)
      else
        ((advance bytes count offset row column).1,
          (advance bytes count offset row column).2 + 1) := by
  induction count generalizing offset row column with
  | zero =>
    rw [advance]
    simp [advance]
  | succ count ih =>
    have hoffset : offset + (count + 1) = offset + 1 + count := by omega
    by_cases hfeed : isLineFeed bytes offset
    · have hstep (k : Nat) : advance bytes (k + 1) offset row column =
          advance bytes k (offset + 1) (row + 1) 0 := by rw [advance, if_pos hfeed]
      rw [hstep, hstep, hoffset]
      exact ih _ _ _
    · have hstep (k : Nat) : advance bytes (k + 1) offset row column =
          advance bytes k (offset + 1) row (column + 1) := by rw [advance, if_neg hfeed]
      rw [hstep, hstep, hoffset]
      exact ih _ _ _

/-- Each byte leads one row down, to the first column, or one column on. -/
theorem place_succ (bytes : ByteArray) (offset : Nat) :
    advance bytes (offset + 1) 0 0 0 =
      if isLineFeed bytes offset then ((advance bytes offset 0 0 0).1 + 1, 0)
      else ((advance bytes offset 0 0 0).1, (advance bytes offset 0 0 0).2 + 1) := by
  have h := advance_succ bytes offset 0 0 0
  rwa [Nat.zero_add] at h

/-- Places are ordered as offsets are. -/
theorem not_notAfter_place (bytes : ByteArray) {a b : Nat} (h : a < b) :
    ¬ Node.notAfter (advance bytes b 0 0 0) (advance bytes a 0 0 0) := by
  rw [Node.notAfter_iff]
  induction h with
  | refl =>
    rw [place_succ]
    split <;> simp
  | @step b _ ih =>
    rw [place_succ]
    split
    · simp only
      omega
    · simp only
      omega

/-- **Places compare as the offsets do**, wherever the line feeds are. -/
theorem notAfter_place_iff (bytes : ByteArray) {a b : Nat} :
    Node.notAfter (advance bytes a 0 0 0) (advance bytes b 0 0 0) ↔ a ≤ b := by
  constructor
  · intro h
    by_contra hlt
    exact not_notAfter_place bytes (Nat.lt_of_not_le hlt) h
  · intro h
    rcases Nat.lt_or_eq_of_le h with hlt | rfl
    · have hnot := not_notAfter_place bytes hlt
      rw [Node.notAfter_iff] at hnot ⊢
      omega
    · exact Node.notAfter_iff.2 (.inr ⟨rfl, Nat.le_refl _⟩)

/-- A row and a column are those of an offset: the number of line feeds before it, and the number of
bytes since the last of them, or since the start of the text. -/
structure IsPlace (bytes : ByteArray) (offset : Nat) (place : Nat × Nat) : Prop where
  row : place.1 = (List.range offset).countP (isLineFeed bytes)
  column : place.2 ≤ offset
  line : ∀ i, offset - place.2 ≤ i → i < offset → isLineFeed bytes i = false
  feed : offset = place.2 ∨ isLineFeed bytes (offset - place.2 - 1)

/-- Advancing over the text gives the place of an offset. -/
theorem isPlace_advance (bytes : ByteArray) (offset : Nat) :
    IsPlace bytes offset (advance bytes offset 0 0 0) := by
  induction offset with
  | zero => exact ⟨rfl, Nat.le_refl 0, fun i _ hi => absurd hi (Nat.not_lt_zero i), .inl rfl⟩
  | succ offset ih =>
    rw [place_succ]
    split
    · next hfeed =>
      refine ⟨?_, Nat.zero_le _, fun i hle hlt => ?_, .inr hfeed⟩
      · simp [List.range_succ, ih.row, hfeed]
      · simp only at hle
        omega
    · next hfeed =>
      refine ⟨?_, Nat.succ_le_succ ih.column, fun i hle hlt => ?_, ?_⟩
      · simp [List.range_succ, ih.row, hfeed]
      · rcases Nat.lt_succ_iff_lt_or_eq.1 hlt with hlt | rfl
        · exact ih.line i (by simp only at hle; omega) hlt
        · simpa using hfeed
      · refine ih.feed.imp (congrArg (· + 1)) fun h => ?_
        rwa [Nat.succ_sub_succ]

end Source

namespace Node

variable {source : String} {n c : Node} {ns : List Node}

/-- Sorting keeps the nodes. -/
theorem perm_inSourceOrder (source : String) (ns : List Node) :
    (inSourceOrder source ns).Perm ns := by
  have h := (perm_sortBy (fun a b => notAfter a.1 b.1) (ns.map fun n => (n.position source, n))).map
    Prod.snd
  rw [List.map_map] at h
  exact h.trans (by simp [Function.comp_def])

/-- Sorted nodes start one after another. -/
theorem pairwise_inSourceOrder (source : String) (ns : List Node) :
    (inSourceOrder source ns).Pairwise fun a b => a.span.start ≤ b.span.start := by
  have hle (x y : (Nat × Nat) × Node) : notAfter x.1 y.1 =
      (compareLex (compareOn fun z => z.1.1) (compareOn fun z => z.1.2) x y).isLE := rfl
  have hsorted := pairwise_sortBy hle (ns.map fun n => (n.position source, n))
  refine List.pairwise_map.2 (hsorted.imp_of_mem fun {a b} ha hb hab => ?_)
  obtain ⟨x, -, rfl⟩ := List.mem_map.1 (mem_sortBy.1 ha)
  obtain ⟨y, -, rfl⟩ := List.mem_map.1 (mem_sortBy.1 hb)
  exact (Source.notAfter_place_iff source.toUTF8).1 hab

theorem inSourceOrder_eq_self (source : String)
    (h : ns.Pairwise fun a b => a.span.start ≤ b.span.start) : inSourceOrder source ns = ns := by
  rw [inSourceOrder, sortBy_eq_self, List.map_map]
  · simp [Function.comp_def]
  · exact List.pairwise_map.2 (h.imp fun hab => (Source.notAfter_place_iff source.toUTF8).2 hab)

/-- **The children around a child in source order.** Those that come before it end before it starts,
and those that come after it start no earlier. -/
structure Around (source : String) (n c : Node) (before after : List Node) : Prop where
  ordered : n.orderedChildren source = before ++ c :: after
  earlier : ∀ a ∈ before, a ∈ n.namedChildren ∧ a ≠ c ∧ a.span.stop ≤ c.span.start
  later : ∀ a ∈ after, a ∈ n.namedChildren ∧ a ≠ c ∧ c.span.start ≤ a.span.start

theorem Around.mem_or_mem {before after : List Node} (h : n.Around source c before after) {a : Node}
    (ha : a ∈ n.namedChildren) (hne : a ≠ c) : a ∈ before ∨ a ∈ after := by
  have hmem : a ∈ n.orderedChildren source := (perm_inSourceOrder source _).mem_iff.2 ha
  rw [h.ordered, List.mem_append, List.mem_cons] at hmem
  exact hmem.imp_right fun hmem => hmem.resolve_left hne

/-- A child has those before and those after it around. -/
theorem exists_around (source : String) (hlaid : n.LaidOut) (hc : c ∈ n.namedChildren)
    (hne : c.span.Nonempty) : ∃ before after, n.Around source c before after := by
  have hperm : (n.orderedChildren source).Perm n.namedChildren := perm_inSourceOrder source _
  obtain ⟨before, after, hsplit⟩ := List.append_of_mem (hperm.mem_iff.2 hc)
  have hle : (n.orderedChildren source).Pairwise fun a b => a.span.start ≤ b.span.start :=
    pairwise_inSourceOrder source n.namedChildren
  -- In any order, one of two children ends before the other starts.
  have hapart : (n.orderedChildren source).Pairwise fun a b =>
      a.span.stop ≤ b.span.start ∨ b.span.stop ≤ a.span.start := by
    have hordered := (hlaid.ordered n (self_mem_nodes n)).sublist
      (List.filter_sublist : n.namedChildren.Sublist n.children)
    exact (hordered.imp fun h => .inl h).perm hperm.symm fun h => h.symm
  rw [hsplit, List.pairwise_append] at hle hapart
  unfold Span.Nonempty at hne
  refine ⟨before, after, ⟨hsplit, fun a ha => ⟨?_, ?_, ?_⟩, fun a ha => ⟨?_, ?_, ?_⟩⟩⟩
  · exact hperm.mem_iff.1 (by rw [hsplit]; exact List.mem_append_left _ ha)
  · rintro rfl
    have hsides := hapart.2.2 a ha a List.mem_cons_self
    omega
  · have hstart := hle.2.2 a ha c List.mem_cons_self
    have hsides := hapart.2.2 a ha c List.mem_cons_self
    omega
  · exact hperm.mem_iff.1 (by
      rw [hsplit]
      exact List.mem_append_right _ (List.mem_cons_of_mem _ ha))
  · rintro rfl
    have hsides := (List.pairwise_cons.1 hapart.2.1).1 a ha
    omega
  · exact (List.pairwise_cons.1 hle.2.1).1 a ha

/-- **Children are linked in the order in which they stand.** If no child starts before an earlier
one, sorting the children by row and column gives the named children other than comments, in the
order of the tree, and a walk in source order is a walk over these. For the key of an offset is the
number of line feeds before it with the number of bytes since the last one, and such keys compare as
the offsets do, wherever the line feeds are. -/
theorem orderedChildren_as_written (source : String)
    (h : n.children.Pairwise fun a b => a.span.start ≤ b.span.start) :
    n.orderedChildren source = n.children.filter (fun c => c.flags.named && c.kind ≠ .comment) ∧
    (∀ visit : (c : Node) → c.size < n.size → Build Unit,
      n.forOrdered source visit = n.forNamed visit) ∧
    (∀ scope owner, Build.linkBody source n scope owner =
      n.namedChildren.forM fun c => Build.statement source c scope owner) ∧
    (∀ c : Node, Source.IsPlace source.toUTF8 c.span.start (c.position source)) ∧
    ∀ (bytes : ByteArray) (a b : Nat), notAfter (Source.advance bytes a 0 0 0)
      (Source.advance bytes b 0 0 0) ↔ a ≤ b := by
  have hself : n.orderedChildren source = n.namedChildren :=
    inSourceOrder_eq_self source (h.sublist List.filter_sublist)
  refine ⟨hself, ?_, fun scope owner => ?_, fun c => Source.isPlace_advance _ _,
    fun bytes _ _ => Source.notAfter_place_iff bytes⟩
  · intro visit
    simp only [forOrdered, forNamed, foldNamed, hself]
  · rw [Build.linkBody, hself]

/-- The tree of a comment and three statements, the first of them empty, over four lines. -/
def statementLines : Node :=
  .of (.other "program") 0 11
    [.of .comment 0 4, .of .emptyStatement 5 5,
     .of .expressionStatement 5 7 [.of .identifier 5 6, .token ";" 6 7],
     .of .expressionStatement 9 11 [.of .identifier 9 10, .token ";" 10 11]]

/-- Statements that start at the same offset stay in their order, and the comment is left out. -/
theorem orderedChildren_as_written_statementLines :
    statementLines.children.Pairwise (fun a b => a.span.start ≤ b.span.start) ∧
      (statementLines.orderedChildren "// x\na;\n\nb;").map key =
        [⟨.emptyStatement, ⟨5, 5⟩⟩, ⟨.expressionStatement, ⟨5, 7⟩⟩,
          ⟨.expressionStatement, ⟨9, 11⟩⟩] := by
  have hordered : statementLines.children.Pairwise fun a b => a.span.start ≤ b.span.start := by
    decide
  refine ⟨hordered, ?_⟩
  rw [(orderedChildren_as_written "// x\na;\n\nb;" hordered).1]
  rfl

end Node

end DeadCode
