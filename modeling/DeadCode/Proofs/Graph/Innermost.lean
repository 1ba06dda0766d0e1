import DeadCode.Proofs.Graph.Basic
import DeadCode.Proofs.Syntax.Layout

/-! # The innermost statement around a range

The statement that a range belongs to is found by distance: of all statements around the range it is
the first of those at the least distance. The distance is a measure of how loosely a statement
encloses the range, so no statement inside the one found encloses it as well. -/

namespace DeadCode

/-! ## Distances -/

namespace Span

variable {a t outer inner : Span}

/-- The number of offsets into a text. -/
def offsets : Nat := 18446744073709551616

theorem squaredDistance_eq_of_contains (h : a.contains t) : a.squaredDistance t =
    (t.start - a.start) * (t.start - a.start) + (a.stop - t.stop) * (a.stop - t.stop) := by
  rw [contains_iff] at h
  have hstart : gap a.start t.start = t.start - a.start := by
    unfold gap
    omega
  have hend : gap a.stop t.stop = a.stop - t.stop := by
    unfold gap
    omega
  rw [squaredDistance, hstart, hend]

/-- **Of two ranges around a third the inner one is closer.** -/
theorem squaredDistance_lt_of_contains (ho : outer.contains inner) (hi : inner.contains t)
    (hne : inner ≠ outer) : inner.squaredDistance t < outer.squaredDistance t := by
  rw [squaredDistance_eq_of_contains hi, squaredDistance_eq_of_contains (contains_trans ho hi)]
  rw [contains_iff] at ho hi
  have hstart : t.start - inner.start ≤ t.start - outer.start := by omega
  have hend : inner.stop - t.stop ≤ outer.stop - t.stop := by omega
  -- One of the two gaps is strictly smaller.
  rcases Nat.lt_or_ge (t.start - inner.start) (t.start - outer.start) with h | h
  · exact Nat.add_lt_add_of_lt_of_le (Nat.mul_self_lt_mul_self h) (Nat.mul_self_le_mul_self hend)
  · have hlt : inner.stop - t.stop < outer.stop - t.stop := by
      by_contra hge
      refine hne ?_
      cases inner
      cases outer
      simp only [mk.injEq]
      simp only at ho hi h hge
      omega
    exact Nat.add_lt_add_of_le_of_lt (Nat.mul_self_le_mul_self hstart) (Nat.mul_self_lt_mul_self hlt)

theorem squaredDistance_lt_wordSize (h : a.contains t) (ht : t.start ≤ t.stop)
    (hstop : a.stop < offsets) : a.squaredDistance t < wordSize := by
  rw [squaredDistance_eq_of_contains h]
  rw [contains_iff] at h
  -- Both gaps together are shorter than the text.
  have hsum : (t.start - a.start) + (a.stop - t.stop) < offsets := by omega
  calc (t.start - a.start) * (t.start - a.start) + (a.stop - t.stop) * (a.stop - t.stop)
      ≤ ((t.start - a.start) + (a.stop - t.stop)) * ((t.start - a.start) + (a.stop - t.stop)) := by
        rw [Nat.mul_add, Nat.add_mul, Nat.add_mul]
        omega
    _ < offsets * offsets := Nat.mul_self_lt_mul_self hsum
    _ = wordSize := by decide

theorem distance_eq_squaredDistance (h : a.squaredDistance t < wordSize) :
    a.distance t = a.squaredDistance t :=
  Nat.mod_eq_of_lt h

/-- The gap between the starts of two ranges, as a word. -/
def startGap (a t : Span) : BitVec 128 :=
  .ofNat 128 (gap a.start t.start)

/-- The gap between the stops of two ranges, as a word. -/
def stopGap (a t : Span) : BitVec 128 :=
  .ofNat 128 (gap a.stop t.stop)

/-- The sum of the squared gaps of two ranges, computed in words of 128 bits. -/
def distanceWord (a t : Span) : BitVec 128 :=
  a.startGap t * a.startGap t + a.stopGap t * a.stopGap t

theorem toNat_distanceWord (a t : Span) : (a.distanceWord t).toNat = a.distance t := by
  simp only [distanceWord, startGap, stopGap, BitVec.toNat_add, BitVec.toNat_mul,
    BitVec.toNat_ofNat, ← Nat.mul_mod, ← Nat.add_mod]
  rfl

/-- **The distance between two ranges is computed without loss**: the words hold the gaps, neither
a product nor the sum is too large for its word, and the outcome is the squared distance. -/
structure Measured (a t : Span) : Prop where
  startGap : (a.startGap t).toNat = gap a.start t.start
  stopGap : (a.stopGap t).toNat = gap a.stop t.stop
  startSquare : (a.startGap t).umulOverflow (a.startGap t) = false
  stopSquare : (a.stopGap t).umulOverflow (a.stopGap t) = false
  sum : (a.startGap t * a.startGap t).uaddOverflow (a.stopGap t * a.stopGap t) = false
  exact : (a.distanceWord t).toNat = a.squaredDistance t
  distance : a.distance t = a.squaredDistance t

theorem measured_of_lt (h : a.squaredDistance t < wordSize) : a.Measured t := by
  have hword : wordSize = 2 ^ 128 := by decide
  have hsum : gap a.start t.start * gap a.start t.start +
      gap a.stop t.stop * gap a.stop t.stop < 2 ^ 128 := hword ▸ h
  have hstart : gap a.start t.start * gap a.start t.start < 2 ^ 128 := by omega
  have hstop : gap a.stop t.stop * gap a.stop t.stop < 2 ^ 128 := by omega
  have hs : (a.startGap t).toNat = gap a.start t.start :=
    Nat.mod_eq_of_lt (Nat.lt_of_le_of_lt (Nat.le_mul_self _) hstart)
  have he : (a.stopGap t).toNat = gap a.stop t.stop :=
    Nat.mod_eq_of_lt (Nat.lt_of_le_of_lt (Nat.le_mul_self _) hstop)
  refine ⟨hs, he, ?_, ?_, ?_, ?_, ?_⟩
  · simpa [BitVec.umulOverflow, hs] using hstart
  · simpa [BitVec.umulOverflow, he] using hstop
  · rw [BitVec.uaddOverflow, BitVec.toNat_mul, BitVec.toNat_mul, hs, he, Nat.mod_eq_of_lt hstart,
      Nat.mod_eq_of_lt hstop]
    exact decide_eq_false (Nat.not_le.2 hsum)
  · rw [toNat_distanceWord, distance_eq_squaredDistance h]
  · exact distance_eq_squaredDistance h

/-- The squares of two numbers below a power of two do not add up to the square of the power. -/
theorem mul_self_add_mul_self_ne {n x y : Nat} (hx : x < Nat.pow 2 n) (hy : y < Nat.pow 2 n) :
    x * x + y * y ≠ Nat.pow 2 n * Nat.pow 2 n := by
  induction n generalizing x y with
  | zero =>
    obtain rfl : x = 0 := Nat.lt_one_iff.1 hx
    obtain rfl : y = 0 := Nat.lt_one_iff.1 hy
    decide
  | succ n ih =>
    intro h
    rw [show Nat.pow 2 (n + 1) = Nat.pow 2 n * 2 from rfl] at hx hy h
    rw [Nat.mul_mul_mul_comm] at h
    -- A sum of two squares is a multiple of four only if both numbers are even.
    have heven : x % 2 = 0 ∧ y % 2 = 0 := by
      have hmod : (x % 4 * (x % 4) + y % 4 * (y % 4)) % 4 = 0 := by
        rw [Nat.add_mod, ← Nat.mul_mod, ← Nat.mul_mod, ← Nat.add_mod, h, Nat.mul_mod_left]
      have hcases : ∀ r < 4, ∀ s < 4, (r * r + s * s) % 4 = 0 → r % 2 = 0 ∧ s % 2 = 0 := by decide
      have := hcases _ (Nat.mod_lt x (by decide)) _ (Nat.mod_lt y (by decide)) hmod
      omega
    obtain ⟨x, rfl⟩ := Nat.dvd_of_mod_eq_zero heven.1
    obtain ⟨y, rfl⟩ := Nat.dvd_of_mod_eq_zero heven.2
    rw [Nat.mul_mul_mul_comm, Nat.mul_mul_mul_comm 2 y] at h
    exact ih (by omega) (by omega) (by omega : x * x + y * y = _)

theorem gap_eq_zero_iff {m n : Nat} : gap m n = 0 ↔ m = n := by
  unfold gap
  omega

theorem gap_lt {m n bound : Nat} (hm : m < bound) (hn : n < bound) : gap m n < bound := by
  unfold gap
  omega

/-- Both ends of a range are offsets into a text. -/
def Fits (span : Span) : Prop :=
  span.start < offsets ∧ span.stop < offsets

instance (span : Span) : Decidable span.Fits :=
  inferInstanceAs (Decidable (span.start < offsets ∧ span.stop < offsets))

/-- **Only a range itself is at no distance from it.** A sum of squares that is cut off leaves a
rest, since it is less than twice the size of the word, and not equal to this size. -/
theorem distance_eq_zero_iff (ha : a.Fits) (ht : t.Fits) : a.distance t = 0 ↔ a = t := by
  have hstart := gap_lt ha.1 ht.1
  have hstop := gap_lt ha.2 ht.2
  rw [show offsets = Nat.pow 2 64 by decide] at hstart hstop
  have hword : Nat.pow 2 64 * Nat.pow 2 64 = wordSize := by decide
  have hne : a.squaredDistance t ≠ wordSize := hword ▸ mul_self_add_mul_self_ne hstart hstop
  have hlt : a.squaredDistance t < wordSize + wordSize :=
    hword ▸ Nat.add_lt_add (Nat.mul_self_lt_mul_self hstart) (Nat.mul_self_lt_mul_self hstop)
  have hzero : a.distance t = 0 ↔ a.squaredDistance t = 0 := by
    unfold distance wordSize at *
    omega
  rw [hzero, squaredDistance, Nat.add_eq_zero_iff, Nat.mul_eq_zero, or_self, Nat.mul_eq_zero,
    or_self, gap_eq_zero_iff, gap_eq_zero_iff]
  cases a
  cases t
  simp

end Span

/-! ## The first of the closest statements -/

namespace StatementGraph

variable {graph : StatementGraph} {t : Span} {u v : VertexId} {x y : Vertex}

/-- One more candidate is taken if it is closer than the best so far, and passed over otherwise. -/
theorem closer_cases (t : Span) (best : Option (VertexId × Nat)) (c : Vertex × VertexId) :
    (closer t best c = some (c.2, c.1.span.distance t) ∧ c.1.span.contains t ∧
      ∀ b, best = some b → c.1.span.distance t < b.2) ∨
    (closer t best c = best ∧
      (c.1.span.contains t → ∃ b, best = some b ∧ b.2 ≤ c.1.span.distance t)) := by
  unfold closer
  by_cases hc : c.1.span.contains t
  · cases best with
    | none => simp [hc]
    | some b =>
      by_cases hlt : c.1.span.distance t < b.2
      · simp [hc, hlt]
      · simp [hc, hlt, Nat.le_of_not_lt hlt]
  · simp [hc]

/-- **The search ends with the first of the closest candidates**, or with what it began with, if no
candidate is closer. -/
theorem foldl_closer_spec {candidates : List (Vertex × VertexId)}
    {best : Option (VertexId × Nat)} {found : VertexId × Nat}
    (h : candidates.foldl (closer t) best = some found) :
    (best = some found ∧
      ∀ c ∈ candidates, c.1.span.contains t → found.2 ≤ c.1.span.distance t) ∨
    ∃ before c after, candidates = before ++ c :: after ∧ c.1.span.contains t ∧
      found = (c.2, c.1.span.distance t) ∧ (∀ b, best = some b → found.2 < b.2) ∧
      (∀ d ∈ before, d.1.span.contains t → found.2 < d.1.span.distance t) ∧
      ∀ d ∈ after, d.1.span.contains t → found.2 ≤ d.1.span.distance t := by
  -- `best` is what was found among the candidates before, and changes on the way.
  induction candidates generalizing best with
  | nil => exact .inl ⟨h, by simp⟩
  | cons c rest ih =>
    rw [List.foldl_cons] at h
    obtain ⟨htaken, hc, hcloser⟩ | ⟨hkept, hno⟩ := closer_cases t best c
    · rw [htaken] at h
      obtain ⟨heq, hrest⟩ | ⟨before, d, after, rfl, hd, hfound, hbest, hbefore, hafter⟩ := ih h
      · obtain rfl := Option.some.inj heq
        exact .inr ⟨[], c, rest, rfl, hc, rfl, hcloser, by simp, hrest⟩
      · have hlt : found.2 < c.1.span.distance t := hbest _ rfl
        refine .inr ⟨c :: before, d, after, rfl, hd, hfound, fun b hb => ?_, ?_, hafter⟩
        · exact Nat.lt_trans hlt (hcloser b hb)
        · exact List.forall_mem_cons.2 ⟨fun _ => hlt, hbefore⟩
    · rw [hkept] at h
      obtain ⟨hfound, hrest⟩ | ⟨before, d, after, rfl, hd, hfound, hbest, hbefore, hafter⟩ := ih h
      · refine .inl ⟨hfound, List.forall_mem_cons.2 ⟨fun hc => ?_, hrest⟩⟩
        obtain ⟨b, hb, hle⟩ := hno hc
        rwa [Option.some.inj (hfound.symm.trans hb)]
      · refine .inr ⟨c :: before, d, after, rfl, hd, hfound, hbest, ?_, hafter⟩
        refine List.forall_mem_cons.2 ⟨fun hc => ?_, hbefore⟩
        obtain ⟨b, hb, hle⟩ := hno hc
        exact Nat.lt_of_lt_of_le (hbest b hb) hle

/-- **The first of the closest statements around a range**, by some measure of the distance. -/
structure FirstClosest (graph : StatementGraph) (measure : Span → Nat) (t : Span) (v : VertexId)
    (x : Vertex) : Prop where
  /-- It is the statement of that index. -/
  vertex : graph.vertex? v = some x
  /-- It encloses the range. -/
  contains : x.span.contains t
  /-- No statement around the range is closer. -/
  least : ∀ y ∈ graph.vertices, y.span.contains t → measure x.span ≤ measure y.span
  /-- Those around the range that were added before are farther away. -/
  first : ∀ u y, u < v → graph.vertex? u = some y → y.span.contains t →
    measure x.span < measure y.span

/-- There is one closest statement. -/
theorem FirstClosest.unique {measure : Span → Nat} (h : graph.FirstClosest measure t v x)
    (h' : graph.FirstClosest measure t u y) : u = v := by
  have hle := h.least y (Array.mem_of_getElem? h'.vertex) h'.contains
  have hle' := h'.least x (Array.mem_of_getElem? h.vertex) h.contains
  -- Of two such statements the earlier one would be farther away than the later one.
  rcases Nat.lt_trichotomy u v with hlt | heq | hlt
  · exact absurd hle' (Nat.not_le.2 (h.first u y hlt h'.vertex h'.contains))
  · exact heq
  · exact absurd hle (Nat.not_le.2 (h'.first v x hlt h.vertex h.contains))

theorem FirstClosest.congr {measure measure' : Span → Nat} (h : graph.FirstClosest measure t v x)
    (heq : ∀ y ∈ graph.vertices, y.span.contains t → measure y.span = measure' y.span) :
    graph.FirstClosest measure' t v x where
  vertex := h.vertex
  contains := h.contains
  least := by
    intro y hy hyt
    rw [← heq x (Array.mem_of_getElem? h.vertex) h.contains, ← heq y hy hyt]
    exact h.least y hy hyt
  first := by
    intro u y hlt hy hyt
    rw [← heq x (Array.mem_of_getElem? h.vertex) h.contains, ← heq y (Array.mem_of_getElem? hy) hyt]
    exact h.first u y hlt hy hyt

theorem exists_firstClosest (h : graph.findVertex? t = some v) :
    ∃ x, graph.FirstClosest (·.distance t) t v x := by
  obtain ⟨found, hfound, rfl⟩ := Option.map_eq_some_iff.1 h
  obtain ⟨hnone, -⟩ | ⟨before, ⟨x, v⟩, after, hsplit, hc, rfl, -, hbefore, hafter⟩ :=
    foldl_closer_spec hfound
  · cases hnone
  · have hmem {w : VertexId} {y : Vertex} : graph.vertex? w = some y ↔
        (y, w) ∈ before ++ (x, v) :: after := by
      rw [← hsplit, List.mem_zipIdx_iff_getElem?]
      simp [vertex?]
    -- The candidates come in the order of their indices.
    have hsorted : (before ++ (x, v) :: after).Pairwise (·.2 < ·.2) := by
      rw [← hsplit, ← List.pairwise_map (f := Prod.snd), List.zipIdx_map_snd]
      exact List.pairwise_lt_range'
    obtain ⟨-, hbehind, -⟩ := List.pairwise_append.1 hsorted
    refine ⟨x, hmem.2 (by simp), hc, fun y hy hyt => ?_, fun w y hlt hy hyt => ?_⟩
    · obtain ⟨w, hw⟩ := Array.mem_iff_getElem?.1 hy
      rcases List.mem_append.1 (hmem.1 hw) with hmem | hmem
      · exact Nat.le_of_lt (hbefore (y, w) hmem hyt)
      · rcases List.mem_cons.1 hmem with heq | hmem
        · cases heq
          exact Nat.le_refl _
        · exact hafter (y, w) hmem hyt
    · rcases List.mem_append.1 (hmem.1 hy) with hmem | hmem
      · exact hbefore (y, w) hmem hyt
      · rcases List.mem_cons.1 hmem with heq | hmem
        · cases heq
          exact absurd hlt (Nat.lt_irrefl _)
        · exact absurd ((List.pairwise_cons.1 hbehind).1 (y, w) hmem) (Nat.lt_asymm hlt)

/-- **The statement found for a range** is the first of the closest around it. -/
theorem findVertex?_eq_some_iff :
    graph.findVertex? t = some v ↔ ∃ x, graph.FirstClosest (·.distance t) t v x := by
  refine ⟨exists_firstClosest, ?_⟩
  rintro ⟨x, hx⟩
  have hcovers : graph.Covers t := ⟨x, Array.mem_of_getElem? hx.vertex, hx.contains⟩
  obtain ⟨u, hu⟩ := Option.isSome_iff_exists.1 ((findVertex?_isSome_iff graph t).2 hcovers)
  obtain ⟨y, hy⟩ := exists_firstClosest hu
  rw [hu, hx.unique hy]

/-- Nothing is found where no statement is around. -/
theorem findVertex?_eq_none_iff :
    graph.findVertex? t = none ↔ ∀ x ∈ graph.vertices, ¬ x.span.contains t := by
  rw [← Option.not_isSome_iff_eq_none, findVertex?_isSome_iff]
  simp only [Covers, not_exists, not_and]

/-! ## What lies inside -/

/-- No distance from a range to the statements around it is too large for the word it is kept in. -/
def KeepsDistances (graph : StatementGraph) (t : Span) : Prop :=
  ∀ x ∈ graph.vertices, x.span.contains t → x.span.squaredDistance t < Span.wordSize

/-- The statement found is the first of the closest by the squared distance, if this is kept. -/
theorem KeepsDistances.findVertex?_eq_some_iff (h : graph.KeepsDistances t) :
    graph.findVertex? t = some v ↔ ∃ x, graph.FirstClosest (·.squaredDistance t) t v x := by
  have heq (y : Vertex) (hy : y ∈ graph.vertices) (hyt : y.span.contains t) :
      y.span.distance t = y.span.squaredDistance t :=
    Span.distance_eq_squaredDistance (h y hy hyt)
  rw [StatementGraph.findVertex?_eq_some_iff]
  constructor
  · rintro ⟨x, hx⟩
    exact ⟨x, hx.congr heq⟩
  · rintro ⟨x, hx⟩
    exact ⟨x, hx.congr fun y hy hyt => (heq y hy hyt).symm⟩

/-- **No statement inside the one found encloses the range as well.** -/
theorem KeepsDistances.not_contains (h : graph.KeepsDistances t) (hv : graph.findVertex? t = some v)
    (hx : graph.vertex? v = some x) (hy : y ∈ graph.vertices) (hinside : x.span.contains y.span)
    (hne : y.span ≠ x.span) : ¬ y.span.contains t := by
  intro hyt
  obtain ⟨x', hclosest⟩ := h.findVertex?_eq_some_iff.1 hv
  obtain rfl : x' = x := Option.some.inj (hclosest.vertex.symm.trans hx)
  have hle := hclosest.least y hy hyt
  exact absurd (Span.squaredDistance_lt_of_contains hinside hyt hne) (Nat.not_lt.2 hle)

/-- Any two statements lie one in the other or apart. -/
def Laminar (graph : StatementGraph) : Prop :=
  ∀ x ∈ graph.vertices, ∀ y ∈ graph.vertices, x.span.contains y.span ∨ y.span.contains x.span ∨
    x.span.stop ≤ y.span.start ∨ y.span.stop ≤ x.span.start

instance (graph : StatementGraph) : Decidable graph.Laminar :=
  inferInstanceAs (Decidable (∀ x ∈ graph.vertices, ∀ y ∈ graph.vertices, _))

theorem Laminar.contains_or (h : graph.Laminar) (ht : t.Nonempty) (hx : x ∈ graph.vertices)
    (hy : y ∈ graph.vertices) (hxt : x.span.contains t) (hyt : y.span.contains t) :
    x.span.contains y.span ∨ y.span.contains x.span := by
  rw [Span.contains_iff] at hxt hyt
  unfold Span.Nonempty at ht
  rcases h x hx y hy with hnested | hnested | happart | happart
  · exact .inl hnested
  · exact .inr hnested
  · omega
  · omega

/-- The ends of all statements are offsets into a text. -/
def Fits (graph : StatementGraph) : Prop :=
  ∀ x ∈ graph.vertices, x.span.Fits

instance (graph : StatementGraph) : Decidable graph.Fits :=
  inferInstanceAs (Decidable (∀ x ∈ graph.vertices, x.span.Fits))

theorem Fits.keepsDistances (h : graph.Fits) (ht : t.start ≤ t.stop) : graph.KeepsDistances t :=
  fun x hx hxt => Span.squaredDistance_lt_wordSize hxt ht (h x hx).2

/-- **Where statements lie one in the other or apart, the innermost one is found.** -/
theorem Fits.contains_of_laminar (h : graph.Fits) (hlaminar : graph.Laminar) (ht : t.Nonempty)
    (hv : graph.findVertex? t = some v) (hx : graph.vertex? v = some x) (hy : y ∈ graph.vertices)
    (hyt : y.span.contains t) : y.span.contains x.span := by
  obtain ⟨x', hx', hxt⟩ := exists_of_findVertex? hv
  obtain rfl := Option.some.inj (hx'.symm.trans hx)
  rcases hlaminar.contains_or ht hy (Array.mem_of_getElem? hx) hyt hxt with hcontains | hinside
  · exact hcontains
  · -- A statement inside the one found encloses the range only if it has the same range.
    by_cases heq : y.span = x'.span
    · rw [heq]
      exact x'.span.contains_self
    · have hkeeps := h.keepsDistances (Nat.le_of_lt ht)
      exact absurd hyt (hkeeps.not_contains hv hx hy hinside heq)

/-- **The range of a statement leads to the first statement of that range.** -/
theorem Fits.findVertex?_span (h : graph.Fits) (hx : x ∈ graph.vertices) :
    graph.findVertex? x.span = graph.vertices.findIdx? (·.span = x.span) := by
  have hzero (y : Vertex) (hy : y ∈ graph.vertices) : y.span.distance x.span = 0 ↔ y.span = x.span :=
    Span.distance_eq_zero_iff (h y hy) (h x hx)
  have hcovers : graph.Covers x.span := ⟨x, hx, x.span.contains_self⟩
  obtain ⟨v, hv⟩ := Option.isSome_iff_exists.1 ((findVertex?_isSome_iff graph x.span).2 hcovers)
  obtain ⟨y, hy⟩ := exists_firstClosest hv
  have hle : y.span.distance x.span ≤ x.span.distance x.span := hy.least x hx x.span.contains_self
  rw [(hzero x hx).2 rfl] at hle
  -- The statement itself is at no distance, so the one found is not at any either.
  have hspan : y.span = x.span := (hzero y (Array.mem_of_getElem? hy.vertex)).1 (Nat.le_zero.1 hle)
  obtain ⟨hlt, hget⟩ := Array.getElem?_eq_some_iff.1 hy.vertex
  rw [hv, eq_comm, Array.findIdx?_eq_some_iff_getElem]
  refine ⟨hlt, by simpa [hget] using hspan, fun u hu => ?_⟩
  -- An earlier statement of the same range would be as close.
  have hmem : graph.vertices[u] ∈ graph.vertices := Array.getElem_mem _
  simp only [decide_eq_true_eq]
  intro heq
  have hcontains : graph.vertices[u].span.contains x.span := by
    rw [heq]
    exact x.span.contains_self
  have hcloser := hy.first u _ hu (Array.getElem?_eq_getElem _) hcontains
  rw [(hzero _ hmem).2 heq] at hcloser
  exact Nat.not_lt_zero _ hcloser

/-- What the search for the statement around a range finds in a graph. -/
structure FindsInnermost (graph : StatementGraph) (t : Span) : Prop where
  /-- It finds nothing exactly if no statement encloses the range. -/
  none_iff : graph.findVertex? t = none ↔ ∀ x ∈ graph.vertices, ¬ x.span.contains t
  /-- It finds the first of the closest statements around the range. -/
  some_iff : ∀ v, graph.findVertex? t = some v ↔ ∃ x, graph.FirstClosest (·.distance t) t v x
  /-- No distance from a range whose ends are in order is cut off. -/
  keepsDistances : t.start ≤ t.stop → graph.KeepsDistances t
  /-- Unless one is, the closest statements are those at the least squared distance. -/
  squared : graph.KeepsDistances t →
    ∀ v, graph.findVertex? t = some v ↔ ∃ x, graph.FirstClosest (·.squaredDistance t) t v x
  /-- No statement strictly inside the one found encloses the range. -/
  minimal : graph.KeepsDistances t → ∀ v x, graph.findVertex? t = some v →
    graph.vertex? v = some x → ∀ y ∈ graph.vertices, x.span.contains y.span → y.span ≠ x.span →
      ¬ y.span.contains t
  /-- If statements lie one in the other or apart, the one found for a range that is not empty lies
  in all others around the range. -/
  innermost : graph.Laminar → t.Nonempty → ∀ v x, graph.findVertex? t = some v →
    graph.vertex? v = some x → ∀ y ∈ graph.vertices, y.span.contains t → y.span.contains x.span
  /-- For the range of a statement it finds the first statement of exactly that range. -/
  own : ∀ x ∈ graph.vertices, x.span = t →
    graph.findVertex? t = graph.vertices.findIdx? (·.span = t)

/-- **The statement found for a range is the first of the closest**, no statement inside it encloses
the range, and it is the innermost one where statements are nested or apart. -/
theorem findVertex?_finds_innermost (h : graph.Fits) (t : Span) : graph.FindsInnermost t where
  none_iff := findVertex?_eq_none_iff
  some_iff := fun _ => findVertex?_eq_some_iff
  keepsDistances := h.keepsDistances
  squared := fun hkeeps _ => hkeeps.findVertex?_eq_some_iff
  minimal := fun hkeeps _ _ hv hx _ hy hinside hne => hkeeps.not_contains hv hx hy hinside hne
  innermost := fun hlaminar ht _ _ hv hx _ hy hyt => h.contains_of_laminar hlaminar ht hv hx hy hyt
  own := by
    rintro x hx rfl
    exact h.findVertex?_span hx

/-- The statements of a file with an export around a declaration of the same range, and two
statements one in the other after it. -/
def exportAndBranch : StatementGraph :=
  { path := ⟨"a.js"⟩
    vertices := #[
      { key := ⟨.exportStatement, ⟨0, 30⟩⟩, location := ⟨1, 0⟩, scope := 0 },
      { key := ⟨.lexicalDeclaration, ⟨0, 30⟩⟩, location := ⟨1, 0⟩, scope := 0 },
      { key := ⟨.ifStatement, ⟨31, 80⟩⟩, location := ⟨2, 0⟩, scope := 0 },
      { key := ⟨.expressionStatement, ⟨50, 60⟩⟩, location := ⟨3, 2⟩, scope := 1 }] }

/-- A piece of the inner statement belongs to that one, and not to the branch around it; a piece of
the export belongs to the statement that was added first. -/
theorem finds_innermost_exportAndBranch :
    exportAndBranch.FindsInnermost ⟨52, 55⟩ ∧ exportAndBranch.FindsInnermost ⟨0, 30⟩ ∧
      exportAndBranch.findVertex? ⟨52, 55⟩ = some 3 ∧
      exportAndBranch.findVertex? ⟨0, 30⟩ = some 0 ∧
      Span.contains ⟨31, 80⟩ ⟨50, 60⟩ := by
  have hfits : exportAndBranch.Fits := by decide
  have hinner := findVertex?_finds_innermost hfits ⟨52, 55⟩
  have hown := findVertex?_finds_innermost hfits ⟨0, 30⟩
  have hfound : exportAndBranch.findVertex? ⟨52, 55⟩ = some 3 := by decide
  refine ⟨hinner, hown, hfound, ?_, ?_⟩
  · exact (hown.own _ (Array.mem_of_getElem? (rfl : exportAndBranch.vertices[0]? = some _)) rfl).trans
      (by decide +kernel)
  · exact hinner.innermost (by decide) (by decide) 3 _ hfound rfl _
      (Array.mem_of_getElem? (rfl : exportAndBranch.vertices[2]? = some _)) (by decide)

/-! ## Distances in words -/

/-- **No distance that is measured is cut off.** The distance from a range around another one, whose
ends are in order, fits a word of 128 bits. So words compare as the squared distances do, and the
statement found is the first of those at the least squared distance. -/
theorem distances_measured {t : Span} (ht : t.start ≤ t.stop) :
    (∀ a : Span, a.Fits → a.contains t → a.squaredDistance t < 2 ^ 128 ∧ a.Measured t) ∧
    (∀ a b : Span, a.Fits → b.Fits → a.contains t → b.contains t →
      (a.distanceWord t < b.distanceWord t ↔ a.squaredDistance t < b.squaredDistance t)) ∧
    ∀ graph : StatementGraph, graph.Fits → ∀ v,
      graph.findVertex? t = some v ↔ ∃ x, graph.FirstClosest (·.squaredDistance t) t v x := by
  have hlt (a : Span) (ha : a.Fits) (h : a.contains t) : a.squaredDistance t < Span.wordSize :=
    Span.squaredDistance_lt_wordSize h ht ha.2
  refine ⟨fun a ha h => ⟨?_, Span.measured_of_lt (hlt a ha h)⟩, fun a b ha hb hat hbt => ?_,
    fun graph hgraph v => (hgraph.keepsDistances ht).findVertex?_eq_some_iff⟩
  · exact (by decide : Span.wordSize = 2 ^ 128) ▸ hlt a ha h
  · rw [BitVec.lt_def, (Span.measured_of_lt (hlt a ha hat)).exact,
      (Span.measured_of_lt (hlt b hb hbt)).exact]

/-- A file as long as a text can be, with a statement in it. -/
def longFile : StatementGraph :=
  { path := ⟨"a.js"⟩
    vertices := #[
      { key := ⟨.statementBlock, ⟨0, 18446744073709551615⟩⟩, location := ⟨1, 0⟩, scope := 0 },
      { key := ⟨.expressionStatement, ⟨0, 18446744073709551614⟩⟩, location := ⟨1, 0⟩, scope := 0 }] }

/-- Even the distance to an empty range at the start is exact, and the inner statement is found. -/
theorem distances_measured_longFile :
    Span.Measured ⟨0, 18446744073709551615⟩ ⟨0, 0⟩ ∧ longFile.findVertex? ⟨0, 0⟩ = some 1 ∧
      ∃ x, longFile.FirstClosest (·.squaredDistance ⟨0, 0⟩) ⟨0, 0⟩ 1 x := by
  obtain ⟨hexact, -, hfound⟩ := distances_measured (t := ⟨0, 0⟩) (Nat.le_refl 0)
  have h : longFile.findVertex? ⟨0, 0⟩ = some 1 := by decide
  exact ⟨(hexact _ (by decide) (by decide)).2, h, (hfound longFile (by decide) 1).1 h⟩

-- Apart from containment the bound fails: the distance between two empty ranges can be cut off.
example : ¬ Span.squaredDistance ⟨0, 0⟩ ⟨18446744073709551615, 18446744073709551615⟩ < 2 ^ 128 := by
  decide

end StatementGraph

end DeadCode
