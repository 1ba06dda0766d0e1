import DeadCode.Proofs.Scope.Lookup

/-! # Members that are declared

A member of a binding is declared by the statement that puts it there, and copies of a binding take
its members along. Only the host environment provides a member that nothing declares: `module` has
the member `exports`, and what is a copy of `module` has it too. -/

namespace DeadCode

namespace Binding

/-- A binding, stored under some name, that one of the first `vertices` statements declares, as all
its members are, but for the member `exports` that the host environment provides. -/
inductive Grounded (vertices : Nat) : String → Binding → Prop where
  | declared {name : String} {binding : Binding} {v : VertexId}
      (declaration : binding.declaration = some v) (lt : v < vertices)
      (members : ∀ m ∈ binding.members, Grounded vertices m.1 m.2) :
      Grounded vertices name binding
  | exports : Grounded vertices "exports" (placeholder "exports")

/-- The members of a binding are grounded; it may itself be declared or not. -/
def Rooted (vertices : Nat) (binding : Binding) : Prop :=
  ∀ m ∈ binding.members, Grounded vertices m.1 m.2

variable {vertices vertices' : Nat} {name : String} {binding : Binding}

theorem Grounded.rooted (h : Grounded vertices name binding) : Rooted vertices binding := by
  cases h with
  | declared _ _ members => exact members
  | exports => exact fun _ hm => absurd hm List.not_mem_nil

theorem Grounded.cases (h : Grounded vertices name binding) :
    (∃ v, binding.declaration = some v ∧ v < vertices) ∨
      name = "exports" ∧ binding = placeholder "exports" := by
  cases h with
  | declared declaration lt => exact .inl ⟨_, declaration, lt⟩
  | exports => exact .inr ⟨rfl, rfl⟩

theorem Grounded.mono (h : Grounded vertices name binding) (hle : vertices ≤ vertices') :
    Grounded vertices' name binding := by
  induction h with
  | declared declaration lt _ ih => exact .declared declaration (Nat.lt_of_lt_of_le lt hle) ih
  | exports => exact .exports

theorem Rooted.mono (h : Rooted vertices binding) (hle : vertices ≤ vertices') :
    Rooted vertices' binding :=
  fun m hm => (h m hm).mono hle

theorem rooted_declared (name : String) (v : VertexId) : Rooted vertices (declared name v) :=
  fun _ hm => absurd hm List.not_mem_nil

theorem rooted_placeholder (name : String) : Rooted vertices (placeholder name) :=
  fun _ hm => absurd hm List.not_mem_nil

/-! ## Members -/

theorem Grounded.member? {member : Binding} {segment : String} (h : Grounded vertices name binding)
    (hm : binding.member? segment = some member) :
    ∃ name', (name' = name ∨ name' = segment) ∧ Grounded vertices name' member := by
  unfold Binding.member? at hm
  split at hm
  · cases hm
    exact ⟨name, .inl rfl, h⟩
  · exact ⟨segment, .inr rfl, h.rooted _ (mem_of_find? hm)⟩

theorem Grounded.descendFar (h : Grounded vertices name binding) (segments : List String) :
    ∃ name', (name' = name ∨ name' ∈ segments) ∧
      Grounded vertices name' (binding.descendFar segments).1 := by
  induction segments generalizing name binding with
  | nil => exact ⟨name, .inl rfl, h⟩
  | cons segment rest ih =>
    rw [Binding.descendFar]
    split
    · next hnext =>
      obtain ⟨next, hname, hnext⟩ := h.member? hnext
      obtain ⟨last, hlast, hlast'⟩ := ih hnext
      refine ⟨last, ?_, hlast'⟩
      rcases hlast with rfl | hlast
      · exact hname.imp_right (List.mem_cons.2 <| .inl ·)
      · exact .inr (List.mem_cons_of_mem _ hlast)
    · exact ⟨name, .inl rfl, h⟩

/-! ## Changes -/

/-- A grounded member may be inserted. -/
theorem grounded_insert {members : List (String × Binding)}
    (h : ∀ m ∈ members, Grounded vertices m.1 m.2) (hb : Grounded vertices name binding) :
    ∀ m ∈ insert members name binding, Grounded vertices m.1 m.2 := by
  intro m hm
  rcases mem_insert hm with rfl | hm
  · exact hb
  · exact h m hm

theorem grounded_insertAll {members more : List (String × Binding)}
    (h : ∀ m ∈ members, Grounded vertices m.1 m.2)
    (hmore : ∀ m ∈ more, Grounded vertices m.1 m.2) :
    ∀ m ∈ insertAll members more, Grounded vertices m.1 m.2 := by
  intro m hm
  rcases mem_insertAll hm with hm | hm
  · exact h m hm
  · exact hmore m hm

/-- A change of bindings that puts only grounded members in, and leaves a grounded binding so. -/
structure Grounds (vertices : Nat) (update : Binding → Binding) : Prop where
  rooted : ∀ b, Rooted vertices b → Rooted vertices (update b)
  grounded : ∀ name b, Grounded vertices name b → Grounded vertices name (update b)

theorem Grounds.guarded {update : Binding → Binding} (hkeeps : Keeps update)
    (hrooted : ∀ b, Rooted vertices b → Rooted vertices (update b)) :
    Grounds vertices fun b => if b.declaration.isSome then update b else b where
  rooted := by
    intro b hb
    split
    · exact hrooted b hb
    · exact hb
  grounded := by
    intro name b hb
    split
    · next hdeclared =>
      cases hb with
      | declared declaration lt members =>
        exact .declared ((hkeeps.declaration b).trans declaration) lt (hrooted b members)
      | exports => cases hdeclared
    · exact hb

theorem Grounds.updateAt {update : Binding → Binding} (h : Grounds vertices update)
    (segments : List String) : Grounds vertices (updateAt update segments) := by
  induction segments with
  | nil => exact ⟨h.rooted, h.grounded⟩
  | cons segment rest ih =>
    have hmembers (b : Binding) (hb : Rooted vertices b) :
        ∀ m ∈ modify b.members segment (Binding.updateAt update rest),
          Grounded vertices m.1 m.2 := by
      intro m hm
      rcases mem_modify hm with hm | ⟨x, hx, rfl⟩
      · exact hb m hm
      · exact ih.grounded segment x (hb _ hx)
    refine ⟨fun b hb => ?_, fun name b hb => ?_⟩
    · rw [Binding.updateAt]
      split
      · exact ih.rooted b hb
      · exact hmembers b hb
    · rw [Binding.updateAt]
      split
      · exact ih.grounded name b hb
      · cases hb with
        | declared declaration lt members => exact .declared declaration lt (hmembers b members)
        | exports => exact .exports

end Binding

namespace ScopeTree

/-- The statements that declare the bindings exist, and the members of all bindings on all scopes
are grounded. -/
def Grounded (vertices : Nat) (tree : ScopeTree) : Prop :=
  ∀ s ∈ tree.scopes, ∀ entry ∈ s.bindings,
    (∀ v, entry.2.declaration = some v → v < vertices) ∧ entry.2.Rooted vertices

variable {vertices vertices' : Nat} {tree tree' : ScopeTree}

theorem grounded_ofAmbient (ambient : List String) : (ofAmbient ambient).Grounded vertices := by
  intro s hs b hb
  obtain rfl := List.mem_singleton.1 (List.mem_toArray.1 hs)
  rcases Binding.mem_insertAll hb with hb | hb
  · cases hb
  · obtain ⟨name, -, rfl⟩ := List.mem_map.1 hb
    unfold ambientBinding
    split
    · exact ⟨nofun, Binding.grounded_insert (Binding.rooted_placeholder name) .exports⟩
    · exact ⟨nofun, Binding.rooted_placeholder name⟩

namespace Grounded

theorem mono (h : tree.Grounded vertices) (hle : vertices ≤ vertices') : tree.Grounded vertices' :=
  fun s hs b hb => ⟨fun v hv => Nat.lt_of_lt_of_le ((h s hs b hb).1 v hv) hle,
    (h s hs b hb).2.mono hle⟩

theorem addScope {parent scope : ScopeId} {kind : ScopeKind} (h : tree.Grounded vertices)
    (hadd : tree.addScope parent kind = .ok (scope, tree')) : tree'.Grounded vertices := by
  unfold ScopeTree.addScope at hadd
  split at hadd
  · cases hadd
  · cases hadd
    intro s hs b hb
    rcases Array.mem_push.1 hs with hs | rfl
    · exact h s hs b hb
    · cases hb

theorem setIfInBounds (h : tree.Grounded vertices) (i : ScopeId) {s' : Scope}
    (hs' : ∀ entry ∈ s'.bindings, (∀ v, entry.2.declaration = some v → v < vertices) ∧
      entry.2.Rooted vertices) :
    Grounded vertices { scopes := tree.scopes.setIfInBounds i s' } := by
  intro s hs
  rcases Array.mem_or_eq_of_mem_setIfInBounds hs with hs | rfl
  · exact h s hs
  · exact hs'

variable {i : ScopeId}

/-- A grounded binding may be declared. -/
theorem declare {target : ScopeId} {binding : Binding} {hoist : Hoist} (h : tree.Grounded vertices)
    (hlt : ∀ v, binding.declaration = some v → v < vertices) (hrooted : binding.Rooted vertices)
    (hdeclare : tree.declare i binding hoist = .ok (target, tree')) : tree'.Grounded vertices := by
  obtain ⟨s, hs, rfl⟩ := of_declare hdeclare
  refine h.setIfInBounds target fun b hb => ?_
  rcases Binding.mem_insert hb with rfl | hb
  · exact ⟨hlt, hrooted⟩
  · exact h s (Array.mem_of_getElem? hs) b hb

/-- Grounded updates keep a tree grounded. -/
theorem updateChain {update : Binding → Binding} (h : tree.Grounded vertices)
    (hkeeps : Binding.Keeps update) (hu : Binding.Grounds vertices update) (i : ScopeId)
    (chain : List String) : (tree.updateChain i chain update).Grounded vertices := by
  unfold ScopeTree.updateChain
  split
  · exact h
  · split
    · exact h
    · unfold ScopeTree.updateLocal
      split
      · exact h
      · next s hs =>
        refine h.setIfInBounds _ fun b hb => ?_
        rcases Binding.mem_modify hb with hb | ⟨x, hx, rfl⟩
        · exact h s (Array.mem_of_getElem? hs) b hb
        · obtain ⟨hlt, hrooted⟩ := h s (Array.mem_of_getElem? hs) _ hx
          refine ⟨fun v hv => hlt v ?_, (hu.updateAt _).rooted x hrooted⟩
          rwa [(hkeeps.updateAt _).declaration] at hv

theorem lookup? {name : String} {binding : Binding} (h : tree.Grounded vertices)
    (hl : tree.lookup? i name = some binding) :
    (∀ v, binding.declaration = some v → v < vertices) ∧ binding.Rooted vertices := by
  obtain ⟨j, -, hj⟩ := List.exists_of_findSome?_eq_some hl
  obtain ⟨s, hs, hb⟩ := Option.bind_eq_some_iff.1 hj
  exact h s (Array.mem_of_getElem? hs) _ (Binding.mem_of_find? hb)

/-- **The deepest binding that a chain leads to from a declared name** is declared by an existing
statement, or else it is the member `exports` of the host environment, by that name in the chain. -/
theorem resolvePrefix? {name : String} {rest : List String} {base deepest : Binding} {v : VertexId}
    {depth : Nat} (h : tree.Grounded vertices) (hbase : tree.lookup? i name = some base)
    (hv : base.declaration = some v)
    (hresolve : tree.resolvePrefix? i (name :: rest) = some (deepest, depth)) :
    (∃ u, deepest.declaration = some u ∧ u < vertices) ∨
      deepest = .placeholder "exports" ∧ "exports" ∈ rest := by
  rw [ScopeTree.resolvePrefix?, hbase, Option.map_some] at hresolve
  obtain rfl := congrArg Prod.fst (Option.some.inj hresolve)
  obtain ⟨hlt, hrooted⟩ := h.lookup? hbase
  -- The base is declared, so the name it is stored under does not matter.
  have hgrounded : Binding.Grounded vertices "" base := .declared hv (hlt v hv) hrooted
  obtain ⟨last, hlast, hdeepest⟩ := hgrounded.descendFar rest
  refine hdeepest.cases.imp_right fun hexports => ⟨hexports.2, ?_⟩
  obtain ⟨rfl, -⟩ := hexports
  exact hlast.resolve_left (by decide)

end Grounded

end ScopeTree

end DeadCode
