import DeadCode.Proofs.Scope.Lookup
import Mathlib.Data.List.Chain

/-! # Trees of scopes under all operations

A tree of scopes starts with the global scope and is changed by four operations: a scope is added, a
binding is declared, and a binding is changed in place, on a scope or along a chain of members.
However they are mixed, and whatever their arguments, every lookup goes along a chain of scopes that
ends at the global one. -/

namespace DeadCode

/-! ## Changes that change nothing -/

namespace Binding

theorem modify_eq_self {bindings : List (String × Binding)} {name : String}
    {update : Binding → Binding} (h : ∀ b, find? bindings name = some b → update b = b) :
    modify bindings name update = bindings := by
  induction bindings with
  | nil => rfl
  | cons first rest ih =>
    rw [modify]
    by_cases hfirst : first.1 = name
    · rw [if_pos hfirst, h first.2 (by rw [find?, if_pos hfirst])]
    · rw [if_neg hfirst, ih fun b hb => h b (by rwa [find?, if_neg hfirst])]

theorem updateAt_eq_self {update : Binding → Binding} {segments : List String} {binding : Binding}
    (h : binding.descend? segments = none) : updateAt update segments binding = binding := by
  induction segments generalizing binding with
  | nil => cases h
  | cons segment rest ih =>
    rw [descend?, member?] at h
    rw [updateAt]
    by_cases hself : segment = selfSegment
    · rw [if_pos hself, Option.bind_some] at h
      rw [if_pos hself, ih h]
    · rw [if_neg hself] at h ⊢
      rw [modify_eq_self fun b hb => ih (by rwa [hb, Option.bind_some] at h)]
      cases binding
      rfl

end Binding

namespace ScopeTree

variable {tree tree' : ScopeTree} {i : ScopeId}

theorem updateLocal_eq_self {name : String} {update : Binding → Binding}
    (h : ∀ b, tree.local? i name = some b → update b = b) :
    tree.updateLocal i name update = tree := by
  unfold updateLocal
  split
  · rfl
  · next s hs =>
    have hmodify : Binding.modify s.bindings name update = s.bindings :=
      Binding.modify_eq_self fun b hb => h b (by rw [local?, hs]; exact hb)
    obtain ⟨hlt, hget⟩ := Array.getElem?_eq_some_iff.1 hs
    dsimp only
    rw [hmodify, ← hget, Array.setIfInBounds, dif_pos hlt, Array.set_getElem_self]

theorem lookup?_of_owner? {name : String} {owner : ScopeId} (h : tree.owner? i name = some owner) :
    ∃ b, tree.local? owner name = some b ∧ tree.lookup? i name = some b := by
  unfold owner? at h
  unfold lookup?
  generalize tree.chain i = scopes at h ⊢
  induction scopes with
  | nil => cases h
  | cons j rest ih =>
    rw [List.find?_cons] at h
    rw [List.findSome?_cons]
    cases hj : tree.local? j name with
    | none =>
      rw [hj] at h
      exact ih h
    | some b =>
      rw [hj] at h
      cases h
      exact ⟨b, hj, rfl⟩

/-- **A chain that leads nowhere changes nothing.** -/
theorem updateChain_eq_self {chain : List String} {update : Binding → Binding}
    (h : tree.lookupChain? i chain = none) : tree.updateChain i chain update = tree := by
  cases chain with
  | nil => rfl
  | cons name rest =>
    rw [updateChain]
    split
    · rfl
    · next owner howner =>
      obtain ⟨b, hlocal, hlookup⟩ := lookup?_of_owner? howner
      rw [lookupChain?, hlookup, Option.bind_some] at h
      refine updateLocal_eq_self fun b' hb' => Binding.updateAt_eq_self ?_
      rwa [← Option.some.inj (hlocal.symm.trans hb')]

/-! ## Operations -/

/-- An operation that changes a tree of scopes. -/
inductive Operation where
  /-- Adds a scope. -/
  | addScope (parent : ScopeId) (kind : ScopeKind)
  /-- Declares a binding. -/
  | declare (scope : ScopeId) (binding : Binding) (hoist : Hoist)
  /-- Changes the binding of a name on a scope. -/
  | updateLocal (scope : ScopeId) (name : String) (update : Binding → Binding)
  /-- Changes the binding that a chain of members leads to, as by putting a member into it. -/
  | updateChain (scope : ScopeId) (chain : List String) (update : Binding → Binding)

/-- What an operation answers. -/
inductive Answer where
  /-- The scope that was added or that received a binding. -/
  | scope (scope : ScopeId)
  /-- The binding was there and was changed. -/
  | changed
  /-- There is no such binding. -/
  | missing
  /-- The operation failed. -/
  | refused (error : ScopeError)
deriving DecidableEq, Repr

/-- The answer of an operation that may fail, and the tree after it. -/
def settle (tree : ScopeTree) : Except ScopeError (ScopeId × ScopeTree) → Answer × ScopeTree
  | .error e => (.refused e, tree)
  | .ok (scope, tree') => (.scope scope, tree')

/-- The answer of an operation, and the tree after it. -/
def perform (tree : ScopeTree) : Operation → Answer × ScopeTree
  | .addScope parent kind => tree.settle (tree.addScope parent kind)
  | .declare scope binding hoist => tree.settle (tree.declare scope binding hoist)
  | .updateLocal scope name update =>
    (if (tree.local? scope name).isSome then .changed else .missing,
      tree.updateLocal scope name update)
  | .updateChain scope chain update =>
    (if (tree.lookupChain? scope chain).isSome then .changed else .missing,
      tree.updateChain scope chain update)

/-- The tree after some operations. -/
def performAll (tree : ScopeTree) (operations : List Operation) : ScopeTree :=
  operations.foldl (fun tree operation => (tree.perform operation).2) tree

/-- **What an operation does to parents and kinds**: nothing, or it adds a scope inside an older
one. -/
theorem frame_perform (tree : ScopeTree) (operation : Operation) :
    (tree.perform operation).2.frame = tree.frame ∨
      ∃ parent < tree.size, ∃ kind : ScopeKind,
        (tree.perform operation).2.frame = tree.frame ++ [(some parent, kind)] := by
  cases operation with
  | addScope parent kind =>
    rw [perform]
    cases hadd : tree.addScope parent kind with
    | error e => exact .inl rfl
    | ok r =>
      obtain ⟨hlt, -, hframe⟩ := frame_of_addScope hadd
      exact .inr ⟨parent, hlt, kind, hframe⟩
  | declare scope binding hoist =>
    rw [perform]
    cases hdeclare : tree.declare scope binding hoist with
    | error e => exact .inl rfl
    | ok r => exact .inl (frame_of_declare hdeclare)
  | updateLocal scope name update => exact .inl (frame_updateLocal ..)
  | updateChain scope chain update => exact .inl (frame_updateChain ..)

/-- Operations keep a tree well-formed. -/
theorem WellFormed.perform (h : tree.WellFormed) (operation : Operation) :
    (tree.perform operation).2.WellFormed := by
  rcases frame_perform tree operation with hframe | ⟨parent, hlt, kind, hframe⟩
  · exact h.of_frame_eq hframe
  · exact h.of_frame_append hlt hframe

/-- **Every sequence of operations leaves a tree well formed.** -/
theorem WellFormed.performAll (h : tree.WellFormed) (operations : List Operation) :
    (tree.performAll operations).WellFormed := by
  induction operations generalizing tree with
  | nil => exact h
  | cons operation rest ih => exact ih (h.perform operation)

theorem WellFormed.parent?_globalId (h : tree.WellFormed) : tree.parent? globalId = none := by
  rw [parent?_eq_frame, globalId, h.root]
  rfl

theorem WellFormed.exists_parent? (h : tree.WellFormed) (hpos : 0 < i) (hi : i < tree.size) :
    ∃ p < i, tree.parent? i = some p := by
  obtain ⟨p, hlt, kind, hp⟩ := h.parent i hpos hi
  refine ⟨p, hlt, ?_⟩
  rw [parent?_eq_frame, hp]
  rfl

theorem WellFormed.lt_of_parent? (h : tree.WellFormed) {p : ScopeId}
    (hp : tree.parent? i = some p) : p < i := by
  obtain ⟨s, hs, -⟩ := Option.bind_eq_some_iff.1 hp
  rcases Nat.eq_zero_or_pos i with rfl | hpos
  · rw [show tree.parent? 0 = none from h.parent?_globalId] at hp
    cases hp
  · obtain ⟨p', hlt, hp'⟩ := h.exists_parent? hpos (lt_size_of_scope? hs)
    rwa [Option.some.inj (hp.symm.trans hp')]

/-- **The chain of a scope goes from it through parents to the global scope.** -/
theorem WellFormed.chain_goes (h : tree.WellFormed) (hi : i < tree.size) :
    (tree.chain i).head? = some i ∧ (tree.chain i).getLast? = some globalId ∧
      (tree.chain i).IsChain (fun a b => tree.parent? a = some b) := by
  -- A parent is older than its scope, so the induction is on the number of the scope.
  induction i using Nat.strongRecOn with
  | _ i ih =>
    rcases h.chain_eq hi with ⟨rfl, hchain⟩ | ⟨p, hlt, hp, hchain⟩
    · rw [hchain]
      exact ⟨rfl, rfl, List.isChain_singleton _⟩
    · obtain ⟨hhead, hlast, hlinks⟩ := ih p hlt (Nat.lt_trans hlt hi)
      rw [hchain]
      refine ⟨rfl, ?_, List.isChain_cons.2 ⟨fun b hb => ?_, hlinks⟩⟩
      · rw [List.getLast?_cons, hlast]
        rfl
      · rw [hhead] at hb
        cases hb
        exact hp

/-- Chains go from new scopes to old ones. -/
theorem WellFormed.pairwise_chain (h : tree.WellFormed) (hi : i < tree.size) :
    (tree.chain i).Pairwise (· > ·) := by
  obtain ⟨-, -, hlinks⟩ := h.chain_goes hi
  exact (hlinks.imp fun _ _ hp => h.lt_of_parent? hp).pairwise

theorem exists_kind? (hi : i < tree.size) {j : ScopeId} (hj : j ∈ tree.chain i) :
    ∃ kind, tree.kind? j = some kind := by
  obtain ⟨s, hs⟩ := exists_scope? (Nat.lt_of_le_of_lt (le_of_mem_chain hj) hi)
  exact ⟨s.kind, by rw [kind?, hs]; rfl⟩

/-- All scopes but blocks take hoisted names. -/
theorem takesHoisted_iff {kind : ScopeKind} (h : tree.kind? i = some kind) :
    tree.takesHoisted i ↔ kind ≠ .block := by
  rw [takesHoisted, h]
  cases kind <;> decide

/-- **A hoisted declaration lands on the first scope of the chain that is no block.** -/
theorem WellFormed.exists_hoistTarget_chain (h : tree.WellFormed) (hi : i < tree.size) :
    ∃ target inner outer, tree.hoistTarget i = .ok target ∧
      tree.chain i = inner ++ target :: outer ∧ (∀ j ∈ inner, tree.kind? j = some .block) ∧
      ∃ kind, tree.kind? target = some kind ∧ kind ≠ .block := by
  obtain ⟨s, hs⟩ := exists_scope? hi
  obtain ⟨target, -, htarget⟩ := h.exists_hoistTarget hi
  have hfind : (tree.chain i).find? tree.takesHoisted = some target := by
    rw [hoistTarget, hs] at htarget
    dsimp only at htarget
    split at htarget
    · next hfound =>
      cases htarget
      exact hfound
    · cases htarget
  -- The search passes over the scopes before the target, so these are blocks.
  obtain ⟨htakes, inner, outer, hchain, hinner⟩ := List.find?_eq_some_iff_append.1 hfind
  refine ⟨target, inner, outer, htarget, hchain, fun j hj => ?_, ?_⟩
  · have hmem : j ∈ tree.chain i := by
      rw [hchain]
      exact List.mem_append_left _ hj
    obtain ⟨kind, hkind⟩ := exists_kind? hi hmem
    have hblock : kind = .block := by
      by_contra hne
      have hnot := hinner j hj
      rw [(takesHoisted_iff hkind).2 hne] at hnot
      cases hnot
    rw [hkind, hblock]
  · obtain ⟨kind, hkind⟩ := exists_kind? hi (List.mem_of_find?_eq_some hfind)
    exact ⟨kind, hkind, (takesHoisted_iff hkind).1 htakes⟩

theorem hoistTarget_unknown (hi : tree.size ≤ i) :
    tree.hoistTarget i = .error (.unknownScope i) := by
  have hnone : tree.scope? i = none := Array.getElem?_eq_none hi
  rw [hoistTarget, hnone]

theorem WellFormed.eq_unknownScope_of_hoistTarget (h : tree.WellFormed) {e : ScopeError}
    (he : tree.hoistTarget i = .error e) : tree.size ≤ i ∧ e = .unknownScope i := by
  by_cases hi : i < tree.size
  · obtain ⟨target, -, htarget⟩ := h.exists_hoistTarget hi
    rw [htarget] at he
    cases he
  · have hle := Nat.le_of_not_lt hi
    rw [hoistTarget_unknown hle] at he
    cases he
    exact ⟨hle, rfl⟩

/-- A tree whose scopes are ordered from the global one inwards. -/
structure Ordered (tree : ScopeTree) : Prop where
  /-- There is a global scope. -/
  exists_root : globalId < tree.size
  /-- It is the only scope without a parent. -/
  root : ∀ i < tree.size, tree.parent? i = none ↔ i = globalId
  /-- Every other scope has an older parent. -/
  parent : ∀ i < tree.size, i ≠ globalId → ∃ p < i, tree.parent? i = some p
  /-- The chain of a scope goes from it through parents to the global scope. -/
  chain : ∀ i < tree.size, (tree.chain i).head? = some i ∧
    (tree.chain i).getLast? = some globalId ∧
    (tree.chain i).IsChain (fun a b => tree.parent? a = some b)
  /-- Chains are strictly decreasing. -/
  decreasing : ∀ i, (tree.chain i).Pairwise (· > ·)
  /-- What is no scope has no chain. -/
  nowhere : ∀ i, tree.chain i = [] ↔ tree.size ≤ i
  /-- A scope for hoisted declarations is found from every scope, and from nowhere else. -/
  hoist : ∀ i, (∃ target, tree.hoistTarget i = .ok target) ↔ i < tree.size
  /-- It is the first scope of the chain that is no block. -/
  hoistTarget : ∀ i target, tree.hoistTarget i = .ok target →
    ∃ inner outer, tree.chain i = inner ++ target :: outer ∧
      (∀ j ∈ inner, tree.kind? j = some .block) ∧
      ∃ kind, tree.kind? target = some kind ∧ kind ≠ .block
  /-- There always is such a scope. -/
  noHoistTarget : ∀ i j, tree.hoistTarget i ≠ .error (.noHoistTarget j)

theorem WellFormed.ordered (h : tree.WellFormed) : tree.Ordered where
  exists_root := h.size_pos
  root := by
    intro i hi
    refine ⟨fun hnone => ?_, ?_⟩
    · rcases Nat.eq_zero_or_pos i with rfl | hpos
      · rfl
      · obtain ⟨p, -, hp⟩ := h.exists_parent? hpos hi
        rw [hnone] at hp
        cases hp
    · rintro rfl
      exact h.parent?_globalId
  parent := fun i hi hne => h.exists_parent? (Nat.pos_of_ne_zero hne) hi
  chain := fun i hi => h.chain_goes hi
  decreasing := by
    intro i
    by_cases hi : i < tree.size
    · exact h.pairwise_chain hi
    · rw [chain_eq_nil (Nat.le_of_not_lt hi)]
      exact List.Pairwise.nil
  nowhere := by
    refine fun i => ⟨fun hnil => ?_, chain_eq_nil⟩
    by_contra hlt
    have hmem : i ∈ tree.chain i := self_mem_chain (Nat.lt_of_not_le hlt)
    rw [hnil] at hmem
    cases hmem
  hoist := by
    refine fun i => ⟨?_, fun hi => ?_⟩
    · rintro ⟨target, htarget⟩
      by_contra hlt
      rw [hoistTarget_unknown (Nat.le_of_not_lt hlt)] at htarget
      cases htarget
    · obtain ⟨target, -, htarget⟩ := h.exists_hoistTarget hi
      exact ⟨target, htarget⟩
  hoistTarget := by
    intro i target htarget
    by_cases hi : i < tree.size
    · obtain ⟨target', inner, outer, htarget', hrest⟩ := h.exists_hoistTarget_chain hi
      rw [htarget'] at htarget
      cases htarget
      exact ⟨inner, outer, hrest⟩
    · rw [hoistTarget_unknown (Nat.le_of_not_lt hi)] at htarget
      cases htarget
  noHoistTarget := by
    intro i j he
    obtain ⟨-, heq⟩ := h.eq_unknownScope_of_hoistTarget he
    cases heq

end ScopeTree

end DeadCode
