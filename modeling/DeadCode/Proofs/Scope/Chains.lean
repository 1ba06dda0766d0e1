import DeadCode.Proofs.Scope.Operations

/-! # Chains of member names

A chain of names such as `a.b.c` is followed in three ways: to the binding at its end, as far as its
members are known, and to a binding that is to be changed in its place. All three lead to the same
binding, and the segments that lead from an object to itself make no difference. -/

namespace DeadCode

/-! ## Members along a list of segments -/

namespace Binding

variable {binding : Binding} {update : Binding → Binding} {way way' more : List String}
  {segment : String}

/-- The segments that lead on, without those that lead from an object to itself. -/
def plain (segments : List String) : List String :=
  segments.filter (· ≠ selfSegment)

theorem selfSegment_notMem_plain (segments : List String) : selfSegment ∉ plain segments := by
  simp [plain]

/-- A way down can be cut in two. -/
theorem descend?_append (binding : Binding) (way more : List String) :
    binding.descend? (way ++ more) = (binding.descend? way).bind (·.descend? more) := by
  induction way generalizing binding with
  | nil => rfl
  | cons segment rest ih =>
    rw [List.cons_append, descend?, descend?, Option.bind_assoc]
    exact congrArg _ (funext fun member => ih member)

/-- The self segment leads nowhere else. -/
theorem descend?_self_cons (binding : Binding) (rest : List String) :
    binding.descend? (selfSegment :: rest) = binding.descend? rest := by
  rw [descend?, member?, if_pos rfl, Option.bind_some]

/-- Any other segment leads to a member. -/
theorem descend?_cons (h : segment ≠ selfSegment) (binding : Binding) (rest : List String) :
    binding.descend? (segment :: rest) = (find? binding.members segment).bind (·.descend? rest) := by
  rw [descend?, member?, if_neg h]

/-- **Segments that lead from an object to itself make no difference.** -/
theorem descend?_plain (binding : Binding) (segments : List String) :
    binding.descend? (plain segments) = binding.descend? segments := by
  induction segments generalizing binding with
  | nil => rfl
  | cons segment rest ih =>
    by_cases hself : segment = selfSegment
    · rw [hself, descend?_self_cons, ← ih]
      simp [plain]
    · have hplain : plain (segment :: rest) = segment :: plain rest := by simp [plain, hself]
      rw [hplain, descend?_cons hself, descend?_cons hself]
      exact congrArg _ (funext fun member => ih member)

/-- Self segments do not matter for updates. -/
theorem updateAt_plain (update : Binding → Binding) (segments : List String) (binding : Binding) :
    updateAt update (plain segments) binding = updateAt update segments binding := by
  induction segments generalizing binding with
  | nil => rfl
  | cons segment rest ih =>
    rw [updateAt]
    by_cases hself : segment = selfSegment
    · rw [if_pos hself, ← ih]
      simp [plain, hself]
    · have hplain : plain (segment :: rest) = segment :: plain rest := by simp [plain, hself]
      rw [if_neg hself, hplain, updateAt, if_neg hself, funext ih]

/-- **Descending goes as far as members are known.** -/
theorem descendFar_spec (binding : Binding) (segments : List String) :
    (binding.descendFar segments).2 ≤ segments.length ∧
      binding.descend? (segments.take (binding.descendFar segments).2) =
        some (binding.descendFar segments).1 ∧
      ∀ k, (binding.descendFar segments).2 < k → k ≤ segments.length →
        binding.descend? (segments.take k) = none := by
  induction segments generalizing binding with
  | nil => exact ⟨Nat.le_refl 0, rfl, fun k hlt hle => absurd hle (Nat.not_le.2 hlt)⟩
  | cons segment rest ih =>
    rw [descendFar]
    cases hnext : binding.member? segment with
    | none =>
      refine ⟨Nat.zero_le _, rfl, fun k hlt _ => ?_⟩
      obtain ⟨k, rfl⟩ := Nat.exists_eq_add_of_lt hlt
      simp [descend?, hnext]
    | some member =>
      -- One segment is followed, and the prefixes of the rest are each longer by it.
      obtain ⟨hle, hfound, hlongest⟩ := ih member
      refine ⟨Nat.succ_le_succ hle, ?_, fun k hlt hk => ?_⟩
      · simpa [descend?, hnext] using hfound
      · obtain ⟨k, rfl⟩ : ∃ j, k = j + 1 := ⟨k - 1, by omega⟩
        simpa [descend?, hnext] using hlongest k (Nat.lt_of_succ_lt_succ hlt)
          (Nat.le_of_succ_le_succ hk)

/-! ## Changing a member -/

/-- An update below changes one member. -/
theorem find?_members_updateAt {rest : List String} (hself : segment ≠ selfSegment)
    (update : Binding → Binding) (binding : Binding) (name : String) :
    find? (updateAt update (segment :: rest) binding).members name =
      if name = segment then (find? binding.members name).map (updateAt update rest)
      else find? binding.members name := by
  rw [updateAt, if_neg hself]
  exact find?_modify ..

/-- **Past the changed member** the segments lead on from what it was changed to. -/
theorem descend?_updateAt_append (update : Binding → Binding) (way : List String)
    (binding : Binding) (more : List String) :
    (updateAt update way binding).descend? (way ++ more) =
      (binding.descend? way).bind fun member => (update member).descend? more := by
  induction way generalizing binding with
  | nil => rfl
  | cons segment rest ih =>
    by_cases hself : segment = selfSegment
    · subst hself
      rw [updateAt, if_pos rfl, List.cons_append, descend?_self_cons, descend?_self_cons]
      exact ih binding
    · rw [List.cons_append, descend?_cons hself, descend?_cons hself, find?_members_updateAt hself,
        if_pos rfl]
      cases find? binding.members segment with
      | none => rfl
      | some member => exact ih member

/-- **On the way to the changed member** the segments lead to the same bindings, changed inside. -/
theorem descend?_updateAt_of_append (update : Binding → Binding) (way more : List String)
    (binding : Binding) :
    (updateAt update (way ++ more) binding).descend? way =
      (binding.descend? way).map (updateAt update more) := by
  induction way generalizing binding with
  | nil => rfl
  | cons segment rest ih =>
    rw [List.cons_append]
    by_cases hself : segment = selfSegment
    · subst hself
      rw [updateAt, if_pos rfl, descend?_self_cons, descend?_self_cons]
      exact ih binding
    · rw [descend?_cons hself, descend?_cons hself, find?_members_updateAt hself, if_pos rfl]
      cases find? binding.members segment with
      | none => rfl
      | some member => exact ih member

/-- **Aside from the way to the changed member** all segments lead to what they led to before. -/
theorem descend?_updateAt_of_not_prefix (hway : selfSegment ∉ way) (hway' : selfSegment ∉ way')
    (hover : ¬ way <+: way') (hunder : ¬ way' <+: way) :
    (updateAt update way binding).descend? way' = binding.descend? way' := by
  -- Both lists are followed while they agree; neither ends before they part.
  induction way generalizing binding way' with
  | nil => exact absurd List.nil_prefix hover
  | cons segment rest ih =>
    cases way' with
    | nil => exact absurd List.nil_prefix hunder
    | cons segment' rest' =>
      obtain ⟨hself, hrest⟩ := List.ne_and_not_mem_of_not_mem_cons hway
      obtain ⟨hself', hrest'⟩ := List.ne_and_not_mem_of_not_mem_cons hway'
      rw [descend?_cons hself'.symm, descend?_cons hself'.symm, find?_members_updateAt hself.symm]
      by_cases heq : segment' = segment
      · subst heq
        rw [if_pos rfl]
        rw [List.cons_prefix_cons] at hover hunder
        cases find? binding.members segment' with
        | none => rfl
        | some member =>
          rw [Option.map_some, Option.bind_some, Option.bind_some]
          exact ih hrest hrest' (fun hpre => hover ⟨rfl, hpre⟩) fun hpre => hunder ⟨rfl, hpre⟩
      · rw [if_neg heq]

end Binding

namespace ScopeTree

variable {tree : ScopeTree} {scope i : ScopeId} {name : String} {chain rest : List String}
  {base deepest : Binding} {update : Binding → Binding} {depth : Nat}

/-! ## The longest known prefix -/

/-- **The longest known prefix** of a chain of names: its first `depth` names lead to a binding, and
no more of them lead anywhere. -/
structure Farthest (tree : ScopeTree) (scope : ScopeId) (chain : List String) (deepest : Binding)
    (depth : Nat) : Prop where
  le : depth ≤ chain.length
  found : tree.lookupChain? scope (chain.take depth) = some deepest
  longest : ∀ k, depth < k → k ≤ chain.length → tree.lookupChain? scope (chain.take k) = none

/-- There is one farthest depth. -/
theorem Farthest.depth_unique {deepest' : Binding} {depth' : Nat}
    (h : tree.Farthest scope chain deepest depth) (h' : tree.Farthest scope chain deepest' depth') :
    depth = depth' := by
  rcases Nat.lt_trichotomy depth depth' with hlt | heq | hlt
  · cases h'.found.symm.trans (h.longest depth' hlt h'.le)
  · exact heq
  · cases h.found.symm.trans (h'.longest depth hlt h.le)

theorem Farthest.unique {deepest' : Binding} {depth' : Nat}
    (h : tree.Farthest scope chain deepest depth) (h' : tree.Farthest scope chain deepest' depth') :
    deepest = deepest' := by
  obtain rfl := h.depth_unique h'
  exact Option.some.inj (h.found.symm.trans h'.found)

/-- A chain whose base is known has a longest known prefix, which is what it is resolved to. -/
theorem farthest_of_lookup? (h : tree.lookup? scope name = some base) :
    tree.Farthest scope (name :: rest) (base.descendFar rest).1 ((base.descendFar rest).2 + 1) := by
  obtain ⟨hle, hfound, hlongest⟩ := base.descendFar_spec rest
  refine ⟨Nat.succ_le_succ hle, ?_, fun k hlt hk => ?_⟩
  · simpa [lookupChain?, h] using hfound
  · obtain ⟨k, rfl⟩ : ∃ j, k = j + 1 := ⟨k - 1, by omega⟩
    simpa [lookupChain?, h] using hlongest k (Nat.lt_of_succ_lt_succ hlt)
      (Nat.le_of_succ_le_succ hk)

/-- Resolving a prefix is descending from the base. -/
theorem resolvePrefix?_of_lookup? (h : tree.lookup? scope name = some base) (rest : List String) :
    tree.resolvePrefix? scope (name :: rest) =
      some ((base.descendFar rest).1, (base.descendFar rest).2 + 1) := by
  rw [resolvePrefix?, h, Option.map_some]

/-- A chain can be cut in two. -/
theorem lookupChain?_append (hne : chain ≠ []) (more : List String) :
    tree.lookupChain? scope (chain ++ more) =
      (tree.lookupChain? scope chain).bind (·.descend? more) := by
  cases chain with
  | nil => exact absurd rfl hne
  | cons name rest =>
    rw [List.cons_append, lookupChain?, lookupChain?, Option.bind_assoc]
    exact congrArg _ (funext fun base => base.descend?_append rest more)

/-- **What a chain is resolved to** is its longest known prefix. -/
theorem resolvePrefix?_eq_some_iff :
    tree.resolvePrefix? scope chain = some (deepest, depth) ↔
      1 ≤ depth ∧ tree.Farthest scope chain deepest depth := by
  constructor
  · intro h
    cases chain with
    | nil => cases h
    | cons name rest =>
      obtain ⟨base, hbase, heq⟩ := Option.map_eq_some_iff.1 h
      cases heq
      exact ⟨Nat.succ_pos _, farthest_of_lookup? hbase⟩
  · rintro ⟨hpos, hfarthest⟩
    cases chain with
    | nil => exact absurd hfarthest.le (Nat.not_le.2 hpos)
    | cons name rest =>
      -- As some prefix leads to a binding, the first name does.
      obtain ⟨depth, rfl⟩ := Nat.exists_eq_add_of_le' hpos
      obtain ⟨base, hbase, -⟩ := Option.bind_eq_some_iff.1 hfarthest.found
      have hfarthest' : tree.Farthest scope (name :: rest) _ _ := farthest_of_lookup? hbase
      rw [resolvePrefix?_of_lookup? hbase, hfarthest.unique hfarthest',
        hfarthest.depth_unique hfarthest']

/-! ## Where a chain points -/

/-- A place in a tree: a name on a scope, and members on the way from its binding. -/
structure Address where
  /-- The scope. -/
  scope : ScopeId
  /-- The name on the scope. -/
  name : String
  /-- The members on the way. -/
  members : List String
deriving DecidableEq, Repr

/-- The place that more members lead to. -/
def Address.extend (a : Address) (more : List String) : Address :=
  { a with members := a.members ++ more }

theorem Address.exists_extend {a a' : Address} (hscope : a.scope = a'.scope)
    (hname : a.name = a'.name) (h : a.members <+: a'.members) : ∃ more, a' = a.extend more := by
  obtain ⟨more, hmore⟩ := h
  refine ⟨more, ?_⟩
  cases a
  cases a'
  cases hscope
  cases hname
  cases hmore
  rfl

/-- Where a chain of names points, seen from a scope. -/
def address? (tree : ScopeTree) (i : ScopeId) : List String → Option Address
  | [] => none
  | name :: rest =>
    (tree.owner? i name).map fun scope => { scope, name, members := Binding.plain rest }

/-- What stands at a place. -/
def at? (tree : ScopeTree) (a : Address) : Option Binding :=
  (tree.local? a.scope a.name).bind (·.descend? a.members)

/-- The tree with `update` applied to what stands at a place. -/
def updateAddress (tree : ScopeTree) (a : Address) (update : Binding → Binding) : ScopeTree :=
  tree.updateLocal a.scope a.name (Binding.updateAt update a.members)

variable {a a' : Address} {more : List String}

theorem selfSegment_notMem_of_address? (h : tree.address? i chain = some a) :
    Binding.selfSegment ∉ a.members := by
  cases chain with
  | nil => cases h
  | cons name rest =>
    obtain ⟨owner, -, rfl⟩ := Option.map_eq_some_iff.1 h
    exact Binding.selfSegment_notMem_plain rest

/-- The binding of a name is that on its owner. -/
theorem lookup?_eq_owner? (tree : ScopeTree) (i : ScopeId) (name : String) :
    tree.lookup? i name = (tree.owner? i name).bind (tree.local? · name) := by
  cases howner : tree.owner? i name with
  | none =>
    refine List.findSome?_eq_none_iff.2 fun j hj => ?_
    simpa using List.find?_eq_none.1 howner j hj
  | some owner =>
    obtain ⟨b, hlocal, hlookup⟩ := lookup?_of_owner? howner
    rw [hlookup, Option.bind_some, hlocal]

/-- **A chain leads to what stands where it points.** -/
theorem lookupChain?_eq_at? (tree : ScopeTree) (i : ScopeId) (chain : List String) :
    tree.lookupChain? i chain = (tree.address? i chain).bind tree.at? := by
  cases chain with
  | nil => rfl
  | cons name rest =>
    rw [lookupChain?, address?, lookup?_eq_owner?]
    cases tree.owner? i name with
    | none => rfl
    | some owner =>
      simp only [Option.bind_some, Option.map_some, at?, Binding.descend?_plain]

/-- A chain leads to its address. -/
theorem lookupChain?_of_address? (h : tree.address? i chain = some a) :
    tree.lookupChain? i chain = tree.at? a := by
  rw [lookupChain?_eq_at?, h, Option.bind_some]

/-- **A change along a chain** is made where the chain points. -/
theorem updateChain_of_address? (h : tree.address? i chain = some a)
    (update : Binding → Binding) : tree.updateChain i chain update = tree.updateAddress a update := by
  cases chain with
  | nil => cases h
  | cons name rest =>
    obtain ⟨owner, howner, rfl⟩ := Option.map_eq_some_iff.1 h
    rw [updateChain, howner, updateAddress, funext (Binding.updateAt_plain update rest)]

/-- What is below an address. -/
theorem at?_extend (tree : ScopeTree) (a : Address) (more : List String) :
    tree.at? (a.extend more) = (tree.at? a).bind (·.descend? more) := by
  rw [at?, at?, Option.bind_assoc]
  exact congrArg _ (funext fun base => base.descend?_append a.members more)

/-! ## Changing what stands at a place -/

/-- An update changes one binding. -/
theorem local?_updateLocal (tree : ScopeTree) (scope : ScopeId) (name : String)
    (update : Binding → Binding) (j : ScopeId) (other : String) :
    (tree.updateLocal scope name update).local? j other =
      if j = scope ∧ other = name then (tree.local? j other).map update
      else tree.local? j other := by
  unfold updateLocal
  split
  · next hnone =>
    -- There is no such scope, so nothing is bound on it.
    split
    · next heq => rw [heq.1, local?, hnone]; rfl
    · rfl
  · next s hs =>
    rw [local?_setIfInBounds hs, Binding.find?_modify]
    by_cases hj : j = scope
    · simp [hj, local?, hs]
    · simp [hj]

/-- An update at an address changes one binding. -/
theorem local?_updateAddress (tree : ScopeTree) (a : Address) (update : Binding → Binding)
    (j : ScopeId) (other : String) :
    (tree.updateAddress a update).local? j other =
      if j = a.scope ∧ other = a.name then
        (tree.local? j other).map (Binding.updateAt update a.members)
      else tree.local? j other :=
  local?_updateLocal ..

@[simp] theorem frame_updateAddress (tree : ScopeTree) (a : Address) (update : Binding → Binding) :
    (tree.updateAddress a update).frame = tree.frame :=
  frame_updateLocal ..

/-- **A change in place moves nothing**: every chain points where it did. -/
theorem address?_updateAddress (tree : ScopeTree) (a : Address) (update : Binding → Binding)
    (i : ScopeId) (chain : List String) :
    (tree.updateAddress a update).address? i chain = tree.address? i chain := by
  cases chain with
  | nil => rfl
  | cons name rest =>
    -- Who owns a name is a matter of the frame and of which names are bound.
    have howner : (tree.updateAddress a update).owner? i name = tree.owner? i name := by
      rw [owner?, owner?, chain_of_frame_eq (frame_updateAddress tree a update)]
      congr 1
      funext j
      rw [local?_updateAddress]
      split
      · rw [Option.isSome_map]
      · rfl
    rw [address?, address?, howner]

/-- What is below an updated address. -/
theorem at?_updateAddress_extend (tree : ScopeTree) (a : Address) (update : Binding → Binding)
    (more : List String) :
    (tree.updateAddress a update).at? (a.extend more) =
      (tree.at? a).bind fun x => (update x).descend? more := by
  rw [at?, local?_updateAddress, at?]
  cases hbase : tree.local? a.scope a.name with
  | none => simp [Address.extend, hbase]
  | some base =>
    simp only [Address.extend, and_self, if_true, hbase, Option.map_some, Option.bind_some]
    exact Binding.descend?_updateAt_append ..

/-- What is above an updated address. -/
theorem at?_updateAddress_of_extend (tree : ScopeTree) (a : Address) (more : List String)
    (update : Binding → Binding) :
    (tree.updateAddress (a.extend more) update).at? a =
      (tree.at? a).map (Binding.updateAt update more) := by
  rw [at?, local?_updateAddress, at?]
  cases hbase : tree.local? a.scope a.name with
  | none => simp [Address.extend]
  | some base =>
    simp only [Address.extend, and_self, if_true, Option.map_some, Option.bind_some]
    exact Binding.descend?_updateAt_of_append ..

/-- An update leaves what is aside. -/
theorem at?_updateAddress_of_aside
    (hplain : Binding.selfSegment ∉ a.members) (hplain' : Binding.selfSegment ∉ a'.members)
    (hover : ∀ more, a' ≠ a.extend more) (hunder : ∀ more, a ≠ a'.extend more) :
    (tree.updateAddress a update).at? a' = tree.at? a' := by
  rw [at?, local?_updateAddress, at?]
  split
  · next heq =>
    obtain ⟨hscope, hname⟩ := heq
    cases tree.local? a'.scope a'.name with
    | none => rfl
    | some base =>
      -- The places are on the same binding, so they differ in the members on the way.
      refine Binding.descend?_updateAt_of_not_prefix hplain hplain' ?_ ?_
      · intro hpre
        obtain ⟨more, hmore⟩ := Address.exists_extend hscope.symm hname.symm hpre
        exact hover more hmore
      · intro hpre
        obtain ⟨more, hmore⟩ := Address.exists_extend hscope hname hpre
        exact hunder more hmore
  · rfl

end ScopeTree

/-! ## Bindings with what is around them -/

/-- A binding inside something larger: the binding, and the whole with another one in its place. -/
structure Focus (α : Type) where
  /-- The binding. -/
  binding : Binding
  /-- The whole with another binding put in the place of this one. -/
  put : Binding → α

/-- The member that some segments lead to, with the binding around it. -/
def Binding.focus? (binding : Binding) : List String → Option (Focus Binding)
  | [] => some { binding, put := id }
  | segment :: rest =>
    if segment = selfSegment then binding.focus? rest
    else do
      let member ← find? binding.members segment
      let inner ← member.focus? rest
      let put x := { binding with members := modify binding.members segment fun _ => inner.put x }
      return { binding := inner.binding, put }

/-- The binding that a chain leads to, with the tree around it. The chain starts on the scope that
owns its first name. -/
def ScopeTree.focus? (tree : ScopeTree) (i : ScopeId) : List String → Option (Focus ScopeTree)
  | [] => none
  | name :: rest => do
    let owner ← tree.owner? i name
    let base ← tree.local? owner name
    let inner ← base.focus? rest
    return { binding := inner.binding, put := fun x => tree.updateLocal owner name fun _ => inner.put x }

namespace Binding

theorem modify_eq_const {bindings : List (String × Binding)} {name : String} {found : Binding}
    (h : find? bindings name = some found) (update : Binding → Binding) :
    modify bindings name update = modify bindings name fun _ => update found := by
  induction bindings with
  | nil => cases h
  | cons first rest ih =>
    rw [find?] at h
    rw [modify, modify]
    by_cases hfirst : first.1 = name
    · rw [if_pos hfirst] at h
      rw [if_pos hfirst, if_pos hfirst, Option.some.inj h]
    · rw [if_neg hfirst] at h
      rw [if_neg hfirst, if_neg hfirst, ih h]

/-- Focusing finds what descending finds. -/
theorem map_binding_focus? (binding : Binding) (segments : List String) :
    (binding.focus? segments).map (·.binding) = binding.descend? segments := by
  induction segments generalizing binding with
  | nil => rfl
  | cons segment rest ih =>
    rw [focus?]
    by_cases hself : segment = selfSegment
    · rw [if_pos hself, ih, hself, descend?_self_cons]
    · rw [if_neg hself, descend?_cons hself]
      cases find? binding.members segment with
      | none => rfl
      | some member =>
        rw [Option.bind_some, ← ih]
        cases hinner : member.focus? rest <;> simp [hinner]

/-- **A member is changed by putting its change in its place.** -/
theorem put_focus? {binding : Binding} {segments : List String} {focus : Focus Binding}
    (h : binding.focus? segments = some focus) (update : Binding → Binding) :
    focus.put (update focus.binding) = updateAt update segments binding := by
  induction segments generalizing binding focus with
  | nil =>
    cases h
    rfl
  | cons segment rest ih =>
    rw [focus?] at h
    rw [updateAt]
    by_cases hself : segment = selfSegment
    · rw [if_pos hself] at h ⊢
      exact ih h
    · rw [if_neg hself] at h ⊢
      obtain ⟨member, hmember, h⟩ := Option.bind_eq_some_iff.1 h
      obtain ⟨inner, hinner, h⟩ := Option.bind_eq_some_iff.1 h
      cases h
      dsimp only
      -- Only the member that is found is changed, so the change need not look at it again.
      rw [modify_eq_const hmember (updateAt update rest), ih hinner]

end Binding

namespace ScopeTree

variable {tree : ScopeTree} {i : ScopeId} {chain : List String}

theorem map_binding_focus? (tree : ScopeTree) (i : ScopeId) (chain : List String) :
    (tree.focus? i chain).map (·.binding) = tree.lookupChain? i chain := by
  cases chain with
  | nil => rfl
  | cons name rest =>
    rw [focus?, lookupChain?, lookup?_eq_owner?]
    cases tree.owner? i name with
    | none => rfl
    | some owner =>
      cases hbase : tree.local? owner name with
      | none => simp [hbase]
      | some base =>
        simp only [Option.bind_eq_bind, Option.bind_some, hbase, ← Binding.map_binding_focus?]
        cases base.focus? rest <;> rfl

theorem updateLocal_eq_const {scope : ScopeId} {name : String} {base : Binding}
    (h : tree.local? scope name = some base) (update : Binding → Binding) :
    tree.updateLocal scope name update = tree.updateLocal scope name fun _ => update base := by
  unfold updateLocal
  split
  · rfl
  · next s hs =>
    rw [local?, hs, Option.bind_some] at h
    rw [Binding.modify_eq_const h]

/-- **A binding is changed along a chain by putting its change in its place.** -/
theorem put_focus? {focus : Focus ScopeTree} (h : tree.focus? i chain = some focus)
    (update : Binding → Binding) :
    focus.put (update focus.binding) = tree.updateChain i chain update := by
  cases chain with
  | nil => cases h
  | cons name rest =>
    obtain ⟨owner, howner, h⟩ := Option.bind_eq_some_iff.1 h
    obtain ⟨base, hbase, h⟩ := Option.bind_eq_some_iff.1 h
    obtain ⟨inner, hinner, h⟩ := Option.bind_eq_some_iff.1 h
    cases h
    rw [updateChain, howner]
    dsimp only
    rw [Binding.put_focus? hinner, updateLocal_eq_const hbase (Binding.updateAt update rest)]

/-- **What was updated is found.** -/
theorem lookupChain?_updateChain_self (tree : ScopeTree) (i : ScopeId) (chain : List String)
    (update : Binding → Binding) :
    (tree.updateChain i chain update).lookupChain? i chain =
      (tree.lookupChain? i chain).map update := by
  cases ha : tree.address? i chain with
  | none =>
    have hnone : tree.lookupChain? i chain = none := by rw [lookupChain?_eq_at?, ha]; rfl
    rw [updateChain_eq_self hnone, hnone]
    rfl
  | some a =>
    have ha' : (tree.updateAddress a update).address? i chain = some (a.extend []) := by
      rw [address?_updateAddress, ha, Address.extend, List.append_nil]
    rw [lookupChain?_of_address? ha, updateChain_of_address? ha, lookupChain?_of_address? ha',
      at?_updateAddress_extend]
    exact (Option.map_eq_bind).symm

/-- **What was put is found.** -/
theorem lookupChain?_put {focus : Focus ScopeTree} (h : tree.focus? i chain = some focus)
    (x : Binding) : (focus.put x).lookupChain? i chain = some x := by
  have hfound : tree.lookupChain? i chain = some focus.binding := by
    rw [← map_binding_focus?, h, Option.map_some]
  have hput := put_focus? h fun _ => x
  rw [hput, lookupChain?_updateChain_self, hfound, Option.map_some]

/-- **The ways to follow a chain agree.** A chain is resolved to the longest prefix that leads to a
binding, and with a chain all its prefixes lead to bindings. A chain leads to a binding that can be
changed exactly if it leads to a binding, and it is the same one: what is put there is what the chain
leads to. Segments that lead from an object to itself change nothing after the first name. -/
theorem chain_lookups_agree (tree : ScopeTree) (i : ScopeId) (chain : List String) :
    (∀ deepest depth, tree.resolvePrefix? i chain = some (deepest, depth) ↔
      1 ≤ depth ∧ tree.Farthest i chain deepest depth) ∧
    ((tree.lookupChain? i chain).isSome → ∀ before, before <+: chain → before ≠ [] →
      (tree.lookupChain? i before).isSome) ∧
    (tree.focus? i chain).map (·.binding) = tree.lookupChain? i chain ∧
    (∀ update, tree.updateChain i chain update =
      ((tree.focus? i chain).map fun focus => focus.put (update focus.binding)).getD tree) ∧
    (∀ focus, tree.focus? i chain = some focus → ∀ x,
      (focus.put x).lookupChain? i chain = some x) ∧
    ∀ name rest rest', Binding.plain rest = Binding.plain rest' →
      tree.lookupChain? i (name :: rest) = tree.lookupChain? i (name :: rest') := by
  refine ⟨fun _ _ => resolvePrefix?_eq_some_iff, ?_, map_binding_focus? tree i chain, ?_,
    fun _ hfocus => lookupChain?_put hfocus, ?_⟩
  · rintro hsome before ⟨more, rfl⟩ hne
    rw [lookupChain?_append hne] at hsome
    exact Option.isSome_of_isSome_bind hsome
  · intro update
    cases hfocus : tree.focus? i chain with
    | none =>
      have hnone : tree.lookupChain? i chain = none := by rw [← map_binding_focus?, hfocus]; rfl
      rw [updateChain_eq_self hnone]
      rfl
    | some focus => exact (put_focus? hfocus update).symm
  · intro name rest rest' hplain
    rw [lookupChain?, lookupChain?]
    refine congrArg _ (funext fun base => ?_)
    rw [← base.descend?_plain rest, hplain, base.descend?_plain]

end ScopeTree

end DeadCode
