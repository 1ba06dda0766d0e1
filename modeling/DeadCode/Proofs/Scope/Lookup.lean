import DeadCode.Proofs.Scope.Tree

/-! # Which bindings a change of the scopes touches

Adding a scope, declaring a binding and changing a binding in its place touch at most one name on
one scope. The chains of the existing scopes stay as they are. -/

namespace DeadCode

namespace Binding

/-- What is found after inserting. -/
theorem find?_insert (bindings : List (String × Binding)) (key : String) (binding : Binding)
    (name : String) :
    find? (insert bindings key binding) name =
      if name = key then some binding else find? bindings name := by
  induction bindings with
  | nil =>
    by_cases h : name = key
    · simp [insert, find?, h]
    · simp [insert, find?, h, Ne.symm h]
  | cons first rest ih =>
    rw [insert]
    by_cases hfirst : first.1 = key
    · rw [if_pos hfirst, find?, find?, hfirst]
      by_cases h : name = key
      · rw [if_pos h.symm, if_pos h]
      · rw [if_neg (Ne.symm h), if_neg h, if_neg (Ne.symm h)]
    · rw [if_neg hfirst, find?, find?, ih]
      by_cases h : first.1 = name
      · rw [if_pos h, if_pos h, if_neg (by rwa [← h])]
      · rw [if_neg h, if_neg h]

/-- What is found after modifying. -/
theorem find?_modify (bindings : List (String × Binding)) (changed : String)
    (update : Binding → Binding) (name : String) :
    find? (modify bindings changed update) name =
      if name = changed then (find? bindings name).map update else find? bindings name := by
  induction bindings with
  | nil => simp [modify, find?]
  | cons first rest ih =>
    rw [modify]
    by_cases hfirst : first.1 = changed
    · rw [if_pos hfirst, find?, find?, hfirst]
      by_cases h : name = changed
      · rw [if_pos h.symm, if_pos h, if_pos h.symm, Option.map_some]
      · rw [if_neg (Ne.symm h), if_neg h, if_neg (Ne.symm h)]
    · rw [if_neg hfirst, find?, find?, ih]
      by_cases h : first.1 = name
      · rw [if_pos h, if_pos h, if_neg (by rwa [← h])]
      · rw [if_neg h, if_neg h]

variable {update : Binding → Binding}

/-- A change of a binding that keeps its name, its declaration, and that it can be called. -/
structure Keeps (update : Binding → Binding) : Prop where
  name : ∀ x, (update x).name = x.name
  declaration : ∀ x, (update x).declaration = x.declaration
  callable : ∀ x, x.callable.isSome → (update x).callable.isSome

theorem Keeps.id : Keeps id :=
  ⟨fun _ => rfl, fun _ => rfl, fun _ h => h⟩

theorem Keeps.updateAt (h : Keeps update) (segments : List String) :
    Keeps (updateAt update segments) := by
  induction segments with
  | nil => exact ⟨h.name, h.declaration, h.callable⟩
  | cons segment rest ih =>
    have hcases (x : Binding) : Binding.updateAt update (segment :: rest) x =
          Binding.updateAt update rest x ∨ ∃ members,
            Binding.updateAt update (segment :: rest) x = { x with members } := by
      rw [Binding.updateAt]
      split
      · exact .inl rfl
      · exact .inr ⟨_, rfl⟩
    refine ⟨fun x => ?_, fun x => ?_, fun x hx => ?_⟩
    · rcases hcases x with heq | ⟨members, heq⟩ <;> rw [heq]
      exact ih.name x
    · rcases hcases x with heq | ⟨members, heq⟩ <;> rw [heq]
      exact ih.declaration x
    · rcases hcases x with heq | ⟨members, heq⟩ <;> rw [heq]
      · exact ih.callable x hx
      · exact hx

theorem Keeps.guarded (h : Keeps update) :
    Keeps fun binding => if binding.declaration.isSome then update binding else binding where
  name := by
    intro x
    split
    · exact h.name x
    · rfl
  declaration := by
    intro x
    split
    · exact h.declaration x
    · rfl
  callable := by
    intro x hx
    split
    · exact h.callable x hx
    · exact hx

end Binding

namespace ScopeTree

variable {tree tree' : ScopeTree} {i j target : ScopeId}

/-! ## Chains -/

/-- The scopes around a scope are older. -/
theorem le_of_mem_chain (h : j ∈ tree.chain i) : j ≤ i := by
  induction i using Nat.strongRecOn with
  | _ i ih =>
    rw [chain] at h
    split at h
    · cases h
    · rw [List.mem_singleton] at h
      exact Nat.le_of_eq h
    · next parent _ _ _ =>
      rcases List.mem_cons.1 h with h | h
      · exact Nat.le_of_eq h
      · split at h
        · next hlt => exact Nat.le_trans (ih parent hlt h) (Nat.le_of_lt hlt)
        · cases h

/-- **The chain of a scope stays the same while scopes are added.** -/
theorem chain_of_frame (hframe : tree.frame <+: tree'.frame) (hi : i < tree.size) :
    tree'.chain i = tree.chain i := by
  induction i using Nat.strongRecOn with
  | _ i ih =>
    obtain ⟨⟨parent, kind, bindings⟩, hs⟩ := exists_scope? hi
    have hget : tree'.frame[i]? = tree.frame[i]? := by
      obtain ⟨rest, hrest⟩ := hframe
      rw [← hrest, List.getElem?_append_left (by rw [length_frame]; exact hi)]
    rw [frame_getElem?, frame_getElem?, hs, Option.map_some] at hget
    obtain ⟨⟨parent', kind', bindings'⟩, hs', heq⟩ := Option.map_eq_some_iff.1 hget
    obtain ⟨rfl, -⟩ := Prod.mk.inj heq
    rw [chain, chain, hs, hs']
    cases parent' with
    | none => rfl
    | some parent =>
      dsimp only
      split
      · next hlt => rw [ih parent hlt (Nat.lt_trans hlt hi)]
      · rfl

theorem chain_eq_nil (hi : tree.size ≤ i) : tree.chain i = [] := by
  have hnone : tree.scope? i = none := Array.getElem?_eq_none hi
  rw [chain, hnone]

/-- Chains are a matter of the frame. -/
theorem chain_of_frame_eq (hframe : tree'.frame = tree.frame) (i : ScopeId) :
    tree'.chain i = tree.chain i := by
  by_cases hi : i < tree.size
  · exact chain_of_frame (hframe ▸ List.prefix_rfl) hi
  · have hle := Nat.le_of_not_lt hi
    rw [chain_eq_nil hle, chain_eq_nil (by rwa [size_of_frame_eq hframe])]

theorem parent?_eq_frame (tree : ScopeTree) (i : ScopeId) :
    tree.parent? i = (tree.frame[i]?).bind Prod.fst := by
  rw [frame_getElem?, parent?]
  cases tree.scope? i <;> rfl

theorem exists_chain_eq (hi : i < tree.size) : ∃ outer, tree.chain i = i :: outer := by
  obtain ⟨⟨parent, kind, bindings⟩, hs⟩ := exists_scope? hi
  rw [chain, hs]
  cases parent with
  | none => exact ⟨[], rfl⟩
  | some parent => exact ⟨_, rfl⟩

theorem self_mem_chain (hi : i < tree.size) : i ∈ tree.chain i := by
  obtain ⟨outer, houter⟩ := exists_chain_eq hi
  rw [houter]
  exact List.mem_cons_self

theorem hoistTarget_of_takesHoisted (h : tree.takesHoisted i) : tree.hoistTarget i = .ok i := by
  cases hs : tree.scope? i with
  | none => simp [takesHoisted, kind?, hs] at h
  | some s =>
    obtain ⟨parent, kind, bindings⟩ := s
    have hfind : (tree.chain i).find? tree.takesHoisted = some i := by
      rw [chain, hs]
      cases parent <;> simp [h]
    rw [hoistTarget, hs]
    simp only [hfind]

/-- Names are hoisted outwards. -/
theorem mem_chain_of_hoistTarget (h : tree.hoistTarget i = .ok target) : target ∈ tree.chain i := by
  unfold hoistTarget at h
  split at h
  · cases h
  · split at h
    · next hfind =>
      cases h
      exact List.mem_of_find?_eq_some hfind
    · cases h

theorem local?_of_lookup?_eq_none {name : String} (h : tree.lookup? i name = none)
    (hj : j ∈ tree.chain i) : tree.local? j name = none :=
  List.findSome?_eq_none_iff.1 h j hj

theorem prefix_of_frame_eq (h : tree'.frame = tree.frame) : tree.frame <+: tree'.frame :=
  ⟨[], by rw [List.append_nil, h]⟩

theorem lt_size_of_takesHoisted (h : tree.takesHoisted i) : i < tree.size := by
  cases hs : tree.scope? i with
  | none => simp [takesHoisted, kind?, hs] at h
  | some s => exact lt_size_of_scope? hs

theorem takesHoisted_of_frame (hframe : tree.frame <+: tree'.frame) (h : tree.takesHoisted i) :
    tree'.takesHoisted i := by
  have hi := lt_size_of_takesHoisted h
  have hkind : tree'.kind? i = tree.kind? i := by
    have hget : tree'.frame[i]? = tree.frame[i]? := by
      obtain ⟨rest, hrest⟩ := hframe
      rw [← hrest, List.getElem?_append_left (by rw [length_frame]; exact hi)]
    rw [frame_getElem?, frame_getElem?] at hget
    have hsnd := congrArg (Option.map Prod.snd) hget
    rwa [Option.map_map, Option.map_map] at hsnd
  rw [takesHoisted, hkind]
  exact h

theorem takesHoisted_of_addScope {parent scope : ScopeId}
    (h : tree.addScope parent .function = .ok (scope, tree')) : tree'.takesHoisted scope := by
  unfold addScope at h
  split at h
  · cases h
  · cases h
    simp [takesHoisted, kind?, scope?]

/-! ## Bindings on a scope -/

/-- What the host environment provides is bound on the global scope, and neither declared by a
statement nor callable. -/
theorem of_local?_ofAmbient {ambient : List String} {name : String} {x : Binding}
    (h : (ofAmbient ambient).local? i name = some x) :
    i = globalId ∧ x.declaration = none ∧ x.callable = none := by
  obtain ⟨s, hs, hx⟩ := Option.bind_eq_some_iff.1 h
  have hlt : i < 1 := lt_size_of_scope? hs
  obtain rfl : i = 0 := Nat.lt_one_iff.1 hlt
  cases hs
  refine ⟨rfl, ?_⟩
  rcases Binding.mem_insertAll (Binding.mem_of_find? hx) with hmem | hmem
  · cases hmem
  · obtain ⟨provided, -, heq⟩ := List.mem_map.1 hmem
    obtain ⟨-, rfl⟩ := Prod.mk.inj heq
    unfold ambientBinding
    split <;> exact ⟨rfl, rfl⟩

/-- A new scope binds nothing. -/
theorem local?_of_addScope {parent scope : ScopeId} {kind : ScopeKind}
    (h : tree.addScope parent kind = .ok (scope, tree')) (i : ScopeId) (name : String) :
    tree'.local? i name = tree.local? i name := by
  unfold addScope at h
  split at h
  · cases h
  · cases h
    unfold local? scope?
    rw [Array.getElem?_push]
    split
    · next hi =>
      rw [hi, Array.getElem?_eq_none (Nat.le_refl _)]
      rfl
    · rfl

/-- A declaration lands where it should. -/
theorem landing_of_declare {binding : Binding} {hoist : Hoist}
    (h : tree.declare i binding hoist = .ok (target, tree')) :
    tree.landing i hoist = .ok target := by
  unfold declare at h
  cases hland : tree.landing i hoist with
  | error e =>
    rw [hland] at h
    cases h
  | ok receiver =>
    rw [hland] at h
    simp only [bind, Except.bind] at h
    split at h
    · cases h
    · cases h
      rfl

theorem local?_setIfInBounds {s : Scope} {bindings : List (String × Binding)}
    (hs : tree.scope? i = some s) (j : ScopeId) (name : String) :
    ScopeTree.local? { scopes := tree.scopes.setIfInBounds i { s with bindings } } j name =
      if j = i then Binding.find? bindings name else tree.local? j name := by
  unfold local? scope?
  rw [Array.getElem?_setIfInBounds]
  by_cases h : j = i
  · subst h
    have hlt : j < tree.scopes.size := lt_size_of_scope? hs
    simp [hlt]
  · simp [h, Ne.symm h]

/-- **Declaring a binding touches its name on one scope.** -/
theorem local?_of_declare {binding : Binding} {hoist : Hoist}
    (h : tree.declare i binding hoist = .ok (target, tree')) (j : ScopeId) (name : String) :
    tree'.local? j name =
      if j = target ∧ name = binding.name then some binding else tree.local? j name := by
  obtain ⟨s, hs, rfl⟩ := of_declare h
  rw [local?_setIfInBounds hs, Binding.find?_insert]
  by_cases hj : j = target
  · subst hj
    simp [local?, hs]
  · simp [hj]

/-- **A change in place touches the first name of its chain**, on one scope. -/
theorem local?_updateChain (update : Binding → Binding) (i : ScopeId) (chain : List String)
    (j : ScopeId) (name : String) :
    (tree.updateChain i chain update).local? j name = tree.local? j name ∨
      chain.head? = some name ∧ ∃ rest, (tree.updateChain i chain update).local? j name =
        (tree.local? j name).map (Binding.updateAt update rest) := by
  cases chain with
  | nil => exact .inl rfl
  | cons head rest =>
    rw [updateChain]
    split
    · exact .inl rfl
    · next owner _ =>
      unfold updateLocal
      split
      · exact .inl rfl
      · next s hs =>
        rw [local?_setIfInBounds hs, Binding.find?_modify]
        by_cases hj : j = owner
        · subst hj
          by_cases hname : name = head
          · subst hname
            exact .inr ⟨rfl, rest, by simp [local?, hs]⟩
          · exact .inl (by simp [local?, hs, hname])
        · exact .inl (by simp [hj])

end ScopeTree

end DeadCode
