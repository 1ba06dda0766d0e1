import DeadCode.Proofs.Scope.Chains

/-! # Putting a member into a binding

A member that is put where a chain of names leads is found by the chains that go on from there with
the name of the member, from every scope that sees the same first name. What stands on the way there
has changed inside, and all else stands as it was. -/

namespace DeadCode

namespace Binding

variable {binding member : Binding} {segment : String} {rest : List String}

/-- A member that was set is found. -/
theorem descend?_withMember (h : segment ≠ selfSegment) :
    (binding.withMember member).descend? (segment :: rest) =
      if segment = member.name then member.descend? rest
      else binding.descend? (segment :: rest) := by
  rw [descend?_cons h, descend?_cons h, withMember, find?_insert]
  split <;> rfl

theorem members_withMember_ne_nil (binding member : Binding) :
    (binding.withMember member).members ≠ [] := by
  rw [withMember]
  cases binding.members with
  | nil => exact List.cons_ne_nil _ _
  | cons first others =>
    rw [insert]
    split <;> exact List.cons_ne_nil _ _

theorem members_updateAt_ne_nil {way : List String} (h : (binding.descend? way).isSome) :
    (updateAt (·.withMember member) way binding).members ≠ [] := by
  induction way with
  | nil => exact members_withMember_ne_nil binding member
  | cons segment rest ih =>
    rw [updateAt]
    by_cases hself : segment = selfSegment
    · subst hself
      rw [descend?_self_cons] at h
      rw [if_pos rfl]
      exact ih h
    · -- The first segment leads to a member, which stays in its place.
      rw [if_neg hself]
      rw [descend?_cons hself] at h
      obtain ⟨next, hnext⟩ := Option.isSome_iff_exists.1 (Option.isSome_of_isSome_bind h)
      have hmem := mem_of_find? hnext
      dsimp only
      cases hmembers : binding.members with
      | nil => simp [hmembers] at hmem
      | cons first others =>
        rw [modify]
        split <;> exact List.cons_ne_nil _ _

/-- A binding that has, one in the other, a member for each segment of a list, and no others. Only
the last of them is declared, by a given statement. -/
def nested (vertex : VertexId) (name : String) : List String → Binding
  | [] => declared name vertex
  | segment :: rest => (placeholder name).withMember (nested vertex segment rest)

@[simp] theorem name_nested (vertex : VertexId) (name : String) (segments : List String) :
    (nested vertex name segments).name = name := by
  cases segments <;> rfl

theorem descend?_nested_cons {vertex : VertexId} {name segment segment' : String}
    {rest rest' : List String} (h : segment' ≠ selfSegment) :
    (nested vertex name (segment :: rest)).descend? (segment' :: rest') =
      if segment' = segment then (nested vertex segment rest).descend? rest' else none := by
  rw [nested, descend?_withMember h, name_nested]
  split
  · rfl
  · rw [descend?_cons h]
    rfl

theorem exists_descend?_nested {segments : List String} (h : selfSegment ∉ segments)
    (vertex : VertexId) (name : String) :
    ∃ last, (nested vertex name segments).descend? segments = some last ∧
      last.declaration = some vertex ∧ last.members = [] := by
  induction segments generalizing name with
  | nil => exact ⟨declared name vertex, rfl, rfl, rfl⟩
  | cons segment rest ih =>
    obtain ⟨hself, hrest⟩ := List.ne_and_not_mem_of_not_mem_cons h
    rw [descend?_nested_cons hself.symm, if_pos rfl]
    exact ih hrest segment

theorem eq_of_descend?_nested {segments way : List String} (h : selfSegment ∉ way)
    {vertex : VertexId} {name : String} {last : Binding}
    (hlast : (nested vertex name segments).descend? way = some last)
    (hdeclared : last.declaration = some vertex) : way = segments := by
  -- On the way to the innermost member nothing is declared, and beside it nothing stands.
  induction segments generalizing way name with
  | nil =>
    cases way with
    | nil => rfl
    | cons segment rest =>
      rw [descend?_cons (List.ne_and_not_mem_of_not_mem_cons h).1.symm] at hlast
      cases hlast
  | cons segment rest ih =>
    cases way with
    | nil =>
      cases hlast
      cases hdeclared
    | cons segment' rest' =>
      obtain ⟨hself, hrest⟩ := List.ne_and_not_mem_of_not_mem_cons h
      rw [descend?_nested_cons hself.symm] at hlast
      split at hlast
      · next heq => rw [heq, ih hrest hlast]
      · cases hlast

end Binding

namespace ScopeTree

variable {tree : ScopeTree} {i j : ScopeId} {chain chain' more : List String} {a a' : Address}
  {q : Binding}

/-! ## What the chains lead to -/

/-- What a chain leads to after a member is put somewhere is what stands where it points. -/
theorem lookupChain?_withMember (ha : tree.address? i chain = some a)
    (ha' : tree.address? j chain' = some a') :
    (tree.updateChain i chain (·.withMember q)).lookupChain? j chain' =
      (tree.updateAddress a (·.withMember q)).at? a' := by
  rw [updateChain_of_address? ha]
  exact lookupChain?_of_address? ((address?_updateAddress ..).trans ha')

theorem lookupChain?_into (ha : tree.address? i chain = some a)
    (hfound : (tree.lookupChain? i chain).isSome) (hq : q.name ≠ Binding.selfSegment)
    (ha' : tree.address? j chain' = some (a.extend (q.name :: more))) :
    (tree.updateChain i chain (·.withMember q)).lookupChain? j chain' = q.descend? more := by
  rw [lookupChain?_of_address? ha] at hfound
  obtain ⟨x, hx⟩ := Option.isSome_iff_exists.1 hfound
  rw [lookupChain?_withMember ha ha', at?_updateAddress_extend, hx, Option.bind_some,
    Binding.descend?_withMember hq, if_pos rfl]

theorem lookupChain?_above (ha : tree.address? i chain = some (a.extend more))
    (ha' : tree.address? j chain' = some a) :
    (tree.updateChain i chain (·.withMember q)).lookupChain? j chain' =
      (tree.lookupChain? j chain').map (Binding.updateAt (·.withMember q) more) := by
  rw [lookupChain?_withMember ha ha', at?_updateAddress_of_extend, lookupChain?_of_address? ha']

/-- What is aside is not changed. -/
theorem lookupChain?_aside (ha : tree.address? i chain = some a)
    (hinto : ∀ more, tree.address? j chain' ≠ some (a.extend (q.name :: more)))
    (habove : ∀ a' more, tree.address? j chain' = some a' → a ≠ a'.extend more) :
    (tree.updateChain i chain (·.withMember q)).lookupChain? j chain' =
      tree.lookupChain? j chain' := by
  cases ha' : tree.address? j chain' with
  | none =>
    rw [updateChain_of_address? ha, lookupChain?_eq_at?, lookupChain?_eq_at?,
      address?_updateAddress, ha']
    rfl
  | some a' =>
    have hplain := selfSegment_notMem_of_address? ha
    have hplain' := selfSegment_notMem_of_address? ha'
    rw [lookupChain?_withMember ha ha', lookupChain?_of_address? ha']
    by_cases hover : ∃ more, a' = a.extend more
    · -- The chain goes on from the changed binding with another member.
      obtain ⟨more, rfl⟩ := hover
      cases more with
      | nil =>
        have hself : a = (a.extend []).extend [] := by simp [Address.extend]
        exact absurd hself (habove _ _ ha')
      | cons segment rest =>
        have hself : segment ≠ Binding.selfSegment := by
          rintro rfl
          exact hplain' (List.mem_append_right _ List.mem_cons_self)
        have hne : segment ≠ q.name := by
          rintro rfl
          exact hinto rest ha'
        rw [at?_updateAddress_extend, at?_extend]
        simp only [Binding.descend?_withMember hself, if_neg hne]
    · exact at?_updateAddress_of_aside hplain hplain' (fun more hmore => hover ⟨more, hmore⟩)
        fun more hmore => habove a' more ha' hmore

/-! ## Leading into a member -/

/-- **Leading into a member that is put somewhere**: whatever member of a name is put where one chain
leads, another chain leads into this very member, with `more` segments to go in it. (It is not
enough to look at one member, as an equal binding may stand elsewhere.) -/
def LeadsIntoMember (tree : ScopeTree) (i : ScopeId) (chain : List String) (name : String)
    (j : ScopeId) (chain' more : List String) : Prop :=
  ∀ q : Binding, q.name = name →
    (tree.updateChain i chain (·.withMember q)).lookupChain? j chain' = q.descend? more

/-- **Only the chains that go on with the name of the member lead into it.** -/
theorem LeadsIntoMember.address?_eq {name : String} (ha : tree.address? i chain = some a)
    (hfound : (tree.lookupChain? i chain).isSome) (hname : name ≠ Binding.selfSegment)
    (hplain : Binding.selfSegment ∉ more) (h : tree.LeadsIntoMember i chain name j chain' more) :
    tree.address? j chain' = some (a.extend (name :: more)) := by
  -- Two members that differ only in what stands at the end of the segments.
  obtain ⟨last, hlast, hdeclared, hmembers⟩ := Binding.exists_descend?_nested hplain 0 name
  obtain ⟨last', hlast', hdeclared', -⟩ := Binding.exists_descend?_nested hplain 1 name
  have hled := h (.nested 0 name more) (Binding.name_nested ..)
  have hled' := h (.nested 1 name more) (Binding.name_nested ..)
  by_cases hinto : ∃ rest, tree.address? j chain' = some (a.extend (name :: rest))
  · obtain ⟨rest, ha'⟩ := hinto
    have hrest : Binding.selfSegment ∉ rest := fun hmem =>
      selfSegment_notMem_of_address? ha' (List.mem_append_right _ (List.mem_cons_of_mem _ hmem))
    rw [lookupChain?_into ha hfound (by simpa using hname) (by simpa using ha'), hlast] at hled
    rw [ha', Binding.eq_of_descend?_nested hrest hled hdeclared]
  · by_cases habove : ∃ a' rest, tree.address? j chain' = some a' ∧ a = a'.extend rest
    · -- What stands on the way there has the member inside, so it is not in the member.
      obtain ⟨a', rest, ha', rfl⟩ := habove
      rw [lookupChain?_above ha ha', hlast, lookupChain?_of_address? ha'] at hled
      obtain ⟨x, hx, rfl⟩ := Option.map_eq_some_iff.1 hled
      rw [lookupChain?_of_address? ha, at?_extend, hx, Option.bind_some] at hfound
      exact absurd hmembers (Binding.members_updateAt_ne_nil hfound)
    · -- What stands elsewhere is the same for both members.
      have haside (q : Binding) (hq : q.name = name) :
          (tree.updateChain i chain (·.withMember q)).lookupChain? j chain' =
            tree.lookupChain? j chain' :=
        lookupChain?_aside ha (fun rest ha' => hinto ⟨rest, hq ▸ ha'⟩)
          fun a' rest ha' heq => habove ⟨a', rest, ha', heq⟩
      rw [haside _ (Binding.name_nested ..), hlast] at hled
      rw [haside _ (Binding.name_nested ..), hlast', hled] at hled'
      obtain rfl := Option.some.inj hled'
      rw [hdeclared] at hdeclared'
      cases hdeclared'

/-! ## The whole effect -/

/-- The names that a scope binds. -/
def names (tree : ScopeTree) (i : ScopeId) : List String :=
  ((tree.scope? i).map (·.bindings.map (·.1))).getD []

theorem kind?_eq_frame (tree : ScopeTree) (i : ScopeId) :
    tree.kind? i = (tree.frame[i]?).map Prod.snd := by
  rw [frame_getElem?, kind?, Option.map_map]
  rfl

theorem names_updateLocal (tree : ScopeTree) (i : ScopeId) (name : String)
    (update : Binding → Binding) (j : ScopeId) :
    (tree.updateLocal i name update).names j = tree.names j := by
  unfold updateLocal
  split
  · rfl
  · next s hs =>
    obtain ⟨hlt, rfl⟩ := Array.getElem?_eq_some_iff.1 hs
    by_cases hj : i = j
    · subst hj
      simp [names, scope?, hlt, Binding.names_modify]
    · simp [names, scope?, hj]

theorem names_updateChain (tree : ScopeTree) (i : ScopeId) (chain : List String)
    (update : Binding → Binding) (j : ScopeId) :
    (tree.updateChain i chain update).names j = tree.names j := by
  unfold updateChain
  split
  · rfl
  · split
    · rfl
    · exact names_updateLocal ..

/-- `tree'` is `tree` with the member `q` put where a chain leads, and nothing else. -/
structure MemberPut (tree tree' : ScopeTree) (i : ScopeId) (chain : List String) (q : Binding) :
    Prop where
  /-- The chains that go on with the name of the member lead on inside the member. -/
  into : ∀ a, tree.address? i chain = some a → (tree.lookupChain? i chain).isSome →
    ∀ j chain' more, tree.address? j chain' = some (a.extend (q.name :: more)) →
      tree'.lookupChain? j chain' = q.descend? more
  /-- No other chains lead into the member. -/
  exactly : ∀ a, tree.address? i chain = some a → (tree.lookupChain? i chain).isSome →
    ∀ j chain' more, Binding.selfSegment ∉ more →
      (tree.LeadsIntoMember i chain q.name j chain' more ↔
        tree.address? j chain' = some (a.extend (q.name :: more)))
  /-- The chains to what stands on the way lead to the same binding, changed inside. -/
  above : ∀ a more, tree.address? i chain = some (a.extend more) →
    ∀ j chain', tree.address? j chain' = some a →
      tree'.lookupChain? j chain' =
        (tree.lookupChain? j chain').map (Binding.updateAt (·.withMember q) more)
  /-- All other chains lead to the same binding as before. -/
  aside : ∀ a, tree.address? i chain = some a → ∀ j chain',
    (∀ more, tree.address? j chain' ≠ some (a.extend (q.name :: more))) →
    (∀ a' more, tree.address? j chain' = some a' → a ≠ a'.extend more) →
      tree'.lookupChain? j chain' = tree.lookupChain? j chain'
  /-- A chain that leads nowhere changes nothing. -/
  missing : tree.lookupChain? i chain = none → tree' = tree
  /-- There are as many scopes as before. -/
  size : tree'.size = tree.size
  /-- Every scope has the parent that it had. -/
  parent : ∀ j, tree'.parent? j = tree.parent? j
  /-- Every scope is of the kind that it was. -/
  kind : ∀ j, tree'.kind? j = tree.kind? j
  /-- Every scope binds the names that it bound. -/
  names : ∀ j, tree'.names j = tree.names j

/-- **A member is put where a chain leads, and nothing else changes.** -/
theorem memberPut_updateChain (tree : ScopeTree) (i : ScopeId) (chain : List String) {q : Binding}
    (hq : q.name ≠ Binding.selfSegment) :
    tree.MemberPut (tree.updateChain i chain (·.withMember q)) i chain q where
  into := fun _ ha hfound _ _ _ ha' => lookupChain?_into ha hfound hq ha'
  exactly := by
    intro a ha hfound j chain' more hplain
    refine ⟨fun h => h.address?_eq ha hfound hq hplain, fun ha' q' hname => ?_⟩
    rw [← hname] at hq ha'
    exact lookupChain?_into ha hfound hq ha'
  above := fun _ _ ha _ _ ha' => lookupChain?_above ha ha'
  aside := fun _ ha _ _ hinto habove => lookupChain?_aside ha hinto habove
  missing := updateChain_eq_self
  size := size_of_frame_eq (frame_updateChain ..)
  parent := fun j => by rw [parent?_eq_frame, parent?_eq_frame, frame_updateChain]
  kind := fun j => by rw [kind?_eq_frame, kind?_eq_frame, frame_updateChain]
  names := names_updateChain tree i chain _

/-- The scopes of `const a = { b: {} }; function f() {} { let a; }`: a function, and a block that has
an `a` of its own. -/
def functionAndBlock : ScopeTree :=
  { scopes := #[
      { parent := none, kind := .global
        bindings := [("a", (Binding.declared "a" 0).withMember (.declared "b" 0))] },
      { parent := some 0, kind := .function },
      { parent := some 0, kind := .block, bindings := [("a", .declared "a" 3)] }] }

/-- The member that `a.b.x = 1` in the function puts into `a.b` is found from outside, and through
the prototype; the `a` of the block has no such member. -/
theorem memberPut_functionAndBlock :
    let tree := functionAndBlock.updateChain 1 ["a", "b"] (·.withMember (.declared "x" 2))
    functionAndBlock.MemberPut tree 1 ["a", "b"] (.declared "x" 2) ∧
      tree.lookupChain? 0 ["a", "prototype", "b", "x"] = some (.declared "x" 2) ∧
      tree.lookupChain? 2 ["a", "b", "x"] = none := by
  intro tree
  have hput : functionAndBlock.MemberPut tree 1 ["a", "b"] (.declared "x" 2) :=
    memberPut_updateChain functionAndBlock 1 ["a", "b"] (by decide)
  obtain ⟨ha, hfound, hinto, haside, hnone⟩ :
      functionAndBlock.address? 1 ["a", "b"] = some ⟨0, "a", ["b"]⟩ ∧
      (functionAndBlock.lookupChain? 1 ["a", "b"]).isSome ∧
      functionAndBlock.address? 0 ["a", "prototype", "b", "x"] = some ⟨0, "a", ["b", "x"]⟩ ∧
      functionAndBlock.address? 2 ["a", "b", "x"] = some ⟨2, "a", ["b", "x"]⟩ ∧
      (functionAndBlock.lookupChain? 2 ["a", "b", "x"]).isNone := by decide +kernel
  refine ⟨hput, hput.into _ ha hfound 0 _ [] hinto, ?_⟩
  rw [hput.aside _ ha 2 _ ?_ ?_, Option.isNone_iff_eq_none.1 hnone]
  · intro more h
    rw [haside] at h
    cases h
  · intro a' more h heq
    rw [haside] at h
    cases h
    cases heq

end ScopeTree

end DeadCode
