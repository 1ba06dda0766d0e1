import DeadCode.Scope.Tree
import Mathlib.Data.List.Nodup

/-! # Trees of scopes that keep their form

What name resolution does to a tree of scopes is of three kinds: it adds a scope, it declares a
binding on a scope, and it changes a binding in place. Only the first changes the parents and kinds
of the scopes, the `ScopeTree.frame`. -/

namespace DeadCode

/-! ## Sound bindings -/

/-- A binding whose declaration is one of the first `vertices` statements and whose callable is one
of `keys`, and so for all its members, which are stored under their own names. -/
inductive Binding.Sound (vertices : Nat) (keys : Key → Prop) : Binding → Prop where
  | intro {binding : Binding}
      (declaration : ∀ v, binding.declaration = some v → v < vertices)
      (callable : ∀ key, binding.callable = some key → keys key)
      (distinct : (binding.members.map (·.1)).Nodup)
      (named : ∀ m ∈ binding.members, m.2.name = m.1)
      (members : ∀ m ∈ binding.members, Sound vertices keys m.2) : Sound vertices keys binding

namespace Binding

/-- A table of sound bindings, each stored under its own name, no two under the same. -/
structure Table (vertices : Nat) (keys : Key → Prop) (table : List (String × Binding)) : Prop where
  distinct : (table.map (·.1)).Nodup
  named : ∀ entry ∈ table, entry.2.name = entry.1
  sound : ∀ entry ∈ table, Sound vertices keys entry.2

/-- The tables inside a table: itself, and the members of any binding in one of them. -/
inductive Inside (outer : List (String × Binding)) : List (String × Binding) → Prop where
  | here : Inside outer outer
  | deeper {table : List (String × Binding)} {entry : String × Binding} (h : Inside outer table)
      (hentry : entry ∈ table) : Inside outer entry.2.members

variable {vertices : Nat} {keys : Key → Prop} {bindings : List (String × Binding)}
  {binding member : Binding} {entry : String × Binding} {name : String} {update : Binding → Binding}

/-- A sound binding is declared by a statement that exists. -/
theorem Sound.declaration_lt (h : Sound vertices keys binding) {v : VertexId}
    (hv : binding.declaration = some v) : v < vertices := by
  obtain ⟨declaration, -, -, -, -⟩ := h
  exact declaration v hv

/-- The callable of a sound binding is known. -/
theorem Sound.known (h : Sound vertices keys binding) {key : Key}
    (hk : binding.callable = some key) : keys key := by
  obtain ⟨-, callable, -, -, -⟩ := h
  exact callable key hk

/-- The members of a sound binding are a sound table. -/
theorem Sound.table (h : Sound vertices keys binding) : Table vertices keys binding.members := by
  obtain ⟨-, -, distinct, named, members⟩ := h
  exact ⟨distinct, named, members⟩

theorem Sound.with_members (h : Sound vertices keys binding) {members : List (String × Binding)}
    (hm : Table vertices keys members) : Sound vertices keys { binding with members } :=
  .intro (fun _ hv => h.declaration_lt hv) (fun _ hk => h.known hk) hm.distinct hm.named hm.sound

theorem Sound.mono {vertices' : Nat} (h : Sound vertices keys binding)
    (hle : vertices ≤ vertices') : Sound vertices' keys binding := by
  induction h with
  | intro declaration callable distinct named _ ih =>
    exact .intro (fun v hv => Nat.lt_of_lt_of_le (declaration v hv) hle) callable distinct named ih

theorem Table.mono {vertices' : Nat} (h : Table vertices keys bindings)
    (hle : vertices ≤ vertices') : Table vertices' keys bindings :=
  ⟨h.distinct, h.named, fun entry he => (h.sound entry he).mono hle⟩

theorem table_nil : Table vertices keys [] :=
  ⟨List.nodup_nil, by simp, by simp⟩

theorem sound_declared {v : VertexId} (hv : v < vertices) :
    Sound vertices keys (declared name v) := by
  refine .intro ?_ (by simp [declared]) List.nodup_nil (by simp [declared]) (by simp [declared])
  rintro _ ⟨⟩
  exact hv

theorem sound_placeholder (name : String) : Sound vertices keys (placeholder name) :=
  .intro (by simp [placeholder]) (by simp [placeholder]) List.nodup_nil (by simp [placeholder])
    (by simp [placeholder])

/-- A table within a sound table is sound. -/
theorem Table.inside {outer : List (String × Binding)} (h : Table vertices keys outer)
    (ht : Inside outer bindings) : Table vertices keys bindings := by
  induction ht with
  | here => exact h
  | deeper _ hentry ih => exact (ih.sound _ hentry).table

/-! ### What tables store -/

/-- What is found in a table is an entry of it. -/
theorem mem_of_find? (h : find? bindings name = some binding) : (name, binding) ∈ bindings := by
  induction bindings with
  | nil => cases h
  | cons first rest ih =>
    rw [find?] at h
    split at h
    · next heq =>
      obtain rfl := Option.some.inj h
      exact heq ▸ List.mem_cons_self
    · exact List.mem_cons_of_mem _ (ih h)

/-- Inserting adds one entry at most. -/
theorem mem_insert (h : entry ∈ insert bindings name binding) :
    entry = (name, binding) ∨ entry ∈ bindings := by
  induction bindings with
  | nil => exact .inl (List.mem_singleton.1 h)
  | cons first rest ih =>
    rw [insert] at h
    split at h
    · exact (List.mem_cons.1 h).imp_right (List.mem_cons_of_mem _)
    · rcases List.mem_cons.1 h with rfl | h
      · exact .inr List.mem_cons_self
      · exact (ih h).imp_right (List.mem_cons_of_mem _)

/-- Inserting entries adds no other ones. -/
theorem mem_insertAll {more : List (String × Binding)} (h : entry ∈ insertAll bindings more) :
    entry ∈ bindings ∨ entry ∈ more := by
  induction more generalizing bindings with
  | nil => exact .inl h
  | cons first rest ih =>
    rcases ih h with h | h
    · rcases mem_insert h with rfl | h
      · exact .inr List.mem_cons_self
      · exact .inl h
    · exact .inr (List.mem_cons_of_mem _ h)

/-- Modifying changes the entry of one name only. -/
theorem mem_modify (h : entry ∈ modify bindings name update) :
    entry ∈ bindings ∨ ∃ b, (name, b) ∈ bindings ∧ entry = (name, update b) := by
  induction bindings with
  | nil => cases h
  | cons first rest ih =>
    rw [modify] at h
    split at h
    · next heq =>
      subst heq
      rcases List.mem_cons.1 h with rfl | h
      · exact .inr ⟨_, List.mem_cons_self, rfl⟩
      · exact .inl (List.mem_cons_of_mem _ h)
    · rcases List.mem_cons.1 h with rfl | h
      · exact .inl List.mem_cons_self
      · rcases ih h with h | ⟨b, hb, rfl⟩
        · exact .inl (List.mem_cons_of_mem _ h)
        · exact .inr ⟨b, List.mem_cons_of_mem _ hb, rfl⟩

/-- Inserting keeps the names and their order. -/
theorem names_insert (bindings : List (String × Binding)) (name : String) (binding : Binding) :
    (insert bindings name binding).map (·.1) =
      if name ∈ bindings.map (·.1) then bindings.map (·.1) else bindings.map (·.1) ++ [name] := by
  induction bindings with
  | nil => simp [insert]
  | cons first rest ih =>
    rw [insert]
    by_cases h : first.1 = name
    · simp [h]
    · rw [if_neg h, List.map_cons, ih]
      simp only [List.map_cons, List.mem_cons, Ne.symm h, false_or]
      split <;> simp

/-- Modifying keeps the names. -/
theorem names_modify (bindings : List (String × Binding)) (name : String)
    (update : Binding → Binding) : (modify bindings name update).map (·.1) = bindings.map (·.1) := by
  induction bindings with
  | nil => rfl
  | cons first rest ih =>
    rw [modify]
    split
    · rfl
    · rw [List.map_cons, List.map_cons, ih]

/-- **In a table every binding is found under its own name.** -/
theorem Table.find?_eq_self (h : Table vertices keys bindings) (hentry : entry ∈ bindings) :
    find? bindings entry.2.name = some entry.2 := by
  rw [h.named entry hentry]
  have hdistinct := h.distinct
  clear h
  induction bindings with
  | nil => cases hentry
  | cons first rest ih =>
    obtain ⟨hnew, hdistinct⟩ := List.nodup_cons.1 hdistinct
    rw [find?]
    rcases List.mem_cons.1 hentry with rfl | hentry
    · rw [if_pos rfl]
    · have hne : first.1 ≠ entry.1 := by
        intro heq
        exact hnew (List.mem_map.2 ⟨entry, hentry, heq.symm⟩)
      rw [if_neg hne]
      exact ih hentry hdistinct

/-- A table with a sound entry more is sound. -/
theorem Table.insert (h : Table vertices keys bindings) (hname : binding.name = name)
    (hb : Sound vertices keys binding) : Table vertices keys (insert bindings name binding) := by
  refine ⟨?_, fun entry he => ?_, fun entry he => ?_⟩
  · rw [names_insert]
    split
    · exact h.distinct
    · next hnew =>
      rw [← List.concat_eq_append]
      exact List.Nodup.concat hnew h.distinct
  · rcases mem_insert he with rfl | he
    · exact hname
    · exact h.named entry he
  · rcases mem_insert he with rfl | he
    · exact hb
    · exact h.sound entry he

theorem Table.insertAll {more : List (String × Binding)} (h : Table vertices keys bindings)
    (hnamed : ∀ entry ∈ more, entry.2.name = entry.1)
    (hsound : ∀ entry ∈ more, Sound vertices keys entry.2) :
    Table vertices keys (insertAll bindings more) := by
  induction more generalizing bindings with
  | nil => exact h
  | cons first rest ih =>
    obtain ⟨hname, hnamed⟩ := List.forall_mem_cons.1 hnamed
    obtain ⟨hfirst, hsound⟩ := List.forall_mem_cons.1 hsound
    exact ih (h.insert hname hfirst) hnamed hsound

/-- A table stays sound if an entry is updated soundly. -/
theorem Table.modify (h : Table vertices keys bindings) (name : String)
    (hu : ∀ b, Sound vertices keys b → Sound vertices keys (update b) ∧ (update b).name = b.name) :
    Table vertices keys (modify bindings name update) := by
  refine ⟨by rw [names_modify]; exact h.distinct, fun entry he => ?_, fun entry he => ?_⟩
  · rcases mem_modify he with he | ⟨b, hb, rfl⟩
    · exact h.named entry he
    · exact ((hu b (h.sound _ hb)).2).trans (h.named _ hb)
  · rcases mem_modify he with he | ⟨b, hb, rfl⟩
    · exact h.sound entry he
    · exact (hu b (h.sound _ hb)).1

/-! ### Members -/

theorem Sound.withMember (h : Sound vertices keys binding) (hm : Sound vertices keys member) :
    Sound vertices keys (binding.withMember member) :=
  h.with_members (h.table.insert rfl hm)

theorem Sound.member? {segment : String} (h : Sound vertices keys binding)
    (hm : binding.member? segment = some member) : Sound vertices keys member := by
  unfold Binding.member? at hm
  split at hm
  · cases hm
    exact h
  · exact h.table.sound _ (mem_of_find? hm)

/-- Chains of members lead to sound bindings. -/
theorem Sound.descend? {segments : List String} (h : Sound vertices keys binding)
    (hm : binding.descend? segments = some member) : Sound vertices keys member := by
  induction segments generalizing binding with
  | nil =>
    cases hm
    exact h
  | cons segment rest ih =>
    obtain ⟨next, hnext, hm⟩ := Option.bind_eq_some_iff.1 hm
    exact ih (h.member? hnext) hm

theorem Sound.descendFar (h : Sound vertices keys binding) (segments : List String) :
    Sound vertices keys (binding.descendFar segments).1 := by
  induction segments generalizing binding with
  | nil => exact h
  | cons segment rest ih =>
    rw [Binding.descendFar]
    split
    · next hnext => exact ih (h.member? hnext)
    · exact h

/-- A sound update of a member far below is sound. -/
theorem Sound.updateAt
    (hu : ∀ b, Sound vertices keys b → Sound vertices keys (update b) ∧ (update b).name = b.name)
    (segments : List String) (h : Sound vertices keys binding) :
    Sound vertices keys (updateAt update segments binding) ∧
      (updateAt update segments binding).name = binding.name := by
  induction segments generalizing binding with
  | nil => exact hu _ h
  | cons segment rest ih =>
    rw [Binding.updateAt]
    split
    · exact ih h
    · exact ⟨h.with_members (h.table.modify segment fun b hb => ih hb), rfl⟩

end Binding

/-! ## The frame of a tree -/

namespace ScopeTree

/-- The parents and kinds of the scopes of a tree. -/
def frame (tree : ScopeTree) : List (Option ScopeId × ScopeKind) :=
  tree.scopes.toList.map fun s => (s.parent, s.kind)

/-- The frame has an entry for each scope. -/
@[simp] theorem length_frame (tree : ScopeTree) : tree.frame.length = tree.size := by
  simp [frame, size]

variable {tree tree' : ScopeTree} {i parent target : ScopeId} {kind : ScopeKind} {binding : Binding}
  {hoist : Hoist}

theorem size_of_frame_eq (h : tree'.frame = tree.frame) : tree'.size = tree.size := by
  rw [← length_frame, h, length_frame]

theorem frame_getElem? (tree : ScopeTree) (i : ScopeId) :
    tree.frame[i]? = (tree.scope? i).map fun s => (s.parent, s.kind) := by
  simp [frame, scope?]

/-- Every scope below the size exists. -/
theorem exists_scope? (h : i < tree.size) : ∃ s, tree.scope? i = some s :=
  ⟨tree.scopes[i], Array.getElem?_eq_getElem h⟩

theorem lt_size_of_scope? {s : Scope} (h : tree.scope? i = some s) : i < tree.size :=
  (Array.getElem?_eq_some_iff.1 h).1

/-- A tree whose first scope is the global one and whose other scopes have older parents. -/
structure WellFormed (tree : ScopeTree) : Prop where
  /-- The first scope is the global one. -/
  root : tree.frame[0]? = some (none, ScopeKind.global)
  /-- Every other scope has an older parent. -/
  parent : ∀ i, 0 < i → i < tree.size →
    ∃ p < i, ∃ kind : ScopeKind, tree.frame[i]? = some (some p, kind)

/-- The tree with which a file begins is well-formed. -/
theorem wellFormed_ofAmbient (ambient : List String) : (ofAmbient ambient).WellFormed where
  root := rfl
  parent := by
    intro i hpos hlt
    simp only [size, ofAmbient, List.size_toArray, List.length_singleton] at hlt
    omega

theorem WellFormed.size_pos (h : tree.WellFormed) : 0 < tree.size := by
  rw [← length_frame]
  exact (List.getElem?_eq_some_iff.1 h.root).1

/-- Being well-formed is a matter of the frame. -/
theorem WellFormed.of_frame_eq (h : tree.WellFormed)
    (hf : tree'.frame = tree.frame) : tree'.WellFormed where
  root := hf ▸ h.root
  parent := by
    rw [← length_frame, hf, length_frame]
    exact h.parent

/-- A new scope below an old one keeps a tree well-formed. -/
theorem WellFormed.of_frame_append (h : tree.WellFormed) (hp : parent < tree.size)
    (hf : tree'.frame = tree.frame ++ [(some parent, kind)]) : tree'.WellFormed where
  root := by
    rw [hf, List.getElem?_append_left (by rw [length_frame]; exact h.size_pos)]
    exact h.root
  parent := by
    intro i hpos hi
    rw [← length_frame, hf, List.length_append, length_frame, List.length_singleton] at hi
    by_cases hlt : i < tree.size
    · rw [hf, List.getElem?_append_left (by rw [length_frame]; exact hlt)]
      exact h.parent i hpos hlt
    · -- The new scope is the last one, younger than its parent.
      obtain rfl : i = tree.size := by omega
      refine ⟨parent, hp, kind, ?_⟩
      rw [hf, ← length_frame, List.getElem?_concat_length]

/-! ## Chains -/

/-- The chain of a scope is that of its parent with the scope in front; that of the global scope is
the scope alone. -/
theorem WellFormed.chain_eq (h : tree.WellFormed) (hi : i < tree.size) :
    i = globalId ∧ tree.chain i = [globalId] ∨
      ∃ p < i, tree.parent? i = some p ∧ tree.chain i = i :: tree.chain p := by
  obtain ⟨⟨parent, kind, bindings⟩, hs⟩ := exists_scope? hi
  have hf := tree.frame_getElem? i
  rw [hs, Option.map_some] at hf
  rcases Nat.eq_zero_or_pos i with rfl | hpos
  · obtain rfl : parent = none := by simpa [hf] using congrArg (Option.map Prod.fst) h.root
    refine .inl ⟨rfl, ?_⟩
    rw [chain, hs]
    rfl
  · obtain ⟨p, hlt, kind', hp⟩ := h.parent i hpos hi
    obtain rfl : parent = some p := by simpa [hf] using congrArg (Option.map Prod.fst) hp
    refine .inr ⟨p, hlt, by rw [parent?, hs]; rfl, ?_⟩
    rw [chain, hs]
    exact congrArg _ (if_pos hlt)

/-- The scopes around a scope are older. -/
theorem WellFormed.le_of_mem_chain (h : tree.WellFormed) {j : ScopeId} (hi : i < tree.size)
    (hj : j ∈ tree.chain i) : j ≤ i := by
  induction i using Nat.strongRecOn with
  | _ i ih =>
    rcases h.chain_eq hi with ⟨rfl, hc⟩ | ⟨p, hlt, -, hc⟩
    · rw [hc] at hj
      exact Nat.le_of_eq (List.mem_singleton.1 hj)
    · rw [hc] at hj
      rcases List.mem_cons.1 hj with rfl | hj
      · exact Nat.le_refl _
      · exact Nat.le_trans (ih p hlt (Nat.lt_trans hlt hi) hj) (Nat.le_of_lt hlt)

/-- The global scope is around every scope. -/
theorem WellFormed.globalId_mem_chain (h : tree.WellFormed) (hi : i < tree.size) :
    globalId ∈ tree.chain i := by
  induction i using Nat.strongRecOn with
  | _ i ih =>
    rcases h.chain_eq hi with ⟨-, hc⟩ | ⟨p, hlt, -, hc⟩
    · rw [hc]
      exact List.mem_singleton.2 rfl
    · rw [hc]
      exact List.mem_cons_of_mem _ (ih p hlt (Nat.lt_trans hlt hi))

theorem WellFormed.takesHoisted_globalId (h : tree.WellFormed) : tree.takesHoisted globalId := by
  have hkind : tree.kind? globalId = some .global := by
    obtain ⟨s, hs⟩ := exists_scope? h.size_pos
    have hroot := h.root
    rw [frame_getElem?, hs, Option.map_some] at hroot
    rw [kind?, globalId, hs, Option.map_some]
    exact congrArg (Option.map Prod.snd) hroot
  simp [takesHoisted, hkind]

/-- **A hoisted declaration always finds a scope to land on.** -/
theorem WellFormed.exists_hoistTarget (h : tree.WellFormed) (hi : i < tree.size) :
    ∃ target < tree.size, tree.hoistTarget i = .ok target := by
  obtain ⟨s, hs⟩ := exists_scope? hi
  have hsome : ((tree.chain i).find? tree.takesHoisted).isSome :=
    List.find?_isSome.2 ⟨globalId, h.globalId_mem_chain hi, h.takesHoisted_globalId⟩
  obtain ⟨target, htarget⟩ := Option.isSome_iff_exists.1 hsome
  refine ⟨target, ?_, by rw [hoistTarget, hs]; simp only [htarget]⟩
  exact Nat.lt_of_le_of_lt (h.le_of_mem_chain hi (List.mem_of_find?_eq_some htarget)) hi

/-- Every declaration lands on some scope. -/
theorem WellFormed.exists_landing (h : tree.WellFormed) (hi : i < tree.size) (hoist : Hoist) :
    ∃ target < tree.size, tree.landing i hoist = .ok target := by
  cases hoist with
  | hoisted => exact h.exists_hoistTarget hi
  | lexical => exact ⟨i, hi, rfl⟩

/-! ## What the operations keep -/

/-- The bindings of each scope of a tree form a table. -/
def Sound (vertices : Nat) (keys : Key → Prop) (tree : ScopeTree) : Prop :=
  ∀ s ∈ tree.scopes, Binding.Table vertices keys s.bindings

variable {vertices : Nat} {keys : Key → Prop}

theorem Sound.mono {vertices' : Nat} (h : tree.Sound vertices keys) (hle : vertices ≤ vertices') :
    tree.Sound vertices' keys :=
  fun s hs => (h s hs).mono hle

theorem sound_ofAmbient (ambient : List String) : (ofAmbient ambient).Sound vertices keys := by
  intro s hs
  obtain rfl := List.mem_singleton.1 (List.mem_toArray.1 hs)
  refine Binding.table_nil.insertAll (fun entry he => ?_) fun entry he => ?_
  all_goals
    obtain ⟨name, -, rfl⟩ := List.mem_map.1 he
    unfold ambientBinding
    split
  · rfl
  · rfl
  · exact (Binding.sound_placeholder _).withMember (Binding.sound_placeholder _)
  · exact Binding.sound_placeholder _

/-- A scope can be added below every scope that exists. -/
theorem exists_addScope (h : parent < tree.size) (kind : ScopeKind) :
    ∃ tree', tree.addScope parent kind = .ok (tree.size, tree') := by
  obtain ⟨s, hs⟩ := exists_scope? h
  exact ⟨_, by rw [addScope, hs]; rfl⟩

/-- What adding a scope does to the frame. -/
theorem frame_of_addScope {scope : ScopeId} (h : tree.addScope parent kind = .ok (scope, tree')) :
    parent < tree.size ∧ scope = tree.size ∧ tree'.frame = tree.frame ++ [(some parent, kind)] := by
  unfold addScope at h
  split at h
  · cases h
  · next hs =>
    cases h
    exact ⟨lt_size_of_scope? hs, rfl, by simp [frame]⟩

theorem size_of_addScope {scope : ScopeId} (h : tree.addScope parent kind = .ok (scope, tree')) :
    tree'.size = tree.size + 1 := by
  rw [← length_frame, (frame_of_addScope h).2.2, List.length_append, length_frame]
  rfl

theorem lt_size_of_addScope {scope : ScopeId} (h : tree.addScope parent kind = .ok (scope, tree')) :
    tree.size < tree'.size := by
  rw [size_of_addScope h]
  exact Nat.lt_succ_self _

theorem Sound.addScope {scope : ScopeId} (hsound : tree.Sound vertices keys)
    (h : tree.addScope parent kind = .ok (scope, tree')) : tree'.Sound vertices keys := by
  unfold ScopeTree.addScope at h
  split at h
  · cases h
  · cases h
    intro s hs
    rcases Array.mem_push.1 hs with hs | rfl
    · exact hsound s hs
    · exact Binding.table_nil

theorem frame_setIfInBounds {s s' : Scope} (hs : tree.scope? i = some s) (hp : s'.parent = s.parent)
    (hk : s'.kind = s.kind) :
    ScopeTree.frame { scopes := tree.scopes.setIfInBounds i s' } = tree.frame := by
  apply List.ext_getElem?
  intro j
  rw [frame_getElem?, frame_getElem?, scope?, scope?, Array.getElem?_setIfInBounds]
  split
  · next h =>
    subst h
    have hlt : i < tree.scopes.size := lt_size_of_scope? hs
    rw [scope?] at hs
    rw [if_pos hlt, hs, Option.map_some, Option.map_some, hp, hk]
  · rfl

theorem Sound.setIfInBounds {s' : Scope} (h : tree.Sound vertices keys)
    (hs' : Binding.Table vertices keys s'.bindings) :
    ScopeTree.Sound vertices keys { scopes := tree.scopes.setIfInBounds i s' } := by
  intro s hs
  rcases Array.mem_or_eq_of_mem_setIfInBounds hs with hs | rfl
  · exact h s hs
  · exact hs'

/-- Every declaration succeeds. -/
theorem WellFormed.exists_declare (h : tree.WellFormed) (hi : i < tree.size) (binding : Binding)
    (hoist : Hoist) : ∃ target tree', tree.declare i binding hoist = .ok (target, tree') := by
  obtain ⟨target, htarget, hland⟩ := h.exists_landing hi hoist
  obtain ⟨s, hs⟩ := exists_scope? htarget
  let s' : Scope := { s with bindings := Binding.insert s.bindings binding.name binding }
  refine ⟨target, { scopes := tree.scopes.setIfInBounds target s' }, ?_⟩
  rw [declare, hland]
  simp only [hs, bind, Except.bind]
  rfl

/-- A declaration changes the bindings of one scope. -/
theorem of_declare (h : tree.declare i binding hoist = .ok (target, tree')) :
    ∃ s, tree.scope? target = some s ∧
      tree' = ⟨tree.scopes.setIfInBounds target
        { s with bindings := Binding.insert s.bindings binding.name binding }⟩ := by
  unfold declare at h
  cases hland : tree.landing i hoist with
  | error e =>
    rw [hland] at h
    cases h
  | ok receiver =>
    rw [hland] at h
    simp only [bind, Except.bind] at h
    split at h
    · cases h
    · next s hs =>
      cases h
      exact ⟨s, hs, rfl⟩

/-- Declaring keeps the frame. -/
theorem frame_of_declare (h : tree.declare i binding hoist = .ok (target, tree')) :
    tree'.frame = tree.frame := by
  obtain ⟨s, hs, rfl⟩ := of_declare h
  exact frame_setIfInBounds hs rfl rfl

/-- Declaring a sound binding keeps a tree sound. -/
theorem Sound.declare (hsound : tree.Sound vertices keys) (hb : binding.Sound vertices keys)
    (h : tree.declare i binding hoist = .ok (target, tree')) : tree'.Sound vertices keys := by
  obtain ⟨s, hs, rfl⟩ := of_declare h
  exact hsound.setIfInBounds ((hsound s (Array.mem_of_getElem? hs)).insert rfl hb)

theorem frame_updateLocal (tree : ScopeTree) (i : ScopeId) (name : String)
    (update : Binding → Binding) : (tree.updateLocal i name update).frame = tree.frame := by
  unfold updateLocal
  split
  · rfl
  · next hs => exact frame_setIfInBounds hs rfl rfl

theorem Sound.updateLocal (h : tree.Sound vertices keys) (i : ScopeId) (name : String)
    {update : Binding → Binding}
    (hu : ∀ b, b.Sound vertices keys → (update b).Sound vertices keys ∧ (update b).name = b.name) :
    (tree.updateLocal i name update).Sound vertices keys := by
  unfold ScopeTree.updateLocal
  split
  · exact h
  · next s hs => exact h.setIfInBounds ((h s (Array.mem_of_getElem? hs)).modify name hu)

/-- Updating bindings keeps the frame. -/
@[simp] theorem frame_updateChain (tree : ScopeTree) (i : ScopeId) (chain : List String)
    (update : Binding → Binding) : (tree.updateChain i chain update).frame = tree.frame := by
  unfold updateChain
  split
  · rfl
  · split
    · rfl
    · exact frame_updateLocal ..

/-- A sound update along a chain keeps a tree sound. -/
theorem Sound.updateChain (h : tree.Sound vertices keys) (i : ScopeId) (chain : List String)
    {update : Binding → Binding}
    (hu : ∀ b, b.Sound vertices keys → (update b).Sound vertices keys ∧ (update b).name = b.name) :
    (tree.updateChain i chain update).Sound vertices keys := by
  unfold ScopeTree.updateChain
  split
  · exact h
  · split
    · exact h
    · exact h.updateLocal _ _ fun b hb => hb.updateAt hu _

/-! ## What lookups find -/

/-- What is looked up in a sound tree is sound. -/
theorem Sound.lookup? (h : tree.Sound vertices keys) {name : String}
    (hl : tree.lookup? i name = some binding) : binding.Sound vertices keys := by
  obtain ⟨j, -, hj⟩ := List.exists_of_findSome?_eq_some hl
  obtain ⟨s, hs, hb⟩ := Option.bind_eq_some_iff.1 hj
  exact (h s (Array.mem_of_getElem? hs)).sound _ (Binding.mem_of_find? hb)

theorem Sound.declarationOf? (h : tree.Sound vertices keys) {name : String} {v : VertexId}
    (hv : tree.declarationOf? i name = some v) : v < vertices := by
  obtain ⟨binding, hl, hd⟩ := Option.bind_eq_some_iff.1 hv
  exact (h.lookup? hl).declaration_lt hd

/-- What a chain leads to in a sound tree is sound. -/
theorem Sound.lookupChain? (h : tree.Sound vertices keys) {chain : List String}
    (hl : tree.lookupChain? i chain = some binding) : binding.Sound vertices keys := by
  cases chain with
  | nil => cases hl
  | cons name rest =>
    obtain ⟨base, hbase, hd⟩ := Option.bind_eq_some_iff.1 hl
    exact (h.lookup? hbase).descend? hd

theorem Sound.resolvePrefix? (h : tree.Sound vertices keys) {chain : List String}
    {found : Binding × Nat} (hl : tree.resolvePrefix? i chain = some found) :
    found.1.Sound vertices keys := by
  cases chain with
  | nil => cases hl
  | cons name rest =>
    obtain ⟨base, hbase, rfl⟩ := Option.map_eq_some_iff.1 hl
    exact (h.lookup? hbase).descendFar rest

end ScopeTree

end DeadCode
