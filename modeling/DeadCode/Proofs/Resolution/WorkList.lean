import DeadCode.Proofs.Resolution.Callable

/-! # Working off the callables

Bodies are linked one at a time until no callable is waiting. A callable may be registered again in
another scope, and then it waits again, so it is not plain that the work ever ends. It does:
whatever is registered while a callable is entered lies strictly inside that callable, so what is
left to do, measured by `Builder.load`, falls with every entry. -/

namespace DeadCode

namespace Builder

/-! ## Moves and registered callables -/

section Moves

variable {root : Node} {declared : Node → Prop} {b b' : Builder}

theorem Move.expanded_eq (h : Move root declared b b') : b'.expanded = b.expanded := by
  cases h <;> rfl

theorem Reaches.expanded_eq (h : b.Reaches root declared b') : b'.expanded = b.expanded := by
  obtain ⟨h, -⟩ := h
  induction h with
  | refl => rfl
  | tail _ hmove ih => exact hmove.expanded_eq.trans ih

/-- Moves register only what is declared. -/
theorem Move.mem_callables (h : Move root declared b b') {entry : Key × Callable}
    (hentry : entry ∈ b'.callables) (hclass : entry.2.node.kind.isClass = false) :
    entry ∈ b.callables ∨ declared entry.2.node := by
  cases h with
  | register callable _ hdeclared =>
    rcases mem_setCallable hentry with rfl | hentry
    · exact .inr (hdeclared.resolve_left (by simp [hclass]))
    · exact .inl hentry
  | statement | own | relate | block | declare | update | enqueue | noteCall | noteLinked | noteReturn
  | focus => exact .inl hentry

/-- What is registered after some moves was registered before, or the moves may register it. -/
theorem Reaches.mem_callables (h : b.Reaches root declared b') {entry : Key × Callable}
    (hentry : entry ∈ b'.callables) (hclass : entry.2.node.kind.isClass = false) :
    entry ∈ b.callables ∨ declared entry.2.node := by
  obtain ⟨h, -⟩ := h
  induction h with
  | refl => exact .inl hentry
  | tail _ hmove ih =>
    rcases hmove.mem_callables hentry hclass with hentry | hentry
    · exact ih hentry
    · exact .inr hentry

end Moves

/-! ## Callables that wait -/

theorem lookup_of_mem {callables : List (Key × Callable)} {key : Key} {callable : Callable}
    (hkeys : (callables.map Prod.fst).Nodup) (h : (key, callable) ∈ callables) :
    callables.lookup key = some callable := by
  induction callables with
  | nil => cases h
  | cons first rest ih =>
    obtain ⟨hfirst, hrest⟩ := List.nodup_cons.1 hkeys
    rcases List.mem_cons.1 h with rfl | hmem
    · exact List.lookup_cons_self
    · have hne : key ≠ first.1 := by
        intro heq
        exact hfirst (heq ▸ List.mem_map_of_mem hmem)
      obtain ⟨k, c⟩ := first
      rw [List.lookup_cons, beq_false_of_ne hne]
      exact ih hrest hmem

section Waiting

variable {root : Node} {b b' : Builder} {key : Key} {callable : Callable}

theorem Valid.callable?_of_mem (hb : b.Valid root) (h : (key, callable) ∈ b.callables) :
    b.callable? key = some callable :=
  lookup_of_mem hb.keys h

/-- The callables that still have to be entered. -/
theorem isPending_iff : b.isPending key ↔ ∃ callable, b.callable? key = some callable ∧
    callable.node.kind.isClass = false ∧ (key, callable.scope) ∉ b.expanded := by
  unfold isPending
  cases b.callable? key with
  | none => simp
  | some callable => simp

/-- The callables that wait for being entered. -/
def waiting (b : Builder) : List (Key × Callable) :=
  b.callables.filter fun entry => b.isPending entry.1

/-- The entries that wait. -/
theorem Valid.mem_waiting (hb : b.Valid root) : (key, callable) ∈ b.waiting ↔
    (key, callable) ∈ b.callables ∧ callable.node.kind.isClass = false ∧
      (key, callable.scope) ∉ b.expanded := by
  rw [waiting, List.mem_filter, isPending_iff]
  refine and_congr_right fun h => ?_
  rw [hb.callable?_of_mem h]
  simp

theorem waiting_of_agenda_nil (h : b.agenda = []) : b.waiting = [] := by
  unfold agenda at h
  split at h
  · rw [waiting, List.filter_eq_nil_iff]
    intro entry hentry
    exact List.filter_eq_nil_iff.1 h entry.1 (List.mem_map_of_mem hentry)
  · next hqueue => exact absurd h hqueue

theorem isPending_of_agenda {rest : List Key} (h : b.agenda = key :: rest) : b.isPending key := by
  unfold agenda at h
  split at h
  · exact (List.mem_filter.1 (h ▸ List.mem_cons_self)).2
  · have hhead := List.head?_dropWhile_not (!b.isPending ·) b.queue
    rw [h] at hhead
    simpa using hhead

/-- If nothing waits nothing is to do. -/
theorem agenda_eq_nil (h : b.waiting = []) : b.agenda = [] := by
  cases hagenda : b.agenda with
  | nil => rfl
  | cons key rest =>
    have hkey := isPending_of_agenda hagenda
    obtain ⟨callable, hfound, -⟩ := isPending_iff.1 hkey
    have hmem : (key, callable) ∈ b.waiting := List.mem_filter.2 ⟨mem_of_callable? hfound, hkey⟩
    rw [h] at hmem
    cases hmem

/-! ### What is left to do -/

/-- The nodes of the callables that wait. -/
def waitingNodes (b : Builder) : List Node :=
  b.waiting.map fun entry => entry.2.node

/-- A bound on the entries that the waiting callables account for. -/
def load (b : Builder) : Nat :=
  (b.waitingNodes.map Node.weight).sum

theorem Valid.mem_waitingNodes (hb : b.Valid root) {n : Node} : n ∈ b.waitingNodes ↔
    ∃ callable, callable.node = n ∧ (n.key, callable) ∈ b.callables ∧ n.kind.isClass = false ∧
      (n.key, callable.scope) ∉ b.expanded := by
  rw [waitingNodes, List.mem_map]
  constructor
  · rintro ⟨⟨key, callable⟩, hwaiting, rfl⟩
    obtain ⟨hmem, hclass, hnew⟩ := hb.mem_waiting.1 hwaiting
    obtain rfl : callable.node.key = key := (hb.callables _ hmem).key
    exact ⟨callable, rfl, hmem, hclass, hnew⟩
  · rintro ⟨callable, rfl, hmem, hclass, hnew⟩
    exact ⟨(callable.node.key, callable), hb.mem_waiting.2 ⟨hmem, hclass, hnew⟩, rfl⟩

/-- Nothing waits twice. -/
theorem Valid.nodup_waitingNodes (hb : b.Valid root) : b.waitingNodes.Nodup := by
  have hkeys : (b.waiting.map Prod.fst).Nodup :=
    List.Nodup.sublist (List.filter_sublist.map _) hb.keys
  refine List.Nodup.of_map Node.key ?_
  have heq : b.waitingNodes.map Node.key = b.waiting.map Prod.fst := by
    rw [waitingNodes, List.map_map]
    refine List.map_congr_left fun entry hentry => ?_
    exact (hb.callables entry (List.mem_filter.1 hentry).1).key
  rw [heq]
  exact hkeys

/-- The load is bounded by the tree. -/
theorem Valid.load_le (hb : b.Valid root) : b.load ≤ root.entryBound := by
  rw [load, Node.entryBound_eq_sum]
  refine sum_map_le_of_subset _ hb.nodup_waitingNodes fun n hn => ?_
  obtain ⟨callable, rfl, hmem, -⟩ := hb.mem_waitingNodes.1 hn
  exact (hb.callables _ hmem).mem

theorem waiting_of_load_zero (h : b.load = 0) : b.waiting = [] := by
  cases hw : b.waiting with
  | nil => rfl
  | cons entry rest =>
    rw [load, waitingNodes, hw, List.map_cons, List.map_cons, List.sum_cons, Node.weight_eq] at h
    omega

/-- **Entering a callable lowers the load.** The callables registered on the way lie inside the one
entered, and its weight exceeds all of theirs. -/
theorem load_lt_of_enter (hb : b.Valid root) {scopes : ScopeTree}
    (hfound : b.callable? key = some callable) (hpending : b.isPending key)
    (hr : (b.entering key callable scopes).Reaches root (Inside root callable.node) b') :
    b'.load < b.load := by
  have hmem := mem_of_callable? hfound
  have hplaced := hb.callables _ hmem
  obtain rfl : callable.node.key = key := hplaced.key
  have hwaits : callable.node ∈ b.waitingNodes := by
    obtain ⟨found, hfound', hclass, hnew⟩ := isPending_iff.1 hpending
    obtain rfl : found = callable := by simpa [hfound] using hfound'.symm
    exact hb.mem_waitingNodes.2 ⟨found, rfl, hmem, hclass, hnew⟩
  obtain ⟨before, after, hsplit⟩ := List.append_of_mem hwaits
  -- Whoever waits now waited before and is another one, or lies inside the one entered.
  have hsub (n : Node) (hn : n ∈ b'.waitingNodes) :
      n ∈ before ++ after ++ callable.node.inner := by
    obtain ⟨other, rfl, hother, hclass, hnew⟩ := hr.valid.mem_waitingNodes.1 hn
    rw [hr.expanded_eq] at hnew
    obtain ⟨hne, hnew⟩ : _ ∧ (other.node.key, other.scope) ∉ b.expanded := by
      simpa [entering] using hnew
    rcases hr.mem_callables hother hclass with hold | hinside
    · have hwaits' : other.node ∈ b.waitingNodes :=
        hb.mem_waitingNodes.2 ⟨other, rfl, hold, hclass, hnew⟩
      have hdiff : other.node ≠ callable.node := by
        intro heq
        have hother' := hb.callable?_of_mem hold
        rw [heq, hfound] at hother'
        obtain rfl : callable = other := by simpa using hother'
        exact hne rfl rfl
      rw [hsplit] at hwaits'
      refine List.mem_append_left _ ?_
      simpa [hdiff] using hwaits'
    · exact List.mem_append_right _ hinside.inner
  have hle := sum_map_le_of_subset Node.weight hr.valid.nodup_waitingNodes hsub
  rw [load, load, hsplit]
  have hweight := callable.node.weight_eq
  simp only [List.map_append, List.map_cons, List.sum_append, List.sum_cons] at hle ⊢
  omega

/-- One entry: a waiting callable gets a function scope and is linked there. -/
inductive Enters (root : Node) (b b' : Builder) : Prop where
  | intro (key : Key) (callable : Callable) (scope : ScopeId) (scopes : ScopeTree) (rest : List Key)
      (hfound : b.callable? key = some callable) (hpending : b.isPending key)
      (hadd : b.scopes.addScope callable.scope .function = .ok (scope, scopes))
      (hreaches : ({ b with queue := rest }.entering key callable scopes).Reaches root
        (Inside root callable.node) b') : Enters root b b'

theorem Valid.requeue (hb : b.Valid root) (queue : List Key) : Valid root { b with queue } :=
  hb.of_grows ⟨.refl _, Nat.le_refl _⟩ hb.scopes hb.bindings hb.statements rfl rfl rfl

theorem Enters.valid (h : b.Enters root b') : b'.Valid root := by
  obtain ⟨_, _, _, _, _, _, _, _, hreaches⟩ := h
  exact hreaches.valid

theorem Enters.grows (h : b.Enters root b') : b.Grows b' := by
  obtain ⟨key, callable, scope, scopes, rest, -, -, hadd, hreaches⟩ := h
  have hsize : b.scopes.size < scopes.size := ScopeTree.lt_size_of_addScope hadd
  exact ⟨hreaches.grows.graph, Nat.le_trans (Nat.le_of_lt hsize) hreaches.grows.scopes⟩

/-- **Every entry makes the load smaller.** -/
theorem Enters.load_lt (hb : b.Valid root) (h : b.Enters root b') : b'.load < b.load := by
  obtain ⟨key, callable, scope, scopes, rest, hfound, hpending, hadd, hreaches⟩ := h
  exact load_lt_of_enter (b := { b with queue := rest }) (hb.requeue rest) hfound hpending hreaches

end Waiting

end Builder

/-! ## The loop -/

namespace Build

open Builder

variable {root : Node} {source : String} {b b' : Builder}

/-- One round of the loop: the next callable is taken off and entered. -/
def Round (source : String) (b b' : Builder) : Prop :=
  ∃ key rest, b.agenda = key :: rest ∧ enter source key { b with queue := rest } = .ok ((), b')

/-- The loop that enters callables until none waits, and the builder or the error it ends with. A
derivation is a run, so a loop that goes on for ever has none. -/
inductive Drains (source : String) : Builder → Except BuildError Builder → Prop where
  | done {b : Builder} (h : b.agenda = []) : Drains source b (.ok b)
  | fail {b : Builder} {key : Key} {rest : List Key} {error : BuildError}
      (h : b.agenda = key :: rest)
      (hfail : enter source key { b with queue := rest } = .error error) :
      Drains source b (.error error)
  | round {b b' : Builder} {result : Except BuildError Builder} (h : Round source b b')
      (hrest : Drains source b' result) : Drains source b result

/-- Every round enters a callable. -/
theorem Round.enters (hb : b.Valid root) (h : Round source b b') : b.Enters root b' := by
  obtain ⟨key, rest, hagenda, hrun⟩ := h
  have hpending := isPending_of_agenda hagenda
  obtain ⟨callable, hfound, -⟩ := isPending_iff.1 hpending
  obtain ⟨scope, scopes, hadd, hend⟩ := outcome_enter (hb.requeue rest) source hfound
  rw [hrun] at hend
  exact ⟨key, callable, scope, scopes, rest, hfound, hpending, hadd, hend⟩

/-- What every round keeps holds at the end. -/
theorem Drains.along {inv : Builder → Prop}
    (hstep : ∀ b b', b.Valid root → inv b → Round source b b' → inv b')
    (h : Drains source b (.ok b')) (hb : b.Valid root) (hinv : inv b) :
    b'.Valid root ∧ inv b' ∧ b'.agenda = [] := by
  generalize hresult : (Except.ok b' : Except BuildError Builder) = result at h
  induction h with
  | done h =>
    cases hresult
    exact ⟨hb, hinv, h⟩
  | fail => cases hresult
  | round hround _ ih => exact ih (hround.enters hb).valid (hstep _ _ hb hinv hround) hresult

theorem Drains.invariant {inv : Builder → Prop}
    (hstep : ∀ b b', b.Valid root → inv b → b.Enters root b' → inv b')
    (h : Drains source b (.ok b')) (hb : b.Valid root) (hinv : inv b) :
    b'.Valid root ∧ inv b' ∧ b'.agenda = [] :=
  h.along (fun b b' hb hinv hround => hstep b b' hb hinv (hround.enters hb)) hb hinv

/-- A fault means that the tree is not nested. -/
theorem Drains.not_nested {error : BuildError} (h : Drains source b (.error error))
    (hb : b.Valid root) : ¬ root.Nested := by
  generalize hresult : (Except.error error : Except BuildError Builder) = result at h
  induction h with
  | done => cases hresult
  | @fail b key rest error hagenda hfail =>
    obtain ⟨callable, hfound, -⟩ := isPending_iff.1 (isPending_of_agenda hagenda)
    obtain ⟨scope, scopes, -, hend⟩ := outcome_enter (hb.requeue rest) source hfound
    rw [hfail] at hend
    exact hend
  | round hround _ ih => exact ih (hround.enters hb).valid hresult

theorem enterAll_of_agenda_nil (h : b.agenda = []) (limit : Nat) :
    enterAll source limit b = .ok ((), b) := by
  cases limit with
  | zero => rfl
  | succ limit =>
    rw [enterAll, get_bind_apply, h]
    rfl

/-- One round of the work list. -/
theorem enterAll_of_agenda_cons {key : Key} {rest : List Key} (h : b.agenda = key :: rest)
    (limit : Nat) : enterAll source (limit + 1) b =
      (do enter source key; enterAll source limit : Build Unit) { b with queue := rest } := by
  rw [enterAll, get_bind_apply, h]
  exact bind_apply_of_ok (modify_apply _ b) _

/-- **The loop ends**, and `enterAll` runs it to its end if it may take as many rounds as the load
says. -/
theorem drains_enterAll (source : String) (hb : b.Valid root) {limit : Nat}
    (hload : b.load ≤ limit) :
    Drains source b ((enterAll source limit b).map Prod.snd) := by
  induction limit generalizing b with
  | zero =>
    -- The load is used up, so nothing waits and the loop stops by itself.
    have hagenda := agenda_eq_nil (waiting_of_load_zero (Nat.le_zero.1 hload))
    rw [enterAll_of_agenda_nil hagenda]
    exact .done hagenda
  | succ limit ih =>
    cases hagenda : b.agenda with
    | nil =>
      rw [enterAll_of_agenda_nil hagenda]
      exact .done hagenda
    | cons key rest =>
      rw [enterAll_of_agenda_cons hagenda]
      cases hrun : enter source key { b with queue := rest } with
      | error error =>
        rw [bind_apply_of_error hrun]
        exact .fail hagenda hrun
      | ok r =>
        obtain ⟨⟨⟩, b'⟩ := r
        rw [bind_apply_of_ok hrun]
        have hround : Round source b b' := ⟨key, rest, hagenda, hrun⟩
        have henters := hround.enters hb
        -- Each round lowers the load, so the remaining limit covers what is left.
        have hlt := henters.load_lt hb
        exact .round hround (ih henters.valid (by omega))

end Build

end DeadCode
