import DeadCode.Proofs.Resolution.File

/-! # Every callable is entered once

In a tree that keeps the grammar, and in which no two callables have the same identity, a callable
is registered only while the callable around it is entered. So it is never registered again after it
was entered itself, and it is entered exactly once. -/

namespace DeadCode

open Builder Node

/-! ## Function scopes -/

namespace ScopeTree

/-- The number of function scopes of a tree. -/
def functionCount (tree : ScopeTree) : Nat :=
  (tree.scopes.toList.filter (·.kind = .function)).length

theorem functionCount_eq (tree : ScopeTree) :
    tree.functionCount = tree.frame.countP (·.2 = .function) := by
  rw [functionCount, frame, List.countP_map, ← List.countP_eq_length_filter]
  rfl

theorem functionCount_of_frame_eq {tree tree' : ScopeTree} (h : tree'.frame = tree.frame) :
    tree'.functionCount = tree.functionCount := by
  rw [functionCount_eq, functionCount_eq, h]

theorem functionCount_of_addScope {tree tree' : ScopeTree} {parent scope : ScopeId}
    {kind : ScopeKind} (h : tree.addScope parent kind = .ok (scope, tree')) :
    tree'.functionCount = tree.functionCount + if kind = .function then 1 else 0 := by
  rw [functionCount_eq, functionCount_eq, (frame_of_addScope h).2.2, List.countP_append]
  simp [List.countP_singleton]

end ScopeTree

namespace Builder

variable {root : Node} {declared : Node → Prop} {b b' : Builder}

theorem Move.functionCount_eq (h : Move root declared b b') :
    b'.scopes.functionCount = b.scopes.functionCount := by
  cases h with
  | block h => simpa using ScopeTree.functionCount_of_addScope h
  | declare _ h => exact ScopeTree.functionCount_of_frame_eq (ScopeTree.frame_of_declare h)
  | update => exact ScopeTree.functionCount_of_frame_eq (ScopeTree.frame_updateChain ..)
  | statement | own | relate | register | enqueue | noteCall | noteLinked | noteReturn | focus => rfl

theorem Reaches.functionCount_eq (h : b.Reaches root declared b') :
    b'.scopes.functionCount = b.scopes.functionCount := by
  obtain ⟨h, -⟩ := h
  induction h with
  | refl => rfl
  | tail _ hmove ih => exact hmove.functionCount_eq.trans ih

/-! ## Callables that stay as they are -/

theorem Move.callable?_eq (h : Move root declared b b') {key : Key} (hclass : key.kind.isClass = false)
    (hkey : ∀ d, declared d → d.key ≠ key) : b'.callable? key = b.callable? key := by
  cases h with
  | register callable hcallable hdeclared =>
    refine (lookup_setCallable ..).trans (if_neg ?_)
    rintro rfl
    rcases hdeclared with hclass' | hd
    · exact absurd hclass' (by simpa [key] using hclass)
    · exact hkey _ hd rfl
  | statement | own | relate | block | declare | update | enqueue | noteCall | noteLinked | noteReturn
  | focus => rfl

theorem Reaches.callable?_eq (h : b.Reaches root declared b') {key : Key}
    (hclass : key.kind.isClass = false) (hkey : ∀ d, declared d → d.key ≠ key) :
    b'.callable? key = b.callable? key := by
  obtain ⟨h, -⟩ := h
  induction h with
  | refl => rfl
  | tail _ hmove ih => exact (hmove.callable?_eq hclass hkey).trans ih

/-! ## Between two entries -/

/-- What holds of the callables between two entries. -/
structure Settled (b : Builder) : Prop where
  /-- A callable that was entered is still registered in the scope it was entered from. -/
  scope : ∀ entered ∈ b.expanded, ∃ callable, b.callable? entered.1 = some callable ∧
    callable.scope = entered.2 ∧ callable.node.kind.isClass = false
  /-- No callable was entered twice. -/
  nodup : (b.expanded.map Prod.fst).Nodup
  /-- Every entry has a function scope of its own. -/
  count : b.scopes.functionCount = b.expanded.length
  /-- A callable around a registered one was entered. -/
  outer : ∀ entry ∈ b.callables, ∀ around ∈ b.callables, entry.2.node.kind.isClass = false →
    around.2.node.kind.isClass = false → entry.2.node ∈ around.2.node.inner →
    around.1 ∈ b.expanded.map Prod.fst

/-- After the top level all is settled. -/
theorem Settled.of_topLevel (hroot : root.Grammatical) (hdistinct : root.DistinctCallables)
    {path : Path} {ambient : List String}
    (h : (start path ambient).Reaches root (Met root .file root) b) : b.Settled where
  scope := by simp [h.expanded_eq, start]
  nodup := by simp [h.expanded_eq, start]
  count := by
    rw [h.functionCount_eq, h.expanded_eq]
    rfl
  outer := by
    intro entry hentry around haround hclass hclass' hinner
    have hdeclares (x : Key × Callable) (hx : x ∈ b.callables)
        (hxclass : x.2.node.kind.isClass = false) : Declares .file root x.2.node := by
      rcases h.mem_callables hx hxclass with hold | hmet
      · simp [start] at hold
      · exact hmet.declares hroot
    exact absurd hinner ((hdeclares entry hentry hclass).antichain hdistinct
      (hdeclares around haround hclass'))

section Enter

variable {key : Key} {callable : Callable}

theorem pending_spec (hfound : b.callable? key = some callable) (hpending : b.isPending key) :
    callable.node.kind.isClass = false ∧ (key, callable.scope) ∉ b.expanded := by
  simpa [hfound] using isPending_iff.1 hpending

theorem Settled.not_entered (h : b.Settled) (hfound : b.callable? key = some callable)
    (hpending : b.isPending key) : key ∉ b.expanded.map Prod.fst := by
  intro hkey
  obtain ⟨entered, hentered, rfl⟩ := List.mem_map.1 hkey
  obtain ⟨found, hfound', hscope, -⟩ := h.scope entered hentered
  obtain rfl : callable = found := by simpa [hfound] using hfound'
  exact (pending_spec hfound hpending).2 (hscope ▸ hentered)

theorem Settled.not_mem_inner (h : b.Settled) (hfound : b.callable? key = some callable)
    (hpending : b.isPending key) {entry : Key × Callable} (hentry : entry ∈ b.callables)
    (hclass : entry.2.node.kind.isClass = false) : entry.2.node ∉ callable.node.inner :=
  fun hinner => h.not_entered hfound hpending <|
    h.outer entry hentry (key, callable) (mem_of_callable? hfound) hclass
      (pending_spec hfound hpending).1 hinner

theorem Settled.callable?_eq (hdistinct : root.DistinctCallables) (hb : b.Valid root)
    (h : b.Settled) (hfound : b.callable? key = some callable) (hpending : b.isPending key)
    {b₀ : Builder} (hr : b₀.Reaches root (Inside root callable.node) b')
    (hcallables : b₀.callables = b.callables) {k : Key} {c : Callable}
    (hc : b.callable? k = some c) (hclass : c.node.kind.isClass = false) :
    b'.callable? k = some c := by
  have hplaced := hb.callables _ (mem_of_callable? hfound)
  have hplaced' := hb.callables _ (mem_of_callable? hc)
  obtain rfl : c.node.key = k := hplaced'.key
  have heq : b₀.callable? c.node.key = some c := by
    rw [callable?, hcallables]
    exact hc
  refine (hr.callable?_eq hclass fun d hd hkey => ?_).trans heq
  have hd' : d ∈ root.callables := mem_callables.2
    ⟨mem_nodes_trans (mem_nodes_of_descendant (mem_inner.1 hd.inner).1)
      (mem_callables.1 hplaced.mem).1, (mem_inner.1 hd.inner).2⟩
  obtain rfl : d = c.node := hdistinct.eq_of_key_eq hd' hplaced'.mem hkey
  exact h.not_mem_inner hfound hpending (mem_of_callable? hc) hclass hd.inner

/-- **An entry keeps a builder settled.** The callable entered was not entered before, so nothing
inside it has been registered yet, and what is registered now is new. -/
theorem Settled.enter (hroot : root.Grammatical) (hdistinct : root.DistinctCallables)
    (hb : b.Valid root) (h : b.Settled) (henters : b.Enters root b') : b'.Settled := by
  obtain ⟨key, callable, scope, scopes, rest, hfound, hpending, hadd, hreaches⟩ := henters
  have hplaced := hb.callables _ (mem_of_callable? hfound)
  have hclass := (pending_spec hfound hpending).1
  have hexpanded : b'.expanded = (key, callable.scope) :: b.expanded := hreaches.expanded_eq
  have hkeep {k : Key} {c : Callable} (hc : b.callable? k = some c)
      (hclass : c.node.kind.isClass = false) : b'.callable? k = some c :=
    h.callable?_eq hdistinct hb hfound hpending hreaches rfl hc hclass
  refine ⟨?_, ?_, ?_, ?_⟩
  · rw [hexpanded]
    intro entered hentered
    rcases List.mem_cons.1 hentered with rfl | hentered
    · exact ⟨callable, hkeep hfound hclass, rfl, hclass⟩
    · obtain ⟨c, hc, hscope, hcClass⟩ := h.scope entered hentered
      exact ⟨c, hkeep hc hcClass, hscope, hcClass⟩
  · rw [hexpanded]
    exact List.nodup_cons.2 ⟨h.not_entered hfound hpending, h.nodup⟩
  · rw [hreaches.functionCount_eq, hexpanded, List.length_cons, ← h.count]
    exact ScopeTree.functionCount_of_addScope hadd
  · intro entry hentry around haround hentryClass haroundClass hinner
    rw [hexpanded, List.map_cons, List.mem_cons]
    rcases hreaches.mem_callables hentry hentryClass, hreaches.mem_callables haround haroundClass
      with ⟨hold | hnew, hold' | hnew'⟩
    · exact .inr (h.outer entry hold around hold' hentryClass haroundClass hinner)
    · -- An old callable in a new one would lie inside the one entered.
      exact absurd (mem_inner_trans hinner hnew'.inner)
        (h.not_mem_inner hfound hpending hold hentryClass)
    · -- The one entered and an old one both hold the new one, so one of them lies in the other.
      have hplaced' := hb.callables _ hold'
      have hsame (heq : callable.node = around.2.node) : around.1 = key := by
        rw [← hplaced'.key, ← heq]
        exact hplaced.key
      rcases hdistinct.comparable hplaced.mem hplaced'.mem
        (mem_callables_of_mem_inner hnew.inner) (mem_callables_of_mem_inner hinner) with hin | hin
      · refine (eq_or_mem_inner hin).imp hsame fun hin => ?_
        exact h.outer (key, callable) (mem_of_callable? hfound) around hold' hclass haroundClass hin
      · refine (eq_or_mem_inner hin).imp (fun heq => hsame heq.symm) fun hin => ?_
        exact absurd hin (h.not_mem_inner hfound hpending hold' haroundClass)
    · -- What one visit comes upon lies side by side.
      exact absurd hinner (Declares.antichain
        (hdistinct.of_mem_nodes (mem_callables.1 hplaced.mem).1) (hnew.met.declares hroot)
        (hnew'.met.declares hroot))

end Enter

/-- What has a body and is registered after moves was so before, if the moves register no such
callable. -/
theorem Reaches.mem_of_not_class (hr : b.Reaches root (fun _ => False) b')
    {entry : Key × Callable} (hentry : entry ∈ b'.callables)
    (hclass : entry.2.node.kind.isClass = false) : entry ∈ b.callables := by
  rcases hr.mem_callables hentry hclass with hold | hfalse
  · exact hold
  · cases hfalse

theorem Reaches.waiting_eq_nil (hr : b.Reaches root (fun _ => False) b') (hb : b.Valid root)
    (hwaiting : b.waiting = []) : b'.waiting = [] := by
  refine List.eq_nil_iff_forall_not_mem.2 fun entry hentry => ?_
  obtain ⟨hmem, hclass, hnew⟩ := hr.valid.mem_waiting.1 hentry
  rw [hr.expanded_eq] at hnew
  have hold : entry ∈ b.waiting := hb.mem_waiting.2 ⟨hr.mem_of_not_class hmem hclass, hclass, hnew⟩
  rw [hwaiting] at hold
  cases hold

theorem Settled.of_reaches (hb : b.Valid root) (h : b.Settled)
    (hr : b.Reaches root (fun _ => False) b') : b'.Settled := by
  refine ⟨?_, ?_, ?_, ?_⟩
  · rw [hr.expanded_eq]
    intro entered hentered
    obtain ⟨c, hc, hscope, hclass⟩ := h.scope entered hentered
    have hkey := (hb.callables _ (mem_of_callable? hc)).key
    refine ⟨c, (hr.callable?_eq ?_ fun _ hd => hd.elim).trans hc, hscope, hclass⟩
    rw [← hkey]
    exact hclass
  · rw [hr.expanded_eq]
    exact h.nodup
  · rw [hr.functionCount_eq, hr.expanded_eq]
    exact h.count
  · intro entry hentry around haround hclass hclass' hinner
    rw [hr.expanded_eq]
    exact h.outer entry (hr.mem_of_not_class hentry hclass) around
      (hr.mem_of_not_class haround hclass') hclass hclass' hinner

/-! ## After the last entry -/

/-- In a list of pairs with distinct first components, a pair is the only one with its own. -/
theorem filter_fst_eq {α β : Type} [DecidableEq α] {xs : List (α × β)}
    (hnodup : (xs.map Prod.fst).Nodup) {x : α × β} (hx : x ∈ xs) :
    xs.filter (·.1 = x.1) = [x] := by
  induction xs with
  | nil => cases hx
  | cons y rest ih =>
    obtain ⟨hy, hrest⟩ := List.nodup_cons.1 hnodup
    rcases List.mem_cons.1 hx with rfl | hx
    · rw [List.filter_cons_of_pos (by simp)]
      refine congrArg _ (List.filter_eq_nil_iff.2 fun z hz hzx => hy ?_)
      rw [← of_decide_eq_true hzx]
      exact List.mem_map_of_mem hz
    · have hne : y.1 ≠ x.1 := fun heq => hy (heq ▸ List.mem_map_of_mem hx)
      rw [List.filter_cons_of_neg (by simpa using hne)]
      exact ih hrest hx

/-- Once no callable waits, each was entered exactly once, in the scope it was last registered in. -/
theorem Settled.entered_once (hb : b.Valid root) (h : b.Settled) (hwaiting : b.waiting = [])
    {entry : Key × Callable} (hentry : entry ∈ b.callables)
    (hclass : entry.2.node.kind.isClass = false) :
    b.expanded.filter (·.1 = entry.1) = [(entry.1, entry.2.scope)] := by
  refine filter_fst_eq (x := (entry.1, entry.2.scope)) h.nodup ?_
  -- Otherwise the callable would still wait.
  by_contra hnew
  have hmem : entry ∈ b.waiting := hb.mem_waiting.2 ⟨hentry, hclass, hnew⟩
  rw [hwaiting] at hmem
  cases hmem

/-- **At the end every callable was entered once.** -/
theorem Settled.functionCount_eq (hb : b.Valid root) (h : b.Settled) (hwaiting : b.waiting = []) :
    b.scopes.functionCount = (b.callables.filter (!·.2.node.kind.isClass)).length := by
  have hnodup : ((b.callables.filter (!·.2.node.kind.isClass)).map Prod.fst).Nodup :=
    List.Nodup.sublist (List.filter_sublist.map _) hb.keys
  have hperm : (b.expanded.map Prod.fst).Perm
      ((b.callables.filter (!·.2.node.kind.isClass)).map Prod.fst) := by
    refine (List.perm_ext_iff_of_nodup h.nodup hnodup).2 fun key => ?_
    constructor
    · intro hkey
      obtain ⟨entered, hentered, rfl⟩ := List.mem_map.1 hkey
      obtain ⟨callable, hfound, -, hclass⟩ := h.scope entered hentered
      have hmem : (entered.1, callable) ∈ b.callables.filter (!·.2.node.kind.isClass) :=
        List.mem_filter.2 ⟨mem_of_callable? hfound, by simpa using hclass⟩
      exact List.mem_map_of_mem (f := Prod.fst) hmem
    · intro hkey
      obtain ⟨entry, hentry, rfl⟩ := List.mem_map.1 hkey
      obtain ⟨hentry, hclass⟩ := List.mem_filter.1 hentry
      have honce := h.entered_once hb hwaiting hentry (by simpa using hclass)
      have hmem : (entry.1, entry.2.scope) ∈ b.expanded :=
        (List.mem_filter.1 (honce ▸ List.mem_singleton_self _)).1
      exact List.mem_map_of_mem (f := Prod.fst) hmem
  -- Each entry has its own scope, and the entries are the callables with a body, each once.
  rw [h.count, ← List.length_map (f := Prod.fst), hperm.length_eq, List.length_map]

end Builder

theorem Build.Drains.expanded_le {root : Node} {source : String} {b b' : Builder} {bound : Nat}
    (h : Build.Drains source b (.ok b')) (hb : b.Valid root) (hstart : b.expanded = [])
    (hload : b.load ≤ bound) : b'.expanded.Nodup ∧ b'.expanded.length ≤ bound := by
  have hstep (b b' : Builder) (hb : b.Valid root)
      (hinv : b.expanded.Nodup ∧ b.expanded.length + b.load ≤ bound) (henters : b.Enters root b') :
      b'.expanded.Nodup ∧ b'.expanded.length + b'.load ≤ bound := by
    have hlt := henters.load_lt hb
    obtain ⟨key, callable, scope, scopes, rest, hfound, hpending, -, hreaches⟩ := henters
    have hexpanded : b'.expanded = (key, callable.scope) :: b.expanded := hreaches.expanded_eq
    rw [hexpanded, List.length_cons]
    exact ⟨List.nodup_cons.2 ⟨(pending_spec hfound hpending).2, hinv.1⟩, by omega⟩
  obtain ⟨-, hinv, -⟩ := h.invariant hstep hb (by simpa [hstart] using hload)
  exact ⟨hinv.1, by omega⟩

/-- **The work on the callables ends.** After the top level of any file is linked, the loop that
enters callables comes to an end, and it enters only so many pairs of a callable and a scope. If the
tree keeps the grammar and no two of its callables have the same identity, then every callable that
was registered was entered exactly once, in the scope it was last registered in, so there are as many
function scopes as callables, classes apart. -/
theorem callables_drained (path : Path) (source : String) (root : Node) (ambient : List String) :
    (∀ b, Build.topLevel source root (start path ambient) = .ok ((), b) →
      Build.Drains source b ((Build.enterAll source root.entryBound b).map Prod.snd) ∧
      ∀ b', Build.Drains source b (.ok b') →
        b'.expanded.Nodup ∧ b'.expanded.length ≤ root.entryBound) ∧
    (root.Grammatical → root.DistinctCallables → ∀ graph scopes,
      StatementGraph.build? path source root ambient = .ok (graph, scopes) →
      ∃ b, Build.file source root (start path ambient) = .ok ((), b) ∧ b.graph = graph ∧
        b.scopes = scopes ∧
        (∀ entry ∈ b.callables, entry.2.node.kind.isClass = false →
          b.expanded.filter (·.1 = entry.1) = [(entry.1, entry.2.scope)]) ∧
        scopes.functionCount = (b.callables.filter (!·.2.node.kind.isClass)).length) := by
  constructor
  · intro b htop
    have hstart := Build.outcome_topLevel (valid_start root path ambient) source
    rw [Build.Outcome, htop] at hstart
    obtain ⟨hreaches, -⟩ := hstart
    refine ⟨Build.drains_enterAll source hreaches.valid hreaches.valid.load_le, fun b' hdrains => ?_⟩
    exact hdrains.expanded_le hreaches.valid hreaches.expanded_eq hreaches.valid.load_le
  · intro hroot hdistinct graph scopes hbuild
    rw [build?_eq] at hbuild
    rcases Build.file_phases path source root ambient with
      ⟨error, hrun, -⟩ | ⟨b₁, b₂, b₃, -, h₁, hdrains, h₃, hrun⟩
    · rw [hrun] at hbuild
      cases hbuild
    · rw [hrun] at hbuild
      cases hbuild
      obtain ⟨hb₂, hsettled, hagenda⟩ := hdrains.invariant
        (fun _ _ hb hsettled => Settled.enter hroot hdistinct hb hsettled) h₁.valid
        (Settled.of_topLevel hroot hdistinct h₁)
      have hsettled₃ := hsettled.of_reaches hb₂ h₃
      have hwaiting := h₃.waiting_eq_nil hb₂ (waiting_of_agenda_nil hagenda)
      refine ⟨b₃, hrun, rfl, rfl, fun entry hentry hclass => ?_, ?_⟩
      · exact hsettled₃.entered_once h₃.valid hwaiting hentry hclass
      · exact hsettled₃.functionCount_eq h₃.valid hwaiting

/-- In `class A { m() { () => 0 } }` the arrow function is registered in the scope of the body of the
method, and entered there once. -/
theorem callables_drained_class : ∃ b b' graph scopes,
    Build.topLevel "class A { m() { () => 0 } }" classWithMethod (start ⟨"a.js"⟩ []) = .ok ((), b) ∧
    Build.Drains "class A { m() { () => 0 } }" b
      ((Build.enterAll "class A { m() { () => 0 } }" classWithMethod.entryBound b).map Prod.snd) ∧
    classWithMethod.Grammatical ∧ classWithMethod.DistinctCallables ∧
    StatementGraph.build? ⟨"a.js"⟩ "class A { m() { () => 0 } }" classWithMethod []
      = .ok (graph, scopes) ∧
    Build.file "class A { m() { () => 0 } }" classWithMethod (start ⟨"a.js"⟩ []) = .ok ((), b') ∧
    b'.expanded.filter (·.1 = innerArrow.key) = [(innerArrow.key, 1)] ∧
    scopes.functionCount = 2 := by
  have hroot : classWithMethod.Grammatical := by decide +kernel
  have hdistinct : classWithMethod.DistinctCallables := by decide +kernel
  obtain ⟨hends, honce⟩ :=
    callables_drained ⟨"a.js"⟩ "class A { m() { () => 0 } }" classWithMethod []
  obtain ⟨⟨⟨⟩, top⟩, htop, -⟩ := exists_ok_of_decide
    (x := Build.topLevel "class A { m() { () => 0 } }" classWithMethod (start ⟨"a.js"⟩ []))
    (p := fun _ => True) (by decide +kernel)
  obtain ⟨⟨graph, scopes⟩, hbuild, -⟩ := exists_ok_of_decide
    (x := StatementGraph.build? ⟨"a.js"⟩ "class A { m() { () => 0 } }" classWithMethod [])
    (p := fun _ => True) (by decide +kernel)
  obtain ⟨b, hfile, -, -, hentered, hcount⟩ := honce hroot hdistinct _ _ hbuild
  -- What the run registers is read off the run itself.
  obtain ⟨r, hrun, hfound, htwo⟩ := exists_ok_of_decide
    (x := Build.file "class A { m() { () => 0 } }" classWithMethod (start ⟨"a.js"⟩ []))
    (p := fun r => (r.2.callable? innerArrow.key).any (fun c => c.node.key = innerArrow.key ∧ c.scope = 1) ∧
      (r.2.callables.filter (!·.2.node.kind.isClass)).length = 2) (by decide +kernel)
  cases hfile.symm.trans hrun
  obtain ⟨c, hc, hscope⟩ := (Option.any_eq_true _ _).1 hfound
  obtain ⟨hkey, hscope⟩ := of_decide_eq_true hscope
  have hclass : c.node.kind.isClass = false := congrArg (·.kind.isClass) hkey
  refine ⟨top, b, graph, scopes, htop, (hends top htop).1, hroot, hdistinct, hbuild, hfile, ?_,
    hcount.trans htwo⟩
  rw [← hscope]
  exact hentered (innerArrow.key, c) (mem_of_callable? hc) hclass

/-! The grammar matters: no source text gives the tree below, in which a function declaration stands
in the header of a loop. The arrow function in it is registered once with the header and once with
the declaration, and entered from both scopes. -/

/-- A loop whose header holds a function declaration. -/
def strayFunction : Node :=
  let body : Node :=
    .part .body (.of .statementBlock 20 40 [.of .expressionStatement 22 38 [.of .arrowFunction 24 36]])
  .of (.other "program") 0 50
    [.of .forStatement 0 50
       [.part .initializer (.of .functionDeclaration 5 40
          [.part .name (.of .identifier 10 11), body])]]

example : strayFunction.Nested ∧ strayFunction.DistinctCallables ∧ ¬ strayFunction.Grammatical ∧
    (Build.file "for (     f          () => {}                         " strayFunction
      (start ⟨"a.js"⟩ [])).toOption.map (fun r => (r.2.scopes.functionCount, r.2.callables.length))
        = some (3, 2) := by
  decide +kernel

end DeadCode
