import DeadCode.Proofs.Resolution.Runs.File

/-! # Where the scopes of a history lie

Scopes are numbers with parents. In every history of a file their places make up a part of its tree:
the place of a scope lies in that of its parent, so all that is seen from a scope is declared around
it in the text. -/

namespace DeadCode

open Node

namespace Trace

/-- The scopes of a trace lie in the tree as their places do, and callables that are registered were
left for later in the scope they are registered with. -/
structure Sound (root : Node) (w : Trace) : Prop where
  tree : w.builder.scopes.WellFormed
  fits : w.places.length = w.builder.scopes.size
  file : w.places[ScopeTree.globalId]? = some ⟨.file, root⟩
  lies : ∀ p ∈ w.places, p.Lies root
  around : ∀ scope parent p, w.builder.scopes.parent? scope = some parent →
    w.places[scope]? = some p → ∃ visit, w.At parent visit p.node
  deferred : ∀ key callable, w.builder.callable? key = some callable →
    callable.node.kind.isClass = false →
      ∃ visit, w.At callable.scope visit callable.node ∧ visit.defers callable.node.kind

/-! ## What events keep -/

namespace Sound

variable {source : String} {root : Node} {w w' : Trace}

/-- **A node is visited in its way**, whichever scope it is visited in. -/
theorem way (h : w.Sound root) {scope : ScopeId} {visit : Visit} {n : Node}
    (hat : w.At scope visit n) (hvisit : visit ≠ .callable) : Way root visit n := by
  obtain ⟨p, hp, halong⟩ := hat
  rcases h.lies p (List.mem_of_getElem? hp) with hway | ⟨hcallable, visit', hway, hdefers⟩
  · exact hway.along halong
  · rw [hcallable] at halong
    refine hway.along_callable hdefers halong ?_
    rcases mem_nodes_iff.1 halong.mem_nodes with rfl | hlt
    · -- The callable itself is visited as one.
      cases halong with
      | refl => exact absurd rfl hvisit
      | child h' _ hc =>
        exact absurd (size_lt_of_descendant (mem_descendants_of_child hc h'.mem_nodes))
          (Nat.lt_irrefl _)
    · exact hlt

theorem keep (h : w.Sound root) (hplaces : w'.places = w.places)
    (hframe : w'.builder.scopes.frame = w.builder.scopes.frame)
    (hdeferred : ∀ key callable, w'.builder.callable? key = some callable →
      callable.node.kind.isClass = false →
        ∃ visit, w.At callable.scope visit callable.node ∧ visit.defers callable.node.kind) :
    w'.Sound root where
  tree := h.tree.of_frame_eq hframe
  fits := by rw [hplaces, h.fits, ScopeTree.size_of_frame_eq hframe]
  file := by rw [hplaces, h.file]
  lies := by
    rw [hplaces]
    exact h.lies
  around := by
    intro scope parent p hparent hp
    rw [ScopeTree.parent?_eq_frame, hframe, ← ScopeTree.parent?_eq_frame] at hparent
    rw [hplaces] at hp
    unfold At
    rw [hplaces]
    exact h.around scope parent p hparent hp
  deferred := by
    unfold At
    rw [hplaces]
    exact hdeferred

/-- A new scope lies where its place does. -/
theorem add (h : w.Sound root) (hw : w.Extends w') {parent : ScopeId} {kind : ScopeKind} {p : ScopePlace}
    {visit : Visit} (hplaces : w'.places = w.places ++ [p])
    (hframe : w'.builder.scopes.frame = w.builder.scopes.frame ++ [(some parent, kind)])
    (hcallables : w'.builder.callables = w.builder.callables) (hlies : p.Lies root)
    (hat : w.At parent visit p.node) : w'.Sound root where
  tree := by
    obtain ⟨q, hq, -⟩ := hat
    refine h.tree.of_frame_append ?_ hframe
    rw [← h.fits]
    exact (List.getElem?_eq_some_iff.1 hq).1
  fits := by
    rw [← ScopeTree.length_frame, hplaces, hframe, List.length_append, List.length_append, h.fits,
      ScopeTree.length_frame]
    rfl
  file := hw.place h.file
  lies := by
    intro q hq
    rw [hplaces] at hq
    rcases List.mem_append.1 hq with hq | hq
    · exact h.lies q hq
    · rw [List.mem_singleton] at hq
      rwa [hq]
  around := by
    intro scope parent' q hparent hq
    rw [ScopeTree.parent?_eq_frame, hframe] at hparent
    rw [hplaces] at hq
    by_cases hlt : scope < w.places.length
    · rw [List.getElem?_append_left (by rwa [ScopeTree.length_frame, ← h.fits]),
        ← ScopeTree.parent?_eq_frame] at hparent
      rw [List.getElem?_append_left hlt] at hq
      obtain ⟨visit', hat'⟩ := h.around scope parent' q hparent hq
      exact ⟨visit', hat'.mono hw⟩
    · -- The new scope is the last one.
      have hle : scope < (w.places ++ [p]).length := (List.getElem?_eq_some_iff.1 hq).1
      rw [List.length_append, List.length_singleton] at hle
      obtain rfl : scope = w.places.length :=
        Nat.le_antisymm (Nat.lt_succ_iff.1 hle) (Nat.not_lt.1 hlt)
      rw [List.getElem?_concat_length] at hq
      rw [h.fits, ← ScopeTree.length_frame, List.getElem?_concat_length] at hparent
      cases hq
      cases hparent
      exact ⟨visit, hat.mono hw⟩
  deferred := by
    intro key callable hfound hclass
    rw [Builder.callable?, hcallables] at hfound
    obtain ⟨visit', hat', hdefers⟩ := h.deferred key callable hfound hclass
    exact ⟨visit', hat'.mono hw, hdefers⟩

/-- **What one event keeps.** -/
theorem event (h : w.Sound root) (hevent : Event source root w w') : w'.Sound root := by
  have hextends := hevent.grows
  have hold (hcallables : w'.builder.callables = w.builder.callables) (key : Key)
      (callable : Callable) (hfound : w'.builder.callable? key = some callable) :
      callable.node.kind.isClass = false →
        ∃ visit, w.At callable.scope visit callable.node ∧ visit.defers callable.node.kind := by
    rw [Builder.callable?, hcallables] at hfound
    exact h.deferred key callable hfound
  cases hevent with
  | @enter key callable scope scopes hfound hclass _ hadd =>
    obtain ⟨visit, hat, hdefers⟩ := h.deferred key callable hfound hclass
    have hvisit : visit ≠ .callable := by
      rintro rfl
      cases hdefers
    exact h.add hextends rfl (ScopeTree.frame_of_addScope hadd).2.2 rfl
      (.inr ⟨rfl, visit, h.way hat hvisit, hdefers⟩) hat
  | act hact =>
    cases hact with
    | use hu _ _ _ hperforms =>
      have hrelates := hperforms.relates hu
      exact h.keep rfl (congrArg ScopeTree.frame hrelates.scopes) (hold hrelates.callables)
    | vertex | connect | exported => exact h.keep rfl rfl (hold rfl)
    | @block scope new p scopes _ hat hplain hadd =>
      have hvisit : p.visit ≠ .callable := by
        rcases hplain with hplain | hplain <;> rw [hplain] <;> decide
      exact h.add hextends rfl (ScopeTree.frame_of_addScope hadd).2.2 rfl
        (.inl (h.way hat hvisit)) hat
    | hoist _ _ _ _ hdeclare => exact h.keep rfl (ScopeTree.frame_of_declare hdeclare) (hold rfl)
    | declare _ hdeclare => exact h.keep rfl (ScopeTree.frame_of_declare hdeclare) (hold rfl)
    | store => exact h.keep rfl (ScopeTree.frame_updateChain ..) (hold rfl)
    | @register d visit scope owner during hmem hat hdefers _ =>
      refine h.keep rfl rfl fun key callable hfound hclass => ?_
      change List.lookup key _ = some callable at hfound
      rw [Builder.lookup_setCallable] at hfound
      split at hfound
      · cases hfound
        exact ⟨visit, hat, hdefers⟩
      · exact h.deferred key callable hfound hclass
    | @registerClass n scope owner hmem hisClass _ =>
      refine h.keep rfl rfl fun key callable hfound hclass => ?_
      change List.lookup key _ = some callable at hfound
      rw [Builder.lookup_setCallable] at hfound
      split at hfound
      · cases hfound
        rw [hisClass] at hclass
        cases hclass
      · exact h.deferred key callable hfound hclass
    | note _ hscopes hcallables _ =>
      exact h.keep rfl (congrArg ScopeTree.frame hscopes) (hold hcallables)

theorem start (path : Path) (ambient : List String) (root : Node) :
    (start path ambient root).Sound root where
  tree := ScopeTree.wellFormed_ofAmbient ambient
  fits := rfl
  file := rfl
  lies := by
    intro p hp
    change p ∈ [_] at hp
    rw [List.mem_singleton] at hp
    rw [hp]
    exact .inl .root
  around := by
    intro scope parent p hparent hp
    have hlt : scope < 1 := (List.getElem?_eq_some_iff.1 hp).1
    obtain rfl : scope = 0 := Nat.lt_one_iff.1 hlt
    cases hparent
  deferred := nofun

end Sound

/-- **The scopes of a history lie in the tree as their places do.** -/
theorem Reached.sound {path : Path} {ambient : List String} {source : String} {root : Node}
    {w : Trace} (h : Reached path ambient source root w) : w.Sound root := by
  induction h with
  | refl => exact .start path ambient root
  | tail _ hevent ih => exact ih.event hevent

/-! ## What is around a scope -/

namespace Sound

variable {root : Node} {w : Trace}

/-- **What lies in the place of a scope lies in the places of all scopes around it.** -/
theorem within_of_mem_chain (h : w.Sound root) {scope outer : ScopeId} {n : Node}
    (hlt : scope < w.builder.scopes.size) (houter : outer ∈ w.builder.scopes.chain scope)
    (hin : w.Within scope n) : w.Within outer n := by
  -- The induction goes outwards along the chain.
  induction scope using Nat.strongRecOn generalizing n with
  | _ scope ih =>
    rcases h.tree.chain_eq hlt with ⟨rfl, hchain⟩ | ⟨parent, hparent, hparent?, hchain⟩
    · rw [hchain, List.mem_singleton] at houter
      rwa [houter]
    · rw [hchain] at houter
      rcases List.mem_cons.1 houter with rfl | houter
      · exact hin
      · obtain ⟨p, hp, hn⟩ := hin
        obtain ⟨visit, hat⟩ := h.around scope parent p hparent? hp
        obtain ⟨q, hq, hpq⟩ := hat.within
        exact ih parent hparent (Nat.lt_trans hparent hlt) houter
          ⟨q, hq, mem_nodes_trans hn hpq⟩

/-- **Around the scope in which a part of a callable is visited** there is one whose place is the
callable. -/
theorem exists_callable (h : w.Sound root) (hroot : root.LaidOut) {scope : ScopeId}
    {visit visit' : Visit} {n c : Node} (hat : w.At scope visit n) (hn : n.span.Nonempty)
    (hway : Way root visit' c) (hdefers : visit'.defers c.kind) (hnc : n ∈ c.descendants) :
    ∃ outer ∈ w.builder.scopes.chain scope, w.places[outer]? = some ⟨.callable, c⟩ := by
  -- The induction goes outwards along the chain, until a place around the callable is met.
  induction scope using Nat.strongRecOn generalizing n visit with
  | _ scope ih =>
    obtain ⟨p, hp, halong⟩ := hat
    have hlt : scope < w.builder.scopes.size := by
      rw [← h.fits]
      exact (List.getElem?_eq_some_iff.1 hp).1
    have hpmem : p.node ∈ root.nodes := by
      rcases h.lies p (List.mem_of_getElem? hp) with hway | ⟨-, visit', hway, -⟩
      · exact hway.mem_nodes
      · exact hway.mem_nodes
    by_cases hcp : c ∈ p.node.nodes
    · -- The way from the place to the node passes through the callable.
      obtain ⟨between, hbetween, hpasses⟩ := halong.through hroot hpmem hn hcp hnc
      have hcallable : between = .callable := by
        by_contra hne
        have hc : c.span.Nonempty :=
          hn.of_contains (hroot.nested.contains hway.mem_nodes (mem_nodes_of_descendant hnc))
        obtain rfl := Way.unique hroot hway (h.way ⟨p, hp, hbetween⟩ hne) hc
        rw [hpasses] at hdefers
        cases hdefers
      obtain ⟨hvisit, rfl⟩ := hbetween.eq_of_callable hcallable
      refine ⟨scope, ScopeTree.self_mem_chain hlt, ?_⟩
      rw [hp, ← hvisit]
    · have hpc : p.node ∈ c.descendants := by
        rcases hroot.comparable_of_mem hway.mem_nodes hpmem hn (mem_nodes_of_descendant hnc)
          halong.mem_nodes with hcp' | hpc
        · exact absurd hcp' hcp
        · rcases mem_nodes_iff.1 hpc with heq | hpc
          · exact absurd (heq ▸ self_mem_nodes c) hcp
          · exact hpc
      rcases h.tree.chain_eq hlt with ⟨rfl, -⟩ | ⟨parent, hparent, hparent?, hchain⟩
      · -- The file does not lie in a callable.
        rw [h.file] at hp
        cases hp
        exact absurd (mem_descendants_trans hway.mem_nodes hpc) fun hlt =>
          Nat.lt_irrefl _ (size_lt_of_descendant hlt)
      · obtain ⟨visit, hat⟩ := h.around scope parent p hparent? hp
        obtain ⟨outer, houter, hplace⟩ := ih parent hparent hat
          (hn.of_contains (hroot.nested.contains hpmem halong.mem_nodes)) hpc
        rw [hchain]
        exact ⟨outer, List.mem_cons_of_mem _ houter, hplace⟩

end Sound

/-! ## The statements of a history -/

section Statements

variable {path : Path} {ambient : List String} {source : String} {root : Node} {w w' : Trace}

/-- An event adds one statement of the tree at most. -/
theorem Event.vertices (h : Event source root w w') :
    w'.builder.graph.vertices = w.builder.graph.vertices ∨ ∃ n x, x.key = n.key ∧ n ∈ root.nodes ∧
      root.HasStatement n ∧ (n.kind.form? = some .functionDecl → ∃ scope, w.At scope .link n) ∧
      w'.builder.graph = (w.builder.graph.addVertex x).2 := by
  cases h with
  | enter => exact .inl rfl
  | act hact =>
    cases hact with
    | use hu _ _ _ hperforms => exact .inl (hperforms.relates hu).vertices
    | vertex hkey hmem hown hat => exact .inr ⟨_, _, hkey, hmem, hown, hat, rfl⟩
    | connect _ hconnect => exact .inl (StatementGraph.of_connect hconnect).2.2.1
    | exported _ _ _ _ hconnect => exact .inl (StatementGraph.of_connect hconnect).2.2.1
    | note hgraph => exact .inl (congrArg StatementGraph.vertices hgraph)
    | _ => exact .inl rfl

/-- **The statements of the graph are statements of the tree**, each there once. -/
theorem Reached.stands (h : Reached path ambient source root w) : w.builder.graph.Stands root := by
  induction h with
  | refl =>
    exact ⟨by simp [start, Builder.start], by simp [start, Builder.start, StatementGraph.vertex?]⟩
  | tail _ hevent ih =>
    rcases hevent.vertices with heq | ⟨n, x, hkey, hmem, hown, -, heq⟩
    · exact ih.of_vertices_eq heq
    · rw [heq]
      exact ih.addVertex hmem hown hkey

/-- **Members are grounded** in all that a history reaches. -/
theorem Reached.grounded (h : Reached path ambient source root w) : w.builder.Grounded := by
  induction h with
  | refl => exact ScopeTree.grounded_ofAmbient ambient
  | tail _ hevent ih => exact hevent.grows.grounded ih

/-- **A function declaration in the graph is visited as a statement.** -/
theorem Reached.exists_way (h : Reached path ambient source root w) {x : Vertex}
    (hx : x ∈ w.builder.graph.vertices) (hform : x.key.kind.form? = some .functionDecl) :
    ∃ n, n.key = x.key ∧ root.HasStatement n ∧ Way root .link n := by
  induction h with
  | refl => simp [start, Builder.start] at hx
  | tail hreached hevent ih =>
    rcases hevent.vertices with heq | ⟨n, y, hkey, hmem, hown, hat, heq⟩
    · rw [heq] at hx
      exact ih hx
    · rw [heq] at hx
      rcases StatementGraph.mem_vertices_addVertex hx with hx | rfl
      · exact ih hx
      · rw [hkey] at hform
        obtain ⟨scope, hat⟩ := hat hform
        exact ⟨n, hkey.symm, hown, (Reached.sound hreached).way hat (by decide)⟩

end Statements

end Trace

end DeadCode
