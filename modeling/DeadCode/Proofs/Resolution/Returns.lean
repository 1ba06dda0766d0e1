import DeadCode.Proofs.Resolution.CallSites
import DeadCode.Proofs.Resolution.ExportClauses

/-! # Returns and the calls they answer

A `return` statement is noted with the callable whose body is being linked, and a call with the
callable that its callee stands for. The two lists are joined at the end of a file. Bodies are linked
one at a time and a body holds no statements of the callables in it, so a return is noted with the
innermost callable around it. -/

namespace DeadCode

/-! ## The callable around a node -/

namespace Node

variable {root body c d n m q : Node}

/-- **The innermost callable around a node**: a callable of the file that the node lies in, and that
lies in all others that the node lies in. -/
structure Encases (root c n : Node) : Prop where
  callable : c ∈ root.inner
  inside : n ∈ c.descendants
  innermost : ∀ d ∈ root.inner, n ∈ d.descendants → c ∈ d.nodes

/-- There is one innermost callable. -/
theorem Encases.unique (h : root.Encases c n) (h' : root.Encases d n) : c = d := by
  rcases mem_nodes_iff.1 (h.innermost d h'.callable h'.inside) with heq | hlt
  · exact heq
  rcases mem_nodes_iff.1 (h'.innermost c h.callable h.inside) with heq | hlt'
  · exact heq.symm
  · exact absurd (size_lt_of_descendant hlt) (Nat.lt_asymm (size_lt_of_descendant hlt'))

/-- A callable around a child of another node is around the node. -/
theorem LaidOut.mem_descendants_of_child (hroot : root.LaidOut) (hn : n ∈ root.nodes)
    (hkind : n.kind.isCallable = false) (hc : c ∈ n.children) (hmc : m ∈ c.nodes)
    (hm : m.span.Nonempty) (hq : q ∈ root.inner) (hcq : c ∈ q.descendants) :
    n ∈ q.descendants := by
  obtain ⟨hmem, hcallable⟩ := mem_inner.1 hq
  have hcroot := mem_nodes_trans (child_mem_nodes hc) hn
  have hne := hm.of_contains (hroot.nested.contains hcroot hmc)
  rcases mem_nodes_iff.1 (hroot.mem_nodes_of_child hn (mem_nodes_of_descendant hmem) hc hne hcq)
    with rfl | hnq
  · rw [hkind] at hcallable
    cases hcallable
  · exact hnq

theorem Nests.mem_descendants (hroot : root.LaidOut) (h : n.Nests m) (hn : n ∈ root.nodes)
    (hm : m.span.Nonempty) (hq : q ∈ root.inner) (hmq : m ∈ q.descendants) :
    n ∈ q.descendants := by
  induction h with
  | refl _ => exact hmq
  | nested hkind hc h ih =>
    refine hroot.mem_descendants_of_child hn ?_ hc h.mem_nodes hm hq
      (ih (mem_nodes_trans (child_mem_nodes hc) hn) hm hmq)
    exact Kind.isCallable_of_holdsStatements (Kind.holdsStatements_of_holdsDirectly hkind)
  | carried hkind hc h ih =>
    have hmem := mem_children_of_child? hc
    refine hroot.mem_descendants_of_child hn ?_ hmem h.mem_nodes hm hq
      (ih (mem_nodes_trans (child_mem_nodes hmem) hn) hm hmq)
    rw [hkind]
    rfl

theorem InBody.mem_descendants (h : body.InBody n) : n ∈ body.descendants := by
  obtain ⟨c, hc, -, hnests⟩ := h
  exact mem_descendants_of_child (mem_children_of_namedChildren hc) hnests.mem_nodes

theorem InBody.mem_nodes_of_callable (hroot : root.LaidOut) (h : body.InBody n)
    (hbody : body ∈ root.nodes) (hn : n.span.Nonempty) (hq : q ∈ root.inner)
    (hnq : n ∈ q.descendants) : body ∈ q.nodes := by
  obtain ⟨c, hc, -, hnests⟩ := h
  have hchild := mem_children_of_namedChildren hc
  have hcroot := mem_nodes_trans (child_mem_nodes hchild) hbody
  have hne := hn.of_contains (hroot.nested.contains hcroot hnests.mem_nodes)
  exact hroot.mem_nodes_of_child hbody (mem_nodes_of_descendant (mem_inner.1 hq).1) hchild hne
    (hnests.mem_descendants hroot hcroot hn hq hnq)

/-- **The statements in the body of a callable are encased by it.** -/
theorem InBody.encases (hroot : root.LaidOut) (h : body.InBody n) (hn : n.span.Nonempty)
    (hc : c ∈ root.inner) (hbody : c.child? .body = some body)
    (hkind : body.kind.isCallable = false) : root.Encases c n where
  callable := hc
  inside := mem_descendants_of_child (mem_children_of_child? hbody) h.mem_nodes
  innermost := by
    intro d hd hnd
    have hcroot := mem_nodes_of_descendant (mem_inner.1 hc).1
    have hchild := mem_children_of_child? hbody
    have hbroot := mem_nodes_trans (child_mem_nodes hchild) hcroot
    have hne := hn.of_contains (hroot.nested.contains hbroot h.mem_nodes)
    rcases mem_nodes_iff.1 (h.mem_nodes_of_callable hroot hbroot hn hd hnd) with rfl | hbd
    · rw [(mem_inner.1 hd).2] at hkind
      cases hkind
    · exact hroot.mem_nodes_of_child hcroot (mem_nodes_of_descendant (mem_inner.1 hd).1) hchild hne
        hbd

/-- What stands in the body of the file is in no callable. -/
theorem InBody.not_encases (hroot : root.LaidOut) (h : root.InBody n) (hn : n.span.Nonempty) :
    ¬ root.Encases c n := by
  intro hc
  have hmem := h.mem_nodes_of_callable hroot (self_mem_nodes root) hn hc.callable hc.inside
  have hlt := size_lt_of_descendant (mem_inner.1 hc.callable).1
  rcases mem_nodes_iff.1 hmem with rfl | hmem
  · exact Nat.lt_irrefl _ hlt
  · exact Nat.lt_asymm hlt (size_lt_of_descendant hmem)

/-- The returns of a body belong to a callable, or to none. -/
def ReturnsTo (root body : Node) (current : Option Key) : Prop :=
  ∀ n, body.InBody n → n.kind = .returnStatement → ∀ key,
    current = some key ↔ ∃ c, root.Encases c n ∧ c.key = key

theorem WellSpaced.nonempty_of_return (hroot : root.WellSpaced) (hn : n ∈ root.nodes)
    (hkind : n.kind = .returnStatement) : n.span.Nonempty :=
  hroot.statements n hn (.inl (.inl (by rw [hkind]; rfl)))

/-- The returns of the file are those of no callable. -/
theorem returnsTo_root (hroot : root.WellSpaced) : root.ReturnsTo root none := by
  intro n hn hkind key
  have hne := hroot.nonempty_of_return hn.mem_nodes hkind
  refine ⟨nofun, ?_⟩
  rintro ⟨c, hc, -⟩
  exact absurd hc (hn.not_encases hroot.laid hne)

/-- The returns of a body are those of its callable. -/
theorem returnsTo_body (hroot : root.WellSpaced) (hc : c ∈ root.inner)
    (hbody : c.child? .body = some body) (hblock : body.kind = .statementBlock) :
    root.ReturnsTo body (some c.key) := by
  intro n hn hkind key
  have hbroot := mem_descendants_trans (child_mem_nodes (mem_children_of_child? hbody))
    (mem_inner.1 hc).1
  have hne := hroot.nonempty_of_return
    (mem_nodes_trans hn.mem_nodes (mem_nodes_of_descendant hbroot)) hkind
  have hencases := hn.encases hroot.laid hne hc hbody (by rw [hblock]; rfl)
  constructor
  · rintro ⟨⟩
    exact ⟨c, hencases, rfl⟩
  · rintro ⟨d, hd, rfl⟩
    rw [hencases.unique hd]

end Node

/-! ## The returns that are noted -/

namespace Builder

open Node

/-- **The returns that are noted are those in the graph**, each with the innermost callable around
it, if there is one. A return that is `due` is still to be noted. The body that is being linked is
that of the `current` callable. -/
structure Returning (root : Node) (current : Option Key) (due : Node → Prop) (b : Builder) : Prop
    where
  positive : 0 < b.scopes.size
  stands : b.graph.Stands root
  callables : ∀ entry ∈ b.callables, entry.2.node ∈ root.descendants
  current : b.current = current
  sound : ∀ key v, (key, v) ∈ b.returns → ∃ c n, root.Encases c n ∧ c.key = key ∧
    n.kind = .returnStatement ∧ b.StandsFor v n
  complete : ∀ c n v, root.Encases c n → n.kind = .returnStatement → ¬ due n → b.StandsFor v n →
    (c.key, v) ∈ b.returns
  fresh : ∀ e ∈ b.graph.edges, e.relation.kind ≠ .returns

namespace Returning

variable {root n : Node} {current : Option Key} {due : Node → Prop} {b b' : Builder}

/-- At first nothing is returned. -/
theorem start (root : Node) (path : Path) (ambient : List String) :
    (Builder.start path ambient).Returning root none fun _ => False where
  positive := (ScopeTree.wellFormed_ofAmbient ambient).size_pos
  stands := ⟨by simp [Builder.start], by simp [Builder.start, StatementGraph.vertex?]⟩
  callables := by simp [Builder.start]
  current := rfl
  sound := by simp [Builder.start]
  complete := by
    rintro c n v - - - ⟨y, hy, -⟩
    cases hy
  fresh := by simp [Builder.start]

/-- Returns are a matter of statements and edges. -/
theorem of_eq (h : b.Returning root current due) {current' : Option Key}
    (hvertices : b'.graph.vertices = b.graph.vertices)
    (hedges : ∀ e ∈ b'.graph.edges, e ∈ b.graph.edges ∨ e.relation.kind ≠ .returns)
    (hscopes : b.scopes.size ≤ b'.scopes.size)
    (hcallables : ∀ entry ∈ b'.callables, entry ∈ b.callables ∨ entry.2.node ∈ root.descendants)
    (hreturns : b'.returns = b.returns) (hcurrent : b'.current = current') :
    b'.Returning root current' due where
  positive := Nat.lt_of_lt_of_le h.positive hscopes
  stands := h.stands.of_vertices_eq hvertices
  callables := fun entry hentry => (hcallables entry hentry).elim (h.callables entry) id
  current := hcurrent
  sound := by
    intro key v hmem
    rw [hreturns] at hmem
    obtain ⟨c, n, hc, hkey, hkind, hv⟩ := h.sound key v hmem
    exact ⟨c, n, hc, hkey, hkind, hv.of_extends (.of_vertices_eq hvertices)⟩
  complete := by
    intro c n v hc hkind hdue hv
    rw [hreturns]
    exact h.complete c n v hc hkind hdue (hv.of_extends (.of_vertices_eq hvertices.symm))
  fresh := fun e he => (hedges e he).elim (h.fresh e) id

theorem of_scopes (h : b.Returning root current due) {scopes : ScopeTree}
    (hscopes : b.scopes.size ≤ scopes.size) : Returning root current due { b with scopes } :=
  h.of_eq rfl (fun _ => .inl) hscopes (fun _ => .inl) rfl h.current

theorem declare (h : b.Returning root current due) {scope target : ScopeId} {binding : Binding}
    {hoist : Hoist} {scopes : ScopeTree}
    (hdeclare : b.scopes.declare scope binding hoist = .ok (target, scopes)) :
    Returning root current due { b with scopes } :=
  h.of_scopes (Nat.le_of_eq (ScopeTree.size_of_frame_eq (ScopeTree.frame_of_declare hdeclare)).symm)

theorem connect (h : b.Returning root current due) {u v : VertexId} {relation : Relation}
    {id : EdgeId} {graph : StatementGraph}
    (hconnect : b.graph.connect u v relation = .ok (id, graph)) (hkind : relation.kind ≠ .returns) :
    Returning root current due { b with graph } := by
  obtain ⟨-, -, hvertices, hedges⟩ := StatementGraph.of_connect hconnect
  refine h.of_eq hvertices (fun e he => ?_) (Nat.le_refl _) (fun _ => .inl) rfl h.current
  rcases (hedges e).1 he with hold | rfl
  · exact .inl hold
  · exact .inr hkind

/-- Adding a statement keeps the account. -/
theorem addVertex (h : b.Returning root current due) (hroot : root.WellSpaced) {x : Vertex}
    (hn : n ∈ root.nodes) (hstatement : root.HasStatement n) (hkey : x.key = n.key)
    (hnew : n.kind = .returnStatement → due n ∨ ∃ v, b.StandsFor v n) :
    Returning root current due { b with graph := (b.graph.addVertex x).2 } where
  positive := h.positive
  stands := h.stands.addVertex hn hstatement hkey
  callables := h.callables
  current := h.current
  sound := by
    intro key v hmem
    obtain ⟨c, m, hc, hckey, hkind, hv⟩ := h.sound key v hmem
    exact ⟨c, m, hc, hckey, hkind, hv.of_extends (b.graph.extends_addVertex x)⟩
  complete := by
    rintro c m v hc hkind hdue ⟨y, hy, hykey⟩
    rcases StatementGraph.vertex?_of_addVertex hy with hold | ⟨rfl, hfree⟩
    · exact h.complete c m v hc hkind hdue ⟨y, hold, hykey⟩
    · -- The new statement is the return, and it is the only one of its identity.
      have hm : m ∈ root.nodes := mem_nodes_of_descendant
        (mem_descendants_trans (mem_nodes_of_descendant hc.inside) (mem_inner.1 hc.callable).1)
      obtain rfl := hroot.eq_of_key hm hn (by rw [hkind]; rfl) (by decide) (hykey.symm.trans hkey)
      rcases hnew hkind with hnew | ⟨u, z, hz, hzkey⟩
      · exact absurd hnew hdue
      · exact absurd (hzkey.trans hkey.symm) (hfree u z hz)
  fresh := by
    intro e he
    rw [show _ = _ from StatementGraph.edges_addVertex b.graph x] at he
    exact h.fresh e he

theorem widen (h : b.Returning root current fun _ => False) : b.Returning root current due :=
  { h with complete := fun c n v hc hkind _ hv => h.complete c n v hc hkind id hv }

/-- **Noting a return keeps the account.** -/
theorem noteReturn (h : b.Returning root current (· = n)) {v : VertexId} (hv : b.StandsFor v n)
    (hkind : n.kind = .returnStatement)
    (hcurrent : ∀ key, current = some key ↔ ∃ c, root.Encases c n ∧ c.key = key) :
    Build.Keeps (Returning root current fun _ => False) b (Build.noteReturn v) Build.Anything := by
  have hsame {u : VertexId} (hu : b.StandsFor u n) : u = v := by
    obtain ⟨x, hx, hxkey⟩ := hu
    obtain ⟨y, hy, hykey⟩ := hv
    exact h.stands.distinct u v x y hx hy (hxkey.trans hykey.symm)
  cases hb : b.current with
  | none =>
    intro a b' hrun
    simp only [Build.noteReturn, Build.modify_apply, hb] at hrun
    cases hrun
    refine ⟨⟨.refl b, { h with complete := fun c m u hc hm _ hu => ?_ }⟩, trivial⟩
    by_cases heq : m = n
    · subst heq
      have hsome := (hcurrent c.key).2 ⟨c, hc, rfl⟩
      rw [← h.current, hb] at hsome
      cases hsome
    · exact h.complete c m u hc hm heq hu
  | some key =>
    intro a b' hrun
    simp only [Build.noteReturn, Build.modify_apply, hb] at hrun
    cases hrun
    have hkey : current = some key := h.current.symm.trans hb
    refine ⟨⟨⟨.refl _, Nat.le_refl _⟩, h.positive, h.stands, h.callables, hkey.symm, ?_, ?_,
      h.fresh⟩, trivial⟩
    · intro key' u hmem
      rcases Array.mem_push.1 hmem with hmem | heq
      · exact h.sound key' u hmem
      · cases heq
        obtain ⟨c, hc, hckey⟩ := (hcurrent key).1 hkey
        exact ⟨c, n, hc, hckey, hkind, hv⟩
    · intro c m u hc hm _ hu
      refine Array.mem_push.2 ?_
      by_cases heq : m = n
      · subst heq
        have hsome := (hcurrent c.key).2 ⟨c, hc, rfl⟩
        rw [hkey] at hsome
        exact .inr (Prod.ext (Option.some.inj hsome).symm (hsame hu))
      · exact .inl (h.complete c m u hc hm heq hu)

end Returning

end Builder

namespace Build

open Builder Node

/-! ## Statements -/

section Upkeep

variable {source : String} {root body : Node} {current : Option Key}

theorem nameUpkeep_returning (hroot : root.WellSpaced) (hgrammar : root.Grammatical)
    (hbody : body ∈ root.nodes) {due : Node → Prop} :
    NameUpkeep source root ScopeTree.globalId (· ∈ root.descendants) body.InBody (fun _ => True)
      (Returning root current due) where
  child := fun n c hn hc => mem_descendants_trans (child_mem_nodes hc) hn
  steady := by
    intro b b' hb hgraph hscopes hcallables hreturns hcurrent
    refine hb.of_eq (congrArg StatementGraph.vertices hgraph) ?_ ?_ ?_ hreturns
      (hcurrent.trans hb.current)
    · rw [hgraph]
      exact fun _ => .inl
    · exact Nat.le_of_eq (congrArg ScopeTree.size hscopes.symm)
    · rw [hcallables]
      exact fun _ => .inl
  relate := by
    intro b n u v relation id graph hb _ _ hkind _ hconnect
    refine hb.connect hconnect fun hreturns => ?_
    rw [hreturns] at hkind
    cases hkind
  method := by
    intro b n x hb hn hkind hkey _
    refine hb.addVertex hroot (mem_nodes_of_descendant hn) (.inl (.inr hkind)) hkey fun hreturn => ?_
    rw [hkind] at hreturn
    cases hreturn
  own := fun b u v id graph hb hconnect => hb.connect hconnect nofun
  register := by
    intro b n scope owner hb hn
    refine hb.of_eq rfl (fun _ => .inl) (Nat.le_refl _) (fun entry hentry => ?_) rfl hb.current
    rcases mem_setCallable hentry with rfl | hold
    · exact .inr hn
    · exact .inl hold
  store := fun b scope chain update hb _ =>
    hb.of_scopes (Nat.le_of_eq (ScopeTree.size_of_frame_eq (ScopeTree.frame_updateChain ..)).symm)
  grammatical := hgrammar
  mem_nodes := fun n hn => mem_nodes_trans hn.mem_nodes hbody
  region_of_within := by
    intro n hn
    rcases mem_nodes_iff.1 hbody with rfl | hbody
    · exact hn.mem_descendants
    · exact mem_descendants_trans hn.mem_nodes hbody
  nested := fun n c hn hkind hc => hn.nested hkind hc
  carried := fun n c hn hkind hc => hn.carried hkind hc
  standing_exported := fun _ _ _ _ _ => trivial
  standing_labeled := fun _ _ _ _ _ => trivial
  exported := fun b n u v name id graph hb _ _ _ hconnect => hb.connect hconnect nofun
  host_lt := fun b hb => hb.positive
  scope := fun b parent kind scope scopes hb hadd =>
    hb.of_scopes (Nat.le_of_lt (ScopeTree.lt_size_of_addScope hadd))
  declared := fun b n v scope binding target scopes hb _ _ _ _ _ _ hdeclare => hb.declare hdeclare
  hoisted := fun b n v scope binding target scopes hb _ _ _ _ _ hdeclare => hb.declare hdeclare

variable {b : Builder} {n : Node} {scope : ScopeId}

theorem returning_statementVertex (hroot : root.WellSpaced)
    (hb : b.Returning root current fun _ => False) (hn : n ∈ root.nodes) {form : Form}
    (hform : n.kind.form? = some form) (hreturn : form ≠ .returning) :
    Keeps (Returning root current fun _ => False) b (statementVertex source n scope)
      fun v b' => b'.StandsFor v n := by
  refine (Keeps.of_addVertex (hb.addVertex hroot hn (.of_form hform) rfl fun hkind => ?_)).imp
    fun _ _ _ hv => hv.2
  rw [hkind] at hform
  exact absurd (Option.some.inj hform).symm hreturn

theorem hoistUpkeep_returning (hroot : root.WellSpaced) (hgrammar : root.Grammatical)
    (hbody : body ∈ root.nodes) :
    HoistUpkeep source root ScopeTree.globalId (· ∈ root.descendants) body.InBody (fun _ => True)
      (Returning root current fun _ => False) where
  toNameUpkeep := nameUpkeep_returning hroot hgrammar hbody
  place := fun b n scope hb hn hform => by
    obtain ⟨form, hform, hhoisted⟩ := (Option.any_eq_true _ _).1 hform
    refine returning_statementVertex hroot hb (mem_nodes_trans hn.mem_nodes hbody) hform ?_
    rintro rfl
    cases hhoisted

theorem returning_return (hroot : root.WellSpaced) (hgrammar : root.Grammatical)
    (hbody : body ∈ root.nodes) (hreturns : root.ReturnsTo body current)
    (hb : b.Returning root current fun _ => False) (hn : body.InBody n)
    (hkind : n.kind = .returnStatement) (owner : Option VertexId) :
    Keeps (Returning root current fun _ => False) b (statement source n scope owner)
      fun _ b' => ∃ v, b'.StandsFor v n := by
  have hup (due : Node → Prop) : NameUpkeep source root ScopeTree.globalId (· ∈ root.descendants)
      body.InBody (fun _ => True) (Returning root current due) :=
    nameUpkeep_returning hroot hgrammar hbody
  have hform : n.kind.form? = some .returning := by rw [hkind]; rfl
  have hdue : b.Returning root current (· = n) := hb.widen
  have hvertex : Keeps (Returning root current (· = n)) b (statementVertex source n scope)
      fun v b' => b'.StandsFor v n := by
    refine (Keeps.of_addVertex (hdue.addVertex hroot (mem_nodes_trans hn.mem_nodes hbody)
      (.of_form hform) rfl fun _ => ?_)).imp fun _ _ _ hv => hv.2
    exact .inl rfl
  rw [statement, hform]
  refine hvertex.turn fun v b₁ h₁ hv => ?_
  refine (Keeps.forM_option h₁.holds fun _ _ => (hup (· = n)).keeps_own h₁.holds _ _).turn
    fun _ b₂ h₂ _ => ?_
  refine (h₂.holds.noteReturn (hv.mono h₂.grows) hkind (hreturns n hn hkind)).andThen
    fun _ b₃ h₃ => ?_
  refine ((hup fun _ => False).expressions h₃.holds ((hup fun _ => False).region_of_within n hn)).imp
    fun _ b₄ h₄ _ => ⟨v, hv.mono ?_⟩
  exact (h₂.grows.trans h₃.grows).trans h₄.grows

/-- **Linking a statement notes its returns.** -/
theorem nestUpkeep_returning (hroot : root.WellSpaced) (hgrammar : root.Grammatical)
    (hbody : body ∈ root.nodes) (hreturns : root.ReturnsTo body current) :
    NestUpkeep source root ScopeTree.globalId (· ∈ root.descendants) body.InBody (fun _ => True)
      (Returning root current fun _ => False) := by
  have hup : NameUpkeep source root ScopeTree.globalId (· ∈ root.descendants) body.InBody
      (fun _ => True) (Returning root current fun _ => False) :=
    nameUpkeep_returning hroot hgrammar hbody
  exact {
    toScopeUpkeep := hup.toScopeUpkeep
    vertex := fun b n x hb hn hstatement hkey _ hwhole =>
      hb.addVertex hroot (hup.mem_nodes n hn) hstatement hkey fun hkind =>
        .inr (hwhole (by rw [hkind]; rfl))
    headed := fun b n part v scope name target scopes hb _ _ _ _ _ _ _ hdeclare =>
      hb.declare hdeclare
    whole := by
      intro b n scope owner hb hn hwhole hstanding
      obtain ⟨form, hform, hwhole⟩ := (Option.any_eq_true _ _).1 hwhole
      by_cases hreturning : form = .returning
      · subst hreturning
        exact returning_return hroot hgrammar hbody hreturns hb hn (Kind.eq_of_form hform rfl) owner
      · have hdeclaration : form.isDeclaration := by
          cases form <;> simp_all [Form.isWhole, Form.isDeclaration]
        exact hup.declaration hn hstanding hform hdeclaration
          (returning_statementVertex hroot hb (hup.mem_nodes n hn) hform hreturning) owner }

/-- **Hoisting and linking the statements of a body** notes the returns in it. -/
theorem returning_block (hroot : root.WellSpaced) (hgrammar : root.Grammatical)
    (hbody : body ∈ root.nodes) (hreturns : root.ReturnsTo body current)
    (hb : b.Returning root current fun _ => False) (topLevel : Bool) (owner : Option VertexId) :
    Keeps (Returning root current fun _ => False) b (do
      hoistBody source body scope topLevel
      linkBody source body scope owner) Anything := by
  have hstatements : ∀ c ∈ body.namedChildren, c.kind.form?.isSome → body.InBody c :=
    fun c hc hform => ⟨c, hc, hform, .refl c⟩
  refine ((hoistUpkeep_returning hroot hgrammar hbody).hoistBody hb hstatements).andThen
    fun _ b₁ h₁ => ?_
  exact (nestUpkeep_returning hroot hgrammar hbody hreturns).linkBody h₁.holds hstatements
    (fun _ _ _ => trivial) owner

/-! ## Callables -/

/-- **Entering a callable notes the returns in its body.** -/
theorem enterUpkeep_returning (hroot : root.WellSpaced) (hgrammar : root.Grammatical) :
    EnterUpkeep source fun b => b.Valid root ∧ b.Returning root none fun _ => False where
  requeue := fun b queue hb => ⟨hb.1.requeue queue,
    hb.2.of_eq rfl (fun _ => .inl) (Nat.le_refl _) (fun _ => .inl) rfl hb.2.current⟩
  enter := by
    intro b key callable scope scopes ⟨hvalid, hb⟩ hcallable _ hadd
    refine Keeps.valid ?_ (outcome_entering hvalid source hcallable hadd)
    have hentry := mem_of_callable? hcallable
    have hplaced := hvalid.callables _ hentry
    have hmem : callable.node ∈ root.inner :=
      mem_inner.2 ⟨hb.callables _ hentry, (mem_callables.1 hplaced.mem).2⟩
    obtain rfl : callable.node.key = key := hplaced.key
    have hregion {n : Node} (hn : n ∈ callable.node.descendants) : n ∈ root.descendants :=
      mem_descendants_trans (mem_nodes_of_descendant hn) (mem_inner.1 hmem).1
    have hexpression {b' : Builder} {n : Node} {current : Option Key}
        (hb' : b'.Returning root current fun _ => False) (hn : n ∈ callable.node.descendants) :
        Keeps (Returning root current fun _ => False) b' (expression source n scope) Anything := by
      have hup : NameUpkeep source root ScopeTree.globalId (· ∈ root.descendants) root.InBody
          (fun _ => True) (Returning root current fun _ => False) :=
        nameUpkeep_returning hroot hgrammar (self_mem_nodes root)
      exact hup.expression (hregion hn) hb'
    have hb₀ : (b.entering callable.node.key callable scopes).Returning root none fun _ => False :=
      hb.of_eq rfl (fun _ => .inl) (Nat.le_of_lt (ScopeTree.lt_size_of_addScope hadd))
        (fun _ => .inl) rfl hb.current
    refine keeps_entered (Returning root (some callable.node.key) fun _ => False) hb₀
      (fun _ b' hb' => .of_declare fun _ _ hrun => hb'.declare hrun)
      (fun _ _ _ hparameters hparameter hvalue _ h' => hexpression h'.holds
        (mem_descendants_of_defaultValue? hparameters hparameter hvalue))
      (fun b' hb' => hb'.of_eq rfl (fun _ => .inl) (Nat.le_refl _) (fun _ => .inl) rfl rfl)
      (fun b' b'' hb' hb'' => ?_) (fun body b' hbody hblock _ hb' => ?_)
      fun body b' hbody _ _ hb' => ?_
    · exact hb''.of_eq rfl (fun _ => .inl) (Nat.le_refl _) (fun _ => .inl) rfl hb'.current
    · exact returning_block hroot hgrammar
        (mem_nodes_of_descendant (hregion (child_mem_descendants (mem_children_of_child? hbody))))
        (returnsTo_body hroot hmem hbody hblock) hb' false _
    · exact hexpression hb' (child_mem_descendants (mem_children_of_child? hbody))

end Upkeep

/-! ## Joining returns and calls -/

section Joining

variable {b : Builder} {γ : Type}

/-- Edges are added, and nothing else changes. -/
structure Adds (new : Edge → Prop) (b b' : Builder) : Prop where
  vertices : b'.graph.vertices = b.graph.vertices
  sites : b'.callSites = b.callSites
  edges : ∀ e, e ∈ b'.graph.edges ↔ e ∈ b.graph.edges ∨ new e

theorem adds_connect (b : Builder) (u v : VertexId) (relation : Relation) :
    Keeps (Adds (· = ⟨u, v, relation⟩) b) b (connect u v relation) Anything := by
  refine .of_connect fun id graph hconnect => ?_
  obtain ⟨-, -, hvertices, hedges⟩ := StatementGraph.of_connect hconnect
  exact ⟨hvertices, rfl, hedges⟩

/-- The edges that a loop adds. -/
theorem adds_forM {xs : List γ} {visit : γ → Build Unit} {new : γ → Edge → Prop}
    (h : ∀ x ∈ xs, ∀ b, Keeps (Adds (new x) b) b (visit x) Anything) :
    Keeps (Adds (fun e => ∃ x ∈ xs, new x e) b) b (xs.forM visit) Anything := by
  induction xs generalizing b with
  | nil => exact .pure ⟨rfl, rfl, by simp⟩ trivial
  | cons x rest ih =>
    rw [List.forM_eq_forM, List.forM_cons]
    refine (h x List.mem_cons_self b).turn fun _ b₁ h₁ _ => ?_
    refine (ih fun y hy => h y (List.mem_cons_of_mem _ hy)).weaken fun b₂ h₂ => ?_
    refine ⟨h₂.vertices.trans h₁.holds.vertices, h₂.sites.trans h₁.holds.sites, fun e => ?_⟩
    rw [h₂.edges, h₁.holds.edges, or_assoc, List.exists_mem_cons_iff]

/-- **The edges that relate returns to calls**: one from each return that is noted to each call that
is noted with the same callable. -/
theorem adds_connectReturns (b : Builder) :
    Keeps (Adds (fun e => ∃ key, (key, e.target) ∈ b.callSites ∧ (key, e.source) ∈ b.returns ∧
      e.relation = { kind := .returns }) b) b connectReturns Anything := by
  have hjoined : Keeps (Adds (fun e => ∃ site ∈ b.callSites.toList,
      ∃ note ∈ b.returns.toList.filter (·.1 = site.1), e = ⟨note.2, site.2, { kind := .returns }⟩) b)
      b connectReturns Anything :=
    .bind_get (adds_forM fun site _ _ => adds_forM fun note _ b' => adds_connect b' note.2 site.2 _)
  refine hjoined.weaken fun b' hb' => ⟨hb'.vertices, hb'.sites, fun e => ?_⟩
  rw [hb'.edges]
  refine or_congr_right ⟨?_, ?_⟩
  · rintro ⟨⟨key, site⟩, hsite, ⟨key', v⟩, hnote, rfl⟩
    obtain ⟨hmem, hkey⟩ := List.mem_filter.1 hnote
    obtain rfl : key' = key := by simpa using hkey
    exact ⟨key', Array.mem_toList_iff.1 hsite, Array.mem_toList_iff.1 hmem, rfl⟩
  · rintro ⟨key, hsite, hnote, hrelation⟩
    refine ⟨(key, e.target), Array.mem_toList_iff.2 hsite, (key, e.source), ?_, ?_⟩
    · exact List.mem_filter.2 ⟨Array.mem_toList_iff.2 hnote, by simp⟩
    · rw [← hrelation]

end Joining

end Build

open Builder Node

/-- **The returns of a file are known**, once all its callables are entered. -/
theorem exists_returning_of_file {path : Path} {source : String} {root : Node} {ambient : List String}
    {b' : Builder} (hroot : root.WellSpaced) (hgrammar : root.Grammatical)
    (h : Build.file source root (start path ambient) = .ok ((), b')) :
    ∃ b : Builder, (b.Returning root none fun _ => False) ∧
      Build.connectReturns b = .ok ((), b') := by
  have htop : Build.Keeps (Returning root none fun _ => False) (start path ambient)
      (Build.topLevel source root) Build.Anything :=
    Build.returning_block hroot hgrammar (self_mem_nodes root) (returnsTo_root hroot)
      (.start root path ambient) true none
  obtain ⟨b, hb, hreturns⟩ := exists_of_file_phases
    (htop.valid (Build.outcome_topLevel (valid_start root path ambient) source))
    (Build.enterUpkeep_returning hroot hgrammar) h
  exact ⟨b, hb.2, hreturns⟩

namespace StatementGraph

/-- A statement is a `return` statement, and a callable is the innermost one around it. -/
def IsReturnOf (root : Node) (graph : StatementGraph) (v : VertexId) (c : Node) : Prop :=
  ∃ n, root.Encases c n ∧ n.kind = .returnStatement ∧ graph.vertexByKey? n.key = some v

/-- An edge of some kind goes from one statement to another. -/
def Relates (graph : StatementGraph) (u v : VertexId) (kind : RelationKind) : Prop :=
  ∃ e ∈ graph.edges, e.source = u ∧ e.target = v ∧ e.relation.kind = kind

/-- **Returns are related to the calls of their callables.** Linking a file notes all its calls, with
what the names of their callees led to. There is a `return` edge from one statement to another exactly
if the one is a return of a callable and the other holds a call that led to this callable when it was
linked, and from every statement with such a call there is a `call` edge too. -/
theorem exists_returns_relate (path : Path) (source : String) {root : Node} (ambient : List String)
    (hroot : root.WellSpaced) (hgrammar : root.Grammatical) (hdistinct : root.DistinctCallables) :
    ∃ b, Build.file source root (start path ambient) = .ok ((), b) ∧
      build? path source root ambient = .ok (b.graph, b.scopes) ∧
      (∀ u n chain, root.Seen source (.use u) → u.callee? = some (n, chain) →
        ∃ call ∈ b.calls, call.call = n ∧ call.chain = chain) ∧
      (∀ r s, b.graph.Relates r s .returns ↔
        ∃ c ∈ root.callables, b.graph.IsReturnOf root r c ∧ ∃ call ∈ b.calls, call.Calls c.key s) ∧
      ∀ call ∈ b.calls, call.call ∈ root.nodes ∧ ∀ key s, call.Calls key s →
        (∃ x, b.graph.vertex? s = some x ∧ x.span.contains call.call.span) ∧
          ∃ t, b.graph.Relates s t .call := by
  obtain ⟨graph, scopes, hbuild⟩ := exists_build?_of_nested path source ambient hroot.laid.nested
  obtain ⟨b', hfile, rfl, rfl⟩ := exists_file_of_build? hbuild
  obtain ⟨w, rfl, hbetween, hmet⟩ := Trace.exists_of_file hroot.laid.nested hgrammar hfile
  have haccounts := Trace.Accounts.of_incidents hbetween.incidents
  obtain ⟨b, hb, hreturns⟩ := exists_returning_of_file hroot hgrammar hfile
  have hadds := (Build.adds_connectReturns b () w.builder hreturns).1.holds
  have hstands : w.builder.graph.Stands root := hb.stands.of_vertices_eq hadds.vertices
  refine ⟨w.builder, hfile, hbuild, fun u n chain hseen hcallee => ?_, fun r s => ⟨?_, ?_⟩,
    fun call hcall => ⟨haccounts.inside call hcall, fun key s hcalls => ⟨?_, ?_⟩⟩⟩
  · obtain ⟨⟨leaf, scope, during⟩, hlog, rfl, -⟩ := hmet hdistinct (.use u) hseen
    exact haccounts.met u scope during hlog n chain hcallee
  · -- Nothing but joining the two lists adds such an edge.
    rintro ⟨e, he, rfl, rfl, hkind⟩
    rcases (hadds.edges e).1 he with hold | ⟨key, hsite, hnote, -⟩
    · exact absurd hkind (hb.fresh e hold)
    · obtain ⟨c, n, hc, rfl, hreturn, hv⟩ := hb.sound key e.source hnote
      obtain ⟨y, hy, hkey⟩ := hv.of_extends (.of_vertices_eq hadds.vertices)
      refine ⟨c, mem_callables_of_mem_inner hc.callable, ⟨n, hc, hreturn, ?_⟩, ?_⟩
      · rw [← hkey]
        exact hstands.vertexByKey?_eq hy
      · rw [← haccounts.sites, hadds.sites]
        exact hsite
  · rintro ⟨c, -, ⟨n, hc, hreturn, hr⟩, hcalls⟩
    rw [← haccounts.sites, hadds.sites] at hcalls
    have hv : w.builder.StandsFor r n := exists_of_vertexByKey? hr
    have hnote := hb.complete c n r hc hreturn id
      (hv.of_extends (.of_vertices_eq hadds.vertices.symm))
    exact ⟨⟨r, s, { kind := .returns }⟩, (hadds.edges _).2 (.inr ⟨c.key, hcalls, hnote, rfl⟩), rfl,
      rfl, rfl⟩
  · exact haccounts.around call hcall s hcalls.2
  · obtain ⟨e, he, hsource, hkind⟩ := haccounts.edges call hcall key s hcalls
    exact ⟨e.target, e, he, hsource, rfl, hkind⟩

/-- The function of `function f() { return 1; }`. -/
def returningFunction : Node :=
  .of .functionDeclaration 0 26
    [.keyword .functionLiteral 0 8, .part .name (.of .identifier 9 10),
     .part .parameters (.of .formalParameters 10 12 [.token "(" 10 11, .token ")" 11 12]),
     .part .body (.of .statementBlock 13 26
       [.token "\x7b" 13 14,
        .of .returnStatement 15 24
          [.token "return" 15 21, .of .numberLiteral 22 23, .token ";" 23 24],
        .token "\x7d" 25 26])]

/-- The function and a call of it. -/
def returningText : String :=
  "function f() \x7b return 1; \x7d\nf();"

/-- The tree of `returningText`. -/
def returningFile : Node :=
  .of (.other "program") 0 31
    [returningFunction,
     .of .expressionStatement 27 31
       [.of .callExpression 27 30
          [.part .function (.of .identifier 27 28),
           .part .arguments (.of (.other "arguments") 28 30 [.token "(" 28 29, .token ")" 29 30])],
        .token ";" 30 31]]

/-- The return in the function is related to the call of it, which led to the function. -/
theorem exists_returns_relate_returningFile :
    returningFile.WellSpaced ∧ returningFile.Grammatical ∧ returningFile.DistinctCallables ∧
    ∃ b, Build.file returningText returningFile (start ⟨"/app/a.js"⟩ []) = .ok ((), b) ∧
      b.graph.Relates 2 1 .returns ∧ ∃ call ∈ b.calls,
        call.Calls returningFunction.key 1 ∧ ∃ t, b.graph.Relates 1 t .call := by
  have hfile : returningFile.WellSpaced ∧ returningFile.Grammatical ∧
      returningFile.DistinctCallables := by decide +kernel
  obtain ⟨hroot, hgrammar, hdistinct⟩ := hfile
  refine ⟨hroot, hgrammar, hdistinct, ?_⟩
  obtain ⟨b, hrun, hbuild, -, hreturns, hcalls⟩ := exists_returns_relate ⟨"/app/a.js"⟩
    returningText [] hroot hgrammar hdistinct
  obtain ⟨r, hbuilt, hedge⟩ := exists_ok_of_decide
    (x := build? ⟨"/app/a.js"⟩ returningText returningFile [])
    (p := fun r => ⟨2, 1, { kind := .returns }⟩ ∈ r.1.edges) (by decide +kernel)
  cases hbuild.symm.trans hbuilt
  have hrelates : b.graph.Relates 2 1 .returns := ⟨_, hedge, rfl, rfl, rfl⟩
  obtain ⟨c, hc, ⟨n, hencases, -⟩, call, hcall, hleads⟩ := (hreturns 2 1).1 hrelates
  have hcallables : ∀ c ∈ returningFile.callables,
      c.key = returningFunction.key ∨ c.descendants = [] := by decide +kernel
  have hkey := (hcallables c hc).resolve_right (List.ne_nil_of_mem hencases.inside)
  rw [hkey] at hleads
  exact ⟨b, hrun, hrelates, call, hcall, hleads, ((hcalls call hcall).2 _ _ hleads).2⟩

end StatementGraph

end DeadCode
