import DeadCode.Proofs.Resolution.Upkeep
import DeadCode.Proofs.Syntax.FileScope

/-! # Invariants that statements in statements keep

Statements hold other statements, and both hoisting and linking go through them from the outside to
the inside. The way there adds statements and scopes and resolves expressions; the declarations and
returns at the end of it are hoisted and linked as a whole. -/

namespace DeadCode

/-- Whether statements of a form are linked as a whole: no statement is linked in them. -/
def Form.isWhole : Form → Bool
  | importDecl | functionDecl | classDecl | lexicalDecl | varDecl | returning => true
  | _ => false

namespace Kind

variable {kind : Kind}

theorem isCallable_of_holdsStatements (h : kind.holdsStatements) : kind.isCallable = false := by
  cases kind <;> first | rfl | simp [holdsStatements, isCompound, form?, isClause] at h

end Kind

namespace Node

/-- **A statement lies in another in the same body**: the way to it goes through statements and
clauses only. -/
inductive Nests : Node → Node → Prop where
  | refl (n : Node) : Nests n n
  | nested {n c m : Node} (hkind : n.kind.holdsDirectly) (hc : c ∈ n.children) (h : Nests c m) :
      Nests n m
  | carried {n c m : Node} (hkind : n.kind = .exportStatement)
      (hc : n.child? .declaration = some c) (h : Nests c m) : Nests n m

/-- A node lies in a body, on the way through statements and clauses from a statement at its top. -/
def InBody (body n : Node) : Prop :=
  ∃ c ∈ body.namedChildren, c.kind.form?.isSome ∧ c.Nests n

variable {root n c m : Node}

theorem HasStatement.of_form {form : Form} (h : n.kind.form? = some form) : root.HasStatement n :=
  .inl (.inl (by rw [h]; rfl))

theorem Nests.mem_nodes (h : n.Nests m) : m ∈ n.nodes := by
  induction h with
  | refl n => exact self_mem_nodes n
  | nested _ hc _ ih => exact mem_nodes_trans ih (child_mem_nodes hc)
  | carried _ hc _ ih => exact mem_nodes_trans ih (child_mem_nodes (mem_children_of_child? hc))

theorem Nests.trans {k : Node} (h : n.Nests m) (hk : m.Nests k) : n.Nests k := by
  induction h with
  | refl _ => exact hk
  | nested hkind hc _ ih => exact .nested hkind hc (ih hk)
  | carried hkind hc _ ih => exact .carried hkind hc (ih hk)

theorem InBody.mem_nodes (h : n.InBody m) : m ∈ n.nodes := by
  obtain ⟨c, hc, -, hnests⟩ := h
  exact mem_nodes_trans hnests.mem_nodes (child_mem_nodes (mem_children_of_namedChildren hc))

/-- What is nested in a body is in it. -/
theorem InBody.nested (h : n.InBody m) (hkind : m.kind.holdsDirectly) (hc : c ∈ m.children) :
    n.InBody c := by
  obtain ⟨t, ht, hform, hnests⟩ := h
  exact ⟨t, ht, hform, hnests.trans (.nested hkind hc (.refl c))⟩

theorem InBody.carried (h : n.InBody m) (hkind : m.kind = .exportStatement)
    (hc : m.child? .declaration = some c) : n.InBody c := by
  obtain ⟨t, ht, hform, hnests⟩ := h
  exact ⟨t, ht, hform, hnests.trans (.carried hkind hc (.refl c))⟩

end Node

/-- What a statement declares, by itself or as an `export` statement, is in the graph. -/
def Builder.HasCarried (n : Node) (b : Builder) : Prop :=
  ∀ d, n.Carries d → d.kind.form?.isSome → d.kind.form? ≠ some .block → ∃ v, b.StandsFor v d

namespace Build

open Builder Node

/-! ## Scopes on the way -/

/-- **Upkeep of an invariant on the way to a statement**: adding a scope and relating an `export`
statement keep the invariant. The statements lie `within` the part of the region that no callable
encloses, and those linked in the scope of the body, the `host`, are `standing` at its top. -/
structure ScopeUpkeep (root : Node) (host : ScopeId) (region within standing : Node → Prop)
    (inv : Builder → Prop) : Prop extends Upkeep region inv where
  grammatical : root.Grammatical
  mem_nodes : ∀ n, within n → n ∈ root.nodes
  region_of_within : ∀ n, within n → region n
  nested : ∀ n c, within n → n.kind.holdsDirectly → c ∈ n.children → within c
  carried : ∀ n c, within n → n.kind = .exportStatement → n.child? .declaration = some c → within c
  standing_exported : ∀ n c, standing n → n.kind = .exportStatement →
    n.child? .declaration = some c → standing c
  standing_labeled : ∀ n c, standing n → n.kind = .labeledStatement → n.child? .body = some c →
    standing c
  /-- An `export` statement is related to what it declares. -/
  exported : ∀ (b : Builder) n u v name id graph, inv b → within n → n.kind = .exportStatement →
    b.StandsFor u n → b.graph.connect u v (.named .read name) = .ok (id, graph) →
    inv { b with graph }
  /-- There is a scope of the body. -/
  host_lt : ∀ b, inv b → host < b.scopes.size
  /-- A scope is added. -/
  scope : ∀ (b : Builder) parent kind scope scopes, inv b →
    b.scopes.addScope parent kind = .ok (scope, scopes) → inv { b with scopes }

namespace ScopeUpkeep

variable {source : String} {root : Node} {host : ScopeId} {region within standing : Node → Prop}
  {inv : Builder → Prop} {b : Builder} {n : Node} {scope : ScopeId} {vertex : VertexId}
  (h : ScopeUpkeep root host region within standing inv)

include h

theorem withinNamed {c : Node} (hn : within n) (hkind : n.kind.holdsDirectly)
    (hc : c ∈ n.namedChildren) : within c :=
  h.nested n c hn hkind (mem_children_of_namedChildren hc)

theorem withinVisits {topLevel : Bool} {d : Node × Bool} (hn : n.kind.form?.isSome → within n)
    (hd : d ∈ n.statementVisits topLevel) : within d.1 :=
  of_mem_statementVisits (P := fun n _ => within n)
    (fun n c _ hn hkind hc => h.nested n c hn hkind (mem_children_of_namedChildren hc))
    (fun n c _ => h.carried n c) hn hd

theorem addScope (hb : inv b) (parent : ScopeId) (kind : ScopeKind) :
    Keeps inv b (Build.addScope parent kind) fun scope _ => scope ≠ host := by
  intro scope b' hrun
  refine ⟨(Keeps.of_addScope (fun _ _ hadd => h.scope _ _ _ _ _ hb hadd) scope b' hrun).1, ?_⟩
  obtain ⟨scopes, hadd, -⟩ := exists_of_addScope_ok hrun
  rw [(ScopeTree.frame_of_addScope hadd).2.1]
  exact Nat.ne_of_gt (h.host_lt b hb)

theorem expressions (hb : inv b) (hn : region n) :
    Keeps inv b (Build.expressions source n scope) Anything :=
  .forM hb fun _ hc _ hb' => h.expression (h.named hn hc) hb'.holds

theorem returning (hn : within n) (hform : n.kind.form? = some .returning) (hnoted : Steady inv)
    (hvertex : Keeps inv b (Build.statementVertex source n scope) fun v b' => b'.StandsFor v n)
    (owner : Option VertexId) :
    Keeps inv b (Build.statement source n scope owner) fun _ b' => ∃ v, b'.StandsFor v n := by
  rw [Build.statement, hform]
  refine hvertex.bind fun v b₁ h₁ hv => ?_
  refine (Keeps.forM_option h₁.holds fun _ _ => h.keeps_own h₁.holds _ _).andThen fun _ b₂ h₂ => ?_
  refine (keeps_noteReturn hnoted h₂.holds v).andThen fun _ b₃ h₃ => ?_
  exact (h.expressions h₃.holds (h.region_of_within n hn)).imp fun _ b₄ h₄ _ =>
    ⟨v, hv.mono ((h₂.trans h₃).trans h₄).grows⟩

end ScopeUpkeep

/-! ## Linking -/

/-- **Upkeep of an invariant by linking**: what linking declarations and returns as a whole does
keeps the invariant, and so do the names that the headers of loops and handlers bind. -/
structure NestUpkeep (source : String) (root : Node) (host : ScopeId)
    (region within standing : Node → Prop) (inv : Builder → Prop) : Prop
    extends ScopeUpkeep root host region within standing inv where
  /-- A statement gets its place in the graph. One that is linked as a whole has it already. -/
  vertex : ∀ (b : Builder) n x, inv b → within n → root.HasStatement n → x.key = n.key →
    x.isDeclaration = n.kind.isDeclaration →
    (n.kind.form?.any Form.isWhole → ∃ v, b.StandsFor v n) →
    inv { b with graph := (b.graph.addVertex x).2 }
  /-- A loop or a handler binds a name in a scope of its own. -/
  headed : ∀ (b : Builder) n part v scope name target scopes, inv b → within n →
    n.kind.form? = some .iteration ∨ n.kind.form? = some .guarded → b.StandsFor v n →
    part ∈ root.nodes → part.kind = .forInStatement ∨ part.kind = .catchClause →
    name ∈ part.otherNames source → scope ≠ host →
    b.scopes.declare scope (.declared name v) .lexical = .ok (target, scopes) →
    inv { b with scopes }
  /-- A declaration or a `return` statement is linked. -/
  whole : ∀ (b : Builder) n scope owner, inv b → within n → n.kind.form?.any Form.isWhole →
    (scope = host → standing n) →
    Keeps inv b (Build.statement source n scope owner) fun _ b' => ∃ v, b'.StandsFor v n

namespace NestUpkeep

variable {source : String} {root n body : Node} {host scope : ScopeId}
  {region within standing : Node → Prop} {inv : Builder → Prop} {b : Builder} {vertex : VertexId}
  (h : NestUpkeep source root host region within standing inv)

include h

theorem statementVertex (hb : inv b) (hn : within n) (hstatement : root.HasStatement n)
    (hwhole : n.kind.form?.any Form.isWhole → ∃ v, b.StandsFor v n) :
    Keeps inv b (Build.statementVertex source n scope) fun v b' => b'.StandsFor v n :=
  (Keeps.of_addVertex (h.vertex b n _ hb hn hstatement rfl rfl hwhole)).imp fun _ _ _ hv => hv.2

theorem declareNames (hb : inv b) (hn : within n)
    (hform : n.kind.form? = some .iteration ∨ n.kind.form? = some .guarded)
    (hv : b.StandsFor vertex n) (hscope : scope ≠ host) {part : Node} (hpart : part ∈ root.nodes)
    (hkind : part.kind = .forInStatement ∨ part.kind = .catchClause) {names : List String}
    (hnames : ∀ name ∈ names, name ∈ part.otherNames source) :
    Keeps inv b (Build.declareNames scope names vertex) Anything :=
  .forM hb fun name hname b' hb' => .of_declare fun target scopes hdeclare =>
    h.headed b' n part vertex scope name target scopes hb'.holds hn hform (hv.mono hb'.grows) hpart
      hkind (hnames name hname) hscope hdeclare

theorem entered {α : Type} (hb : inv b) (hn : within n) {form : Form}
    (hform : n.kind.form? = some form) (hwhole : ¬ form.isWhole) {owner : Option VertexId}
    {next : VertexId → Build α} {post : α → Builder → Prop}
    (hnext : ∀ v b', b.Later inv b' → b'.StandsFor v n → Keeps inv b' (next v) post) :
    Keeps inv b (do
      let vertex ← Build.statementVertex source n scope
      owner.forM fun owner => connect owner vertex { kind := .decl }
      next vertex) post := by
  refine (h.statementVertex hb hn (.of_form hform) fun hform' => ?_).bind fun v b₁ h₁ hv => ?_
  · rw [hform] at hform'
    exact absurd hform' hwhole
  · refine (Keeps.forM_option h₁.holds fun _ _ => h.keeps_own h₁.holds _ _).andThen fun _ b₂ h₂ => ?_
    exact hnext v b₂ (h₁.trans h₂) (hv.mono h₂.grows)

/-- What holds no statement is linked as a whole. -/
theorem plain (hb : inv b) (hn : within n) (hstanding : scope = host → standing n) {form : Form}
    (hform : n.kind.form? = some form) (hnesting : form.isNesting = false)
    (owner : Option VertexId) :
    Keeps inv b (Build.statement source n scope owner) fun _ b' => ∃ v, b'.StandsFor v n := by
  by_cases hwhole : form.isWhole
  · exact h.whole b n scope owner hb hn (by rw [hform]; exact hwhole) hstanding
  rw [Build.statement, hform]
  cases form with
  | inert =>
    exact h.entered hb hn hform hwhole fun v b₁ h₁ hv => .pure h₁.holds ⟨v, hv⟩
  | throwing | expression =>
    exact h.entered hb hn hform hwhole fun v b₁ h₁ hv =>
      (h.expressions h₁.holds (h.region_of_within n hn)).imp fun _ _ h₂ _ => ⟨v, hv.mono h₂.grows⟩
  | importDecl | functionDecl | classDecl | lexicalDecl | varDecl | returning =>
    exact absurd rfl hwhole
  | _ => cases hnesting

theorem exposed (hb : inv b) (hn : within n) (hv : b.StandsFor vertex n)
    (hform : n.kind.form? = some .exportDecl) {d : Node} (hd : n.child? .declaration = some d)
    (hcarried : b.HasCarried d) :
    Keeps inv b (do
      let target ← Build.statementVertex source d scope
      (d.boundNames source).forM fun name => connect vertex target (.named .read name))
      fun _ b' => ∃ v, b'.StandsFor v d := by
  have hkind := Kind.eq_of_form hform rfl
  -- Linking a declaration has given it a place in the graph.
  have hlinked (hwhole : d.kind.form?.any Form.isWhole) : ∃ v, b.StandsFor v d := by
    refine hcarried d (.inl rfl) ?_ ?_ <;>
      cases hdform : d.kind.form? with
      | none => simp [hdform] at hwhole
      | some form => cases form <;> simp [hdform, Form.isWhole] at hwhole ⊢
  refine (h.statementVertex hb (h.carried n d hn hkind hd) (.inr ⟨n, h.mem_nodes n hn, hkind, hd⟩)
    hlinked).bind fun target b₁ h₁ htarget => ?_
  refine Keeps.imp (.forM h₁.holds fun name _ b₂ h₂ => .of_connect fun id graph hconnect => ?_ :
    Keeps inv b₁ _ Anything) fun _ b₂ h₂ _ => ⟨target, htarget.mono h₂.grows⟩
  exact h.exported b₂ n vertex target name id graph h₂.holds hn hkind
    (hv.mono (h₁.trans h₂).grows) hconnect

/-- **The steps of a statement keep the invariant.** -/
def passage : Passage (keeping inv) source root where
  due _ scope _ n := within n ∧ (scope = host → standing n)
  inside s scope v n := within n ∧ s.1.StandsFor v n ∧ (scope = host → standing n)
  amid s _ v n m := (within n ∧ s.1.StandsFor v n) ∧ within m
  opened s scope v n m := (within n ∧ s.1.StandsFor v n) ∧ within m ∧ scope ≠ host
  linked s n := s.1.HasCarried n
  walk _ scope := h.walk source scope
  due_later _ hn := hn
  inside_later hlater hn := ⟨hn.1, hn.2.1.mono hlater.grows, hn.2.2⟩
  opened_later hlater hm := ⟨⟨hm.1.1, hm.1.2.mono hlater.grows⟩, hm.2⟩
  linked_other hother := by
    rintro d (rfl | ⟨hkind, -⟩) hform hblock
    · rcases hother with hother | hother <;> simp [hother] at hform hblock
    · rw [hkind] at hother
      rcases hother with hother | hother <;> cases hother
  linked_inside hn hexport := by
    rintro d (rfl | ⟨hkind, hd⟩) - -
    · exact ⟨_, hn.2.1⟩
    · rw [hexport (by rw [hkind]; rfl)] at hd
      cases hd
  mem_nodes hn := h.mem_nodes _ hn.1
  whole {s _ _ n _} hn hform hnesting := by
    refine (h.plain s.2 hn.1 hn.2 hform hnesting _).to_logic fun _ s' hv => ?_
    rintro d (rfl | ⟨hkind, -⟩) - -
    · exact hv
    · rw [hkind] at hform
      cases hform
      cases hnesting
  enter {s _ _ n form _ _ _} hn hform hnesting _ hnext :=
    h.entered s.2 hn.1 hform (by cases form <;> simp_all [Form.isWhole, Form.isNesting])
      fun v b' hlater hv => hnext v ⟨b', hlater.holds⟩ hlater ⟨hn.1, hv, hn.2⟩
  amid_self hn _ := ⟨⟨hn.1, hn.2.1⟩, hn.1⟩
  amid_child hm hkind hc := ⟨hm.1, h.nested _ _ hm.2 (hkind h.grammatical).1.1 hc⟩
  header hm _ _ hc := h.field (h.region_of_within _ hm.2) hc
  exportValue hn _ _ hc := h.field (h.region_of_within _ hn.1) hc
  clause hn _ _ hpart _ := h.child _ _ (h.region_of_within _ hn.1) (mem_children_of_childrenAt hpart)
  listed {s _ _ n _ _ _} hn _ _ _ _ hclause _ hspecifier hname := (relating inv).reference
    (h.relatable s.1 (h.field (h.named (h.named (h.region_of_within n hn.1) hclause) hspecifier) hname)
      (.inl (by simp [Spells, field_of_child? hname]))) rfl
  block hn hform := (h.addScope (Subtype.prop _) _ _).to_logic fun _ _ hscope c hc =>
    ⟨h.withinNamed hn.1 (Kind.holdsDirectly_of_form hform rfl (by decide)) hc,
      fun hhost => absurd hhost hscope⟩
  enclose {s _ _ _ _} hm := Keeps.imp (h.addScope s.2 _ _) fun _ _ hlater hscope =>
    ⟨hlater.holds, ⟨hm.1.1, hm.1.2.mono hlater.grows⟩, hm.2, hscope⟩
  branch hm _ := ⟨hm.2.1, fun hhost => absurd hhost hm.2.2⟩
  blockItem hm hkind hc := ⟨h.withinNamed hm.2.1 (by rw [hkind h.grammatical]; rfl) hc,
    fun hhost => absurd hhost hm.2.2⟩
  caseItem hm hkind hc :=
    ⟨h.nested _ _ hm.2.1 (by rcases hkind h.grammatical with hk | hk <;> rw [hk] <;> rfl)
      (mem_children_of_mem_without (mem_children_of_namedChildren hc)),
      fun hhost => absurd hhost hm.2.2⟩
  loop hm _ := ⟨hm.1.1, hm.1.2, fun hhost => absurd hhost hm.2.2⟩
  declared hm hform _ hpart _ :=
    ⟨h.nested _ _ hm.1.1 (Kind.holdsDirectly_of_form hform rfl (by decide))
      (mem_children_of_childrenAt hpart), fun hhost => absurd hhost hm.2.2⟩
  target {s _ _ n _} hm hform hkeyword hleft := by
    have hkind := Kind.eq_of_form hform rfl
    refine (h.declareNames s.2 hm.1.1 (.inl hform) hm.1.2 hm.2.2 (h.mem_nodes n hm.1.1) (.inl hkind)
      fun name hname => List.mem_append_right _ ?_).does
    simp [hkind, hkeyword, hleft, hname]
  handled {s _ _ n _ handler _} hm hn hform hhandler hparameter := by
    have hcatch : handler.kind = .catchClause :=
      h.grammatical.kind_eq hn hhandler (by rw [Kind.eq_of_form hform rfl]; rfl)
    refine (h.declareNames s.2 hm.1.1 (.inr hform) hm.1.2 hm.2.2
      (mem_nodes_trans (child_mem_nodes (mem_children_of_child? hhandler)) hn) (.inr hcatch)
      fun name hname => List.mem_append_right _ ?_).does
    simp [hcatch, hparameter, hname]
  labeled {s _ _ n c} hn hform hc :=
    ⟨h.nested n c hn.1 (Kind.holdsDirectly_of_form hform rfl (by decide)) (mem_children_of_child? hc),
      fun hhost => h.standing_labeled n c (hn.2.2 hhost) (Kind.eq_of_form hform rfl) hc⟩
  carried {s _ _ n c} hn hform hc :=
    ⟨h.carried n c hn.1 (Kind.eq_of_form hform rfl) hc, fun hhost =>
      h.standing_exported n c (hn.2.2 hhost) (Kind.eq_of_form hform rfl) hc⟩
  exposed {s _ _ n c} hn hform hd hlinked := by
    refine Keeps.imp (h.exposed s.2 hn.1 hn.2.1 hform hd hlinked) fun _ b' hlater hv =>
      ⟨hlater.holds, ?_⟩
    rintro d (rfl | ⟨-, hd'⟩) - -
    · exact ⟨_, hn.2.1.mono hlater.grows⟩
    · obtain rfl : c = d := Option.some.inj (hd.symm.trans hd')
      exact hv

/-- **Linking a statement keeps the invariant**, and what it declares is in the graph. -/
theorem statement (n : Node) (hn : within n) (b : Builder) (scope : ScopeId)
    (owner : Option VertexId) (hb : inv b) (hstanding : scope = host → standing n) :
    Keeps inv b (Build.statement source n scope owner) fun _ b' => b'.HasCarried n :=
  Keeps.of_logic hb (h.passage.statement ⟨hn, hstanding⟩)

/-- **Bodies keep the invariant.** -/
theorem linkBody (hb : inv b) (hbody : ∀ c ∈ body.namedChildren, c.kind.form?.isSome → within c)
    (hstanding : scope = host → ∀ c ∈ body.namedChildren, standing c) (owner : Option VertexId) :
    Keeps inv b (Build.linkBody source body scope owner) Anything := by
  refine .forM hb fun c hc b₁ h₁ => ?_
  have hmem := mem_namedChildren_of_orderedChildren hc
  cases hform : c.kind.form? with
  | none =>
    rw [Build.statement, hform]
    exact .pure h₁.holds trivial
  | some form =>
    refine (h.statement c (hbody c hmem (by rw [hform]; rfl)) b₁ scope owner h₁.holds
      fun hhost => ?_).anything
    exact hstanding hhost c hmem

end NestUpkeep

end Build

end DeadCode
