import DeadCode.Proofs.Resolution.Arranged.Expression

/-! # Linking keeps statements arranged

A statement that is linked has a seat, and the statement that is to own it stands for its owner. The
statements in it are owned by it in turn: directly, or through blocks and clauses, which are no
statements of their own. -/

namespace DeadCode

namespace Build

open Builder Node

variable {source : String} {root o n m c d body : Node} {b : Builder} {scope : ScopeId}
  {vertex : VertexId} {field : Field} {owner : Option VertexId} {form : Form}

theorem held_header (hroot : root.Regular) (hn : b.Held source root .link o n)
    (hkind : n.kind.holdsStatements) (hform : n.kind.form? ≠ some .countedLoop)
    (hfield : field ∈ n.kind.headerFields) (hc : n.child? field = some c) :
    b.Held source root .resolve o c := by
  have hheader := mem_headers_of_child? hc hfield hform
  exact hn.header hroot hkind hheader fun hdeclares =>
    hform (hroot.declarations.header n hn.way.mem_nodes c hheader hdeclares)

/-! ### Exports -/

theorem exposes_of_boundNames {name : String} (hd : n.child? .declaration = some d)
    (hname : name ∈ d.boundNames source) : n.Exposes source := by
  intro _
  have hnames : d.declarationNames source ≠ [] := by
    refine List.ne_nil_of_mem (?_ : name ∈ d.declarationNames source)
    unfold boundNames at hname
    unfold declarationNames
    generalize d.kind = kind at hname
    cases kind <;> simp [Kind.form?] at hname ⊢ <;> exact hname
  rw [statementExports, hd]
  dsimp only
  split
  · exact List.cons_ne_nil _ _
  · simpa using hnames

theorem exposes_of_value {value : Node} (hd : n.child? .declaration = none)
    (hvalue : n.child? .value = some value) : n.Exposes source := by
  intro _
  rw [statementExports, hd, hvalue]
  exact List.cons_ne_nil _ _

theorem exposes_of_listed {clause specifier name : Node} {text : String}
    (hd : n.child? .declaration = none) (hvalue : n.child? .value = none)
    (hclause : clause ∈ n.namedChildren) (hkind : clause.kind = .exportClause)
    (hspecifier : specifier ∈ clause.namedChildren) (hname : specifier.child? .name = some name)
    (hkind' : name.kind = .identifier ∨ name.kind = .stringLiteral)
    (htext : name.text? source = some text) : n.Exposes source := by
  intro _
  obtain ⟨key, hkey⟩ : ∃ key, name.staticKey? source = some key := by
    unfold staticKey?
    rcases hkind' with hk | hk <;> simp [hk, htext, stringValue?, isInterpolated]
  have hlisted : n.namedChildren.flatMap (·.clauseExports source (n.child? .source).isSome) ≠ [] := by
    intro hnil
    have hclauses := List.flatMap_eq_nil_iff.1 hnil clause hclause
    rw [clauseExports, hkind] at hclauses
    have hnone := List.filterMap_eq_nil_iff.1 hclauses specifier hspecifier
    simp [hname, hkey] at hnone
  rw [statementExports, hd, hvalue]
  dsimp only
  split
  · next hnil => exact absurd hnil hlisted
  · exact hlisted

theorem relatable_of_namesFit
    (h : root.NamesFit → Relatable (Arranged source root) b n) :
    Relatable (Arranged source root) b n := by
  by_cases hnames : root.NamesFit
  · exact h hnames
  · intro b' hb' u v relation id graph hkind _ hconnect
    exact hb'.holds.connect hconnect
      (fun h => absurd h (RelationKind.ne_decl_of_isReference hkind)) fun h => absurd h hnames

/-- The names of an export clause. -/
theorem arranged_listed {clause specifier name : Node} (hroot : root.Regular)
    (hb : b.Arranged source root) (hway : Way root .link n) (hseated : Seated root n)
    (hvertex : b.StandsFor vertex n) (hform : n.kind.form? = some .exportDecl)
    (hd : n.child? .declaration = none) (hvalue : n.child? .value = none)
    (hsource : n.child? .source = none) (hclause : clause ∈ n.namedChildren)
    (hkind : clause.kind = .exportClause) (hspecifier : specifier ∈ clause.namedChildren)
    (hname : specifier.child? .name = some name) :
    Keeps (Arranged source root) b (reference source name scope .read) Anything := by
  unfold reference
  split
  · exact .pure hb trivial
  next text htext =>
  refine .of_does hb ((relating _).relateDeclaration (relatable_of_namesFit fun hnames => ?_) rfl)
  obtain ⟨hplain, hkinds⟩ := hnames.listed n hway.mem_nodes (Kind.eq_of_form hform rfl)
    hsource clause hclause hkind specifier hspecifier
  have hn : b.Held source root .link n n := .self hway hseated hvertex fun _ =>
    exposes_of_listed hd hvalue hclause hkind hspecifier hname (hkinds name hname) htext
  -- The clause is no statement, and what it lists is read as expressions are.
  have hclause' : b.Held source root .resolve n clause := by
    have hheld := hn.nested hroot.spaced (Kind.holdsStatements_of_form hform rfl)
      (mem_children_of_namedChildren hclause) ?_
    · rwa [Visit.ofStatement, if_neg (by rw [hkind]; decide)] at hheld
    · rintro ⟨-, hitem | ⟨-, hdeclaration⟩, -⟩
      · rw [hkind] at hitem
        cases hitem
      · rw [hd] at hdeclaration
        cases hdeclaration
  have hspecifier' := hclause'.part hroot.spaced (.inl rfl) (by rw [hkind]; rfl)
    (mem_children_of_namedChildren hspecifier)
  have hname' := hspecifier'.part hroot.spaced (.inl rfl) hplain (mem_children_of_child? hname)
  exact relatable_arranged hroot hname' (.inl rfl) (.inl (by simp [Spells, field_of_child? hname]))

/-! ### Statements in statements -/

/-- A statement is to be linked: it has a seat, if it is one of its own, and the statement that is to
own it stands for its owner. -/
structure Stays (root : Node) (b : Builder) (owner : Option VertexId) (n : Node) : Prop where
  way : Way root (.ofStatement n.kind) n
  seated : n.kind.isItem → Seated root n
  owned : ∀ v ∈ owner, n.span.Nonempty → ∃ o, b.StandsFor v o ∧ Owner root o n

theorem Stays.later {b' : Builder} {inv : Builder → Prop} (h : Stays root b owner n)
    (hlater : b.Later inv b') : Stays root b' owner n :=
  { h with
    owned := fun v hv hne =>
      (h.owned v hv hne).imp fun _ ho => ⟨ho.1.mono hlater.grows, ho.2⟩ }

theorem stays_of_held (hroot : root.Regular) (hn : b.Held source root .link o n)
    (hkind : n.kind.holdsStatements) (hc : c ∈ n.children)
    (hheader : c.kind.isItem → c ∈ n.headers → c.kind.form?.any Form.declaresVariables)
    (hvertex : b.Backs vertex o n) : Stays root b (some vertex) c where
  way := hn.way.nested hkind hc
  seated := fun hitem => ⟨.link, n, hn.way, hc, hkind, .inl hitem, hheader hitem⟩
  owned := by
    rintro v ⟨⟩ hne
    exact ⟨o, hvertex.child hroot.spaced hn.way.mem_nodes hc hne, hn.owner hroot.spaced hc hne⟩

theorem Stays.item (h : Stays root b owner n) (hroot : root.Regular)
    (hform : n.kind.form? = some .block) (hc : c ∈ n.children) : Stays root b owner c := by
  have hkind : n.kind.holdsStatements := Kind.holdsStatements_of_form hform rfl
  have hway : Way root .link n := by
    rw [← Visit.ofStatement_eq_link hkind]
    exact h.way
  refine ⟨hway.nested hkind hc, fun hitem => ⟨.link, n, hway, hc, hkind, .inl hitem, fun hheader => ?_⟩,
    fun v hv hne => ?_⟩
  · exact absurd hheader (not_mem_headers_of_nil (by simp [Kind.headerFields, hform]))
  · obtain ⟨o, ho, howner⟩ :=
      h.owned v hv (hne.of_contains (hroot.spaced.laid.nested n hway.mem_nodes c hc))
    have hholder := howner.holder (not_seated_of_block hroot.declarations hform)
    exact ⟨o, ho, hholder.owner hroot.spaced.laid hway.mem_nodes hc hne⟩

/-- What a statement holds is being linked: the statement is in the graph. -/
structure Sits (root : Node) (b : Builder) (vertex : VertexId) (n : Node) : Prop where
  way : Way root (.ofStatement n.kind) n
  seated : Seated root n
  vertex : b.StandsFor vertex n

theorem Sits.later {b' : Builder} {inv : Builder → Prop} (h : Sits root b vertex n)
    (hlater : b.Later inv b') : Sits root b' vertex n :=
  { h with vertex := h.vertex.mono hlater.grows }

/-- Only an `export` statement has to export something for that. -/
theorem Sits.held (h : Sits root b vertex n) (hexport : n.kind.form? ≠ some .exportDecl) :
    b.Held source root (.ofStatement n.kind) n n :=
  .self h.way h.seated h.vertex fun _ hk => absurd (by rw [hk]; rfl) hexport

theorem Sits.way_link (h : Sits root b vertex n) (hkind : n.kind.holdsStatements) :
    Way root .link n := by
  rw [← Visit.ofStatement_eq_link hkind]
  exact h.way

theorem Sits.held_link (h : Sits root b vertex n) (hkind : n.kind.holdsStatements)
    (hexport : n.kind.form? ≠ some .exportDecl) : b.Held source root .link n n := by
  rw [← Visit.ofStatement_eq_link hkind]
  exact h.held hexport

/-- A node lies in a statement that is in the graph, on the way to the statements that it holds: it is
the statement, or stands in a node that is linked in its course, apart from the header. -/
structure Amid (source : String) (root : Node) (b : Builder) (vertex : VertexId) (n m : Node) : Prop
    extends Sits root b vertex n where
  notExport : n.kind.form? ≠ some .exportDecl
  parent : m = n ∨ ∃ p, b.Held source root .link n p ∧ p.kind.holdsDirectly ∧ m ∈ p.children ∧
    m ∉ p.headers

theorem Amid.later {b' : Builder} {inv : Builder → Prop} (h : Amid source root b vertex n m)
    (hlater : b.Later inv b') : Amid source root b' vertex n m :=
  { h with
    toSits := h.toSits.later hlater
    parent := h.parent.imp_right fun ⟨p, hp⟩ => ⟨p, hp.1.later hlater, hp.2⟩ }

theorem Amid.held (h : Amid source root b vertex n m) (hroot : root.Regular) (hm : n.RunsThrough m) :
    b.Held source root .link n m := by
  obtain ⟨hkind, hm⟩ := hm
  rcases h.parent with rfl | ⟨p, hp, hpkind, hmem, -⟩
  · exact h.held_link (Kind.holdsStatements_of_holdsDirectly hkind) h.notExport
  · rcases hm with rfl | hclause
    · exact h.held_link (Kind.holdsStatements_of_holdsDirectly hkind) h.notExport
    · exact hp.clause hroot.spaced hpkind hmem hclause

theorem Amid.branch (h : Amid source root b vertex n m) (hroot : root.Regular)
    (hbranch : n.BranchOf m) : Stays root b (some vertex) m := by
  rcases h.parent with rfl | ⟨p, hp, hkind, hmem, hheader⟩
  · exact absurd hbranch.size_lt (Nat.lt_irrefl _)
  · exact stays_of_held hroot hp (Kind.holdsStatements_of_holdsDirectly hkind) hmem
      (fun _ hm => absurd hm hheader) fun _ => h.vertex

theorem Amid.blockItem (h : Amid source root b vertex n m) (hroot : root.Regular)
    (hform : m.kind.form? = some .block) (hc : c ∈ m.children) : Stays root b (some vertex) c := by
  rcases h.parent with rfl | ⟨p, hp, hkind, hmem, -⟩
  · exact absurd h.seated (not_seated_of_block hroot.declarations hform)
  · refine stays_of_held hroot (hp.block hroot (Kind.holdsStatements_of_holdsDirectly hkind) hmem hform)
      (Kind.holdsStatements_of_form hform rfl) hc (fun _ hheader => ?_) fun _ => h.vertex
    exact absurd hheader (not_mem_headers_of_nil (by simp [Kind.headerFields, hform]))

theorem Amid.caseItem (h : Amid source root b vertex n m) (hroot : root.Regular)
    (hkind : m.kind = .switchCase ∨ m.kind = .switchDefault)
    (hc : c ∈ (m.without .value).namedChildren) : Stays root b (some vertex) c := by
  have hclause : m.kind.isClause := by rcases hkind with hk | hk <;> rw [hk] <;> rfl
  have hm := h.held hroot ⟨Kind.holdsDirectly_of_isClause hclause, .inr hclause⟩
  have hc' := mem_children_of_namedChildren hc
  have hmem := mem_children_of_mem_without hc'
  refine stays_of_held hroot hm (Kind.holdsStatements_of_isClause hclause) hmem
    (fun hitem hheader => ?_) fun _ => h.vertex
  -- The value of the case was left out.
  have hvalue : m.child? .value = some c := by
    rcases hkind with hk | hk <;> simpa [headers, hk, Kind.headerFields, Kind.form?] using hheader
  have hne := hroot.spaced.statements c (hm.way.child hmem).mem_nodes
    (.inl (.inl (Kind.form?_isSome_of_isItem hitem)))
  exact absurd hc' (not_mem_without hroot.spaced.laid hm.way.mem_nodes hvalue hne)

/-! ### The steps of a statement -/

theorem arranged_entered {α : Type} {next : VertexId → Build α}
    {post : α → Builder → Prop} (hroot : root.Regular) (hb : b.Arranged source root)
    (h : Stays root b owner n) (hform : n.kind.form? = some form)
    (hblock : form ≠ .block)
    (hnext : ∀ v b', b.Later (Arranged source root) b' → Sits root b' v n →
      Keeps (Arranged source root) b' (next v) post) :
    Keeps (Arranged source root) b (do
      let vertex ← statementVertex source n scope
      owner.forM fun owner => connect owner vertex { kind := .decl }
      next vertex) post := by
  have hseated := h.seated (Kind.isItem_of_form hform hblock)
  refine (arranged_statementVertex hb hseated).bind fun vertex b₁ h₁ hvertex => ?_
  refine (Keeps.forM_option h₁.holds fun owner howner => ?_).andThen fun _ b₂ h₂ => ?_
  · obtain ⟨o, ho, hown⟩ := h.owned owner howner (hseated.nonempty hroot.spaced)
    exact arranged_own h₁.holds (ho.mono h₁.grows) hvertex hseated hown
  · exact hnext vertex b₂ (h₁.trans h₂) ⟨h.way, hseated, hvertex.mono h₂.grows⟩

/-- **The steps of a statement that holds no other keep the statements arranged.** -/
def arrangedWhole (source : String) {root : Node} (hroot : root.Regular) :
    Whole (keeping (Arranged source root)) source where
  inside s _ v n := Sits root s.1 v n ∧ n.kind.form? ≠ some .exportDecl
  walk n scope := arrangedWalk hroot source n scope
  inside_later h hn := ⟨Sits.later hn.1 h, hn.2⟩
  held hn := hn.1.held hn.2
  backs hn _ := hn.1.vertex
  function _ _ _ _ _ := (arranged_declare (Subtype.prop _) _ _).does
  declares _ _ _ _ := (arranged_declare (Subtype.prop _) _ _).does
  var _ _ := (arranged_hoistVar (Subtype.prop _) _ _ _).does
  returns _ _ := (keeps_noteReturn steady_arranged (Subtype.prop _) _).does

theorem arranged_exposed (hb : b.Arranged source root) (hn : Sits root b vertex n)
    (hform : n.kind.form? = some .exportDecl) (hd : n.child? .declaration = some d) :
    Keeps (Arranged source root) b (do
      let target ← statementVertex source d scope
      (d.boundNames source).forM fun name => connect vertex target (.named .read name))
      Anything := by
  refine (arranged_statementVertex hb (seated_of_exported
    (hn.way_link (Kind.holdsStatements_of_form hform rfl)) hform hd)).andThen
    fun target b₁ h₁ => ?_
  -- The export uses each name that it declares.
  refine .forM h₁.holds fun name hname b₂ h₂ => .of_connect fun _ _ hconnect => ?_
  refine h₂.holds.connect hconnect (fun hdecl => nomatch hdecl) fun _ _ _ => ⟨n, hn.seated, ?_, ?_⟩
  · exact hn.vertex.mono (h₁.trans h₂).grows
  · exact exposes_of_boundNames hd hname

/-- **The steps of a statement keep the statements arranged.** -/
def arrangedPassage (source : String) {root : Node} (hroot : root.Regular) :
    Passage (keeping (Arranged source root)) source root where
  due s _ owner n := Stays root s.1 owner n
  inside s _ v n := Sits root s.1 v n
  amid s _ v n m := Amid source root s.1 v n m
  opened s _ v n m := Amid source root s.1 v n m
  linked _ _ := True
  due_later h hn := Stays.later hn h
  inside_later h hn := Sits.later hn h
  opened_later h hm := Amid.later hm h
  linked_other _ := trivial
  linked_inside _ _ := trivial
  mem_nodes hn := hn.seated.mem_nodes
  walk n scope := arrangedWalk hroot source n scope
  whole {_ _ _ n form} hn hform hnesting := by
    refine (arrangedWhole source hroot).statement hform hnesting fun hnext => ?_
    refine arranged_entered hroot (Subtype.prop _) hn hform (by rintro rfl; cases hnesting)
      fun v b' hlater hsits => hnext v ⟨b', hlater.holds⟩ ⟨hsits, ?_⟩
    rw [hform]
    rintro ⟨⟩
    cases hnesting
  enter hn hform _ hblock hnext := arranged_entered hroot (Subtype.prop _) hn hform hblock
    fun v b' hlater hsits => hnext v ⟨b', hlater.holds⟩ hlater hsits
  amid_self hn hexport := { hn with notExport := hexport, parent := .inl rfl }
  amid_child hm hkind hc :=
    have ⟨hthrough, hfield⟩ := hkind hroot.grammatical
    { hm with
      parent := .inr ⟨_, hm.held hroot hthrough, hthrough.1, hc, fun hheader =>
        have ⟨_, field, hmem, heq⟩ := of_mem_headers hheader
        hfield field heq hmem⟩ }
  header hm hkind _ hc :=
    have ⟨hthrough, hfield, hloop⟩ := hkind hroot.grammatical
    held_header hroot (hm.held hroot hthrough) (Kind.holdsStatements_of_headerFields hfield) hloop
      hfield hc
  exportValue hn hform hd hc :=
    have hholds := Kind.holdsStatements_of_form hform rfl
    held_header hroot (.self (hn.way_link hholds) hn.seated hn.vertex fun _ => exposes_of_value hd hc)
      hholds (by simp [hform]) (by simp [Kind.headerFields, hform]) hc
  clause hn hform hfield hpart hdeclares := by
    have hholds := Kind.holdsStatements_of_form hform rfl
    exact (hn.held_link hholds (by simp [hform])).header hroot hholds
      (mem_headers_of_childrenAt hpart hfield hform) (by simp [hdeclares])
  listed hn hform hd hvalue hsource hclause hkind hspecifier hname :=
    (arranged_listed hroot (Subtype.prop _) (hn.way_link (Kind.holdsStatements_of_form hform rfl))
      hn.seated hn.vertex hform hd hvalue hsource hclause hkind hspecifier hname).does
  block {s _ _ n} hn hform := Keeps.imp (arranged_addScope s.2 _ _) fun _ _ hlater _ =>
    ⟨hlater.holds, fun _ hc =>
      (hn.item hroot hform (mem_children_of_namedChildren hc)).later hlater⟩
  enclose {s _ _ _ _} hm := Keeps.imp (arranged_addScope s.2 _ _) fun _ _ hlater _ =>
    ⟨hlater.holds, hm.later hlater⟩
  branch hm hbranch := hm.branch hroot hbranch
  blockItem hm hkind hc := hm.blockItem hroot (by rw [hkind hroot.grammatical]; rfl)
    (mem_children_of_namedChildren hc)
  caseItem hm hkind hc := hm.caseItem hroot (hkind hroot.grammatical) hc
  loop hm _ := hm.toSits
  declared hm hform _ hpart hdeclares :=
    have hholds := Kind.holdsStatements_of_form hform rfl
    stays_of_held hroot (hm.held hroot ⟨Kind.holdsDirectly_of_form hform rfl (by decide), .inl rfl⟩)
      hholds (mem_children_of_childrenAt hpart) (fun _ _ => hdeclares) fun _ => hm.vertex
  target _ _ _ _ := (arranged_declareNames (Subtype.prop _) _ _).does
  handled _ _ _ _ _ := (arranged_declareNames (Subtype.prop _) _ _).does
  labeled {s _ _ n _} hn hform hc := by
    have hholds := Kind.holdsStatements_of_form hform rfl
    have hheld : s.1.Held source root .link n n := hn.held_link hholds (by simp [hform])
    refine stays_of_held hroot hheld hholds
      (mem_children_of_child? hc) (fun _ hheader => ?_) fun _ => hn.vertex
    exact absurd hheader (not_mem_headers_of_nil (by simp [Kind.headerFields, hform]))
  carried {s _ v n c} hn hform hc := by
    have hholds := Kind.holdsStatements_of_form hform rfl
    have hmem := mem_children_of_child? hc
    refine ⟨(hn.way_link hholds).nested hholds hmem,
      fun _ => seated_of_exported (hn.way_link hholds) hform hc, ?_⟩
    rintro _ ⟨⟩ hne
    exact ⟨n, hn.vertex, (Holder.self hn.seated).owner hroot.spaced.laid hn.seated.mem_nodes hmem hne⟩
  exposed hn hform hd _ := (arranged_exposed (Subtype.prop _) hn hform hd).does

/-- **Linking a statement keeps the statements arranged.** -/
theorem arranged_statement (hroot : root.Regular) (hb : b.Arranged source root)
    (hstays : Stays root b owner n) :
    Keeps (Arranged source root) b (statement source n scope owner) Anything :=
  .of_does hb ((arrangedPassage source hroot).statement hstays)

/-- **Bodies keep what is arranged.** -/
theorem arranged_linkBody (hroot : root.Regular) (hb : b.Arranged source root)
    (hstays : ∀ c ∈ body.namedChildren, Stays root b owner c) :
    Keeps (Arranged source root) b (linkBody source body scope owner) Anything :=
  .forM hb fun c hc _ h₁ => arranged_statement hroot h₁.holds
    ((hstays c (mem_namedChildren_of_orderedChildren hc)).later h₁)

end Build

end DeadCode
