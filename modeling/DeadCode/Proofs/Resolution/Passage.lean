import DeadCode.Proofs.Resolution.Declarations

/-! # The way through a statement

Statements hold other statements: in branches and cases, in the bodies of loops, in what is exported
or has a label. The way to them is gone here once, for anything that can be said of steps. What holds
no statement is linked as a whole and left open. -/

namespace DeadCode

/-- The fields of a statement or a clause that are read as expressions while it is linked. -/
def Kind.headerFields (kind : Kind) : List Field :=
  match kind.form? with
  | some .conditional | some .whileLoop | some .doLoop => [.condition]
  | some .selection | some .exportDecl => [.value]
  | some .countedLoop => [.initializer, .condition, .increment]
  | some .iteration => [.right, .left]
  | some _ => []
  | none => if kind = .switchCase ∨ kind = .switchDefault then [.value] else []

/-- Whether a form is that of a declaration of variables. -/
def Form.declaresVariables : Form → Bool
  | .lexicalDecl | .varDecl => true
  | _ => false

/-- The field of a statement that holds its first branch, or its only one. -/
def Form.branch? : Form → Option Field
  | .conditional => some .consequence
  | .countedLoop | .iteration | .whileLoop | .doLoop | .guarded => some .body
  | _ => none

namespace Kind

variable {kind : Kind} {form : Form} {field : Field}

theorem isHeader_of_mem_headerFields (h : field ∈ kind.headerFields) : field.isHeader := by
  unfold headerFields at h
  split at h <;> grind [Field.isHeader]

theorem holdsStatements_of_headerFields (h : field ∈ kind.headerFields) :
    kind.holdsStatements := by
  cases kind <;> first | rfl | simp [headerFields, form?] at h

theorem not_mem_headerFields_of_branch? (h : kind.form? = some form)
    (hfield : form.branch? = some field) : field ∉ kind.headerFields := by
  cases form <;> simp_all [headerFields, Form.branch?] <;> subst hfield <;> decide

end Kind

theorem Form.isNesting_of_branch? {form : Form} {field : Field} (h : form.branch? = some field) :
    form.isNesting := by
  cases form <;> first | rfl | simp [branch?] at h

namespace Node

variable {root n body arm c : Node}

/-- A node is a branch of a statement. Two branches stand in clauses of their own. -/
inductive BranchOf (n body : Node) : Prop where
  | main {form : Form} {field : Field} (hform : n.kind.form? = some form)
      (hfield : form.branch? = some field) (hbody : n.child? field = some body)
  | alternative {clause : Node} (hform : n.kind.form? = some .conditional)
      (hclause : n.child? .alternative = some clause) (hbody : body ∈ clause.namedChildren)
  | finalizer {clause : Node} (hform : n.kind.form? = some .guarded)
      (hclause : n.child? .finalizer = some clause) (hbody : clause.child? .body = some body)

/-- What a node holds is linked in the course of a statement: the node is the statement, or a clause. -/
def RunsThrough (n m : Node) : Prop :=
  m.kind.holdsDirectly ∧ (m = n ∨ m.kind.isClause)

/-- A node is a case in the body of a `switch` statement. -/
structure CaseOf (n body arm : Node) : Prop where
  form : n.kind.form? = some .selection
  child : n.child? .body = some body
  mem : arm ∈ body.namedChildren

theorem runsThrough_self {field : Field} (hform : n.kind.form? ≠ some .exportDecl)
    (hfield : field ∈ n.kind.headerFields) : n.RunsThrough n :=
  ⟨by simp [Kind.holdsDirectly, Kind.holdsStatements_of_headerFields hfield, hform], .inl rfl⟩

/-- A branch lies below its statement. -/
theorem BranchOf.mem_descendants (h : n.BranchOf body) : body ∈ n.descendants := by
  cases h with
  | main _ _ hbody => exact child_mem_descendants (mem_children_of_child? hbody)
  | alternative _ hclause hbody =>
    exact mem_descendants_of_child (mem_children_of_child? hclause)
      (child_mem_nodes (mem_children_of_namedChildren hbody))
  | finalizer _ hclause hbody =>
    exact mem_descendants_of_child (mem_children_of_child? hclause)
      (child_mem_nodes (mem_children_of_child? hbody))

theorem BranchOf.size_lt (h : n.BranchOf body) : body.size < n.size :=
  size_lt_of_descendant h.mem_descendants

theorem CaseOf.mem_descendants (h : n.CaseOf body arm) : arm ∈ n.descendants :=
  mem_descendants_of_child (mem_children_of_child? h.child)
    (child_mem_nodes (mem_children_of_namedChildren h.mem))

theorem CaseOf.body_kind (h : n.CaseOf body arm) (hroot : root.Grammatical) (hn : n ∈ root.nodes) :
    body.kind = .switchBody :=
  hroot.kind_eq hn h.child (by rw [Kind.eq_of_form h.form rfl]; rfl)

/-- The cases of a `switch` are cases. -/
theorem CaseOf.kind (h : n.CaseOf body arm) (hroot : root.Grammatical) (hn : n ∈ root.nodes) :
    arm.kind = .switchCase ∨ arm.kind = .switchDefault :=
  (hroot body (mem_nodes_trans (child_mem_nodes (mem_children_of_child? h.child)) hn)).cases
    (h.body_kind hroot hn) arm h.mem

end Node

open Node

namespace Build

/-! ## Loops over statements -/

namespace Logic

variable {S : Type} {L : Logic S} {s : S} {n : Node} {source : String} {field : Field}
  {visit : (c : Node) → c.size < n.size → Build Unit}
  {found : (c : Node) → c.size < n.size → List Leaf}

/-- A loop over the children in the order of their visits. -/
theorem forOrdered (h : ∀ c ∈ n.namedChildren, ∀ (hc : c.size < n.size) s', L.Later s s' →
      L.Does s' (visit c hc) (found c hc)) :
    L.Does s (n.forOrdered source visit) (n.overNamed found) := by
  refine L.imp (foldOver trivial fun c hmem hc _ s' hs _ =>
    h c (mem_namedChildren_of_orderedChildren hmem) hc s' hs : L.Does s _ _) (fun leaf hleaf => ?_)
    fun _ _ _ _ => trivial
  obtain ⟨c, hc, hleaf⟩ := mem_overNamed.1 hleaf
  exact mem_among.2 ⟨c, mem_inSourceOrder.2 hc, hleaf⟩

theorem forOrderedWithout {hlt : ∀ c ∈ (n.without field).namedChildren, c.size < n.size}
    (h : ∀ c ∈ (n.without field).namedChildren, ∀ (hc : c.size < n.size) s', L.Later s s' →
      L.Does s' (visit c hc) (found c hc)) :
    L.Does s (n.forOrderedWithout field source visit)
      (n.among (n.without field).namedChildren hlt found) := by
  refine L.imp (foldOver trivial fun c hmem hc _ s' hs _ =>
    h c (mem_inSourceOrder.1 hmem) hc s' hs : L.Does s _ _) (fun leaf hleaf => ?_)
    fun _ _ _ _ => trivial
  obtain ⟨c, hc, hleaf⟩ := mem_among.1 hleaf
  exact mem_among.2 ⟨c, mem_inSourceOrder.2 hc, hleaf⟩

/-- A loop over the children of a field. -/
theorem forChildrenAt (h : ∀ c ∈ n.childrenAt field, ∀ (hc : c.size < n.size) s', L.Later s s' →
      L.Does s' (visit c hc) (found c hc)) :
    L.Does s (n.forChildrenAt field visit)
      (n.among (n.childrenAt field) (fun _ => size_lt_of_mem_childrenAt) found) :=
  foldOver trivial fun c hmem hc _ s' hs _ => h c hmem hc s' hs

end Logic

/-! ## The steps of a statement -/

/-- **What a logic has to say of the steps of a statement** of a tree. -/
structure Passage {S : Type} (L : Logic S) (source : String) (root : Node) where
  /-- A statement is to be linked in a scope, with an owner. -/
  due : S → ScopeId → Option VertexId → Node → Prop
  /-- A statement has its place in the graph, and what it holds is linked in a scope. -/
  inside : S → ScopeId → VertexId → Node → Prop
  /-- A node lies in a statement, on the way to those that it holds. -/
  amid : S → ScopeId → VertexId → Node → Node → Prop
  /-- A scope was added for such a node. -/
  opened : S → ScopeId → VertexId → Node → Node → Prop
  /-- A statement was linked. -/
  linked : S → Node → Prop
  /-- What is said of the expressions in a statement. -/
  walk : Node → (scope : ScopeId) → Walk L source scope
  due_later : ∀ {s s' scope owner n}, L.Later s s' → due s scope owner n → due s' scope owner n
  inside_later : ∀ {s s' scope v n}, L.Later s s' → inside s scope v n → inside s' scope v n
  opened_later : ∀ {s s' scope v n m}, L.Later s s' → opened s scope v n m → opened s' scope v n m
  linked_other : ∀ {s n}, n.kind.form? = none ∨ n.kind.form? = some .block → linked s n
  linked_inside : ∀ {s scope v n}, inside s scope v n →
    (n.kind.form? = some .exportDecl → n.child? .declaration = none) → linked s n
  mem_nodes : ∀ {s scope v n}, inside s scope v n → n ∈ root.nodes
  -- What holds no statement is linked as a whole, all else gets its place in the graph first.
  whole : ∀ {s scope owner n form}, due s scope owner n → n.kind.form? = some form →
    form.isNesting = false → L.Says s (statement source n scope owner) (statementLeaves source n)
      fun _ s' => linked s' n
  enter : ∀ {s scope owner n form leaves post} {next : VertexId → Build Unit}, due s scope owner n →
    n.kind.form? = some form → form.isNesting → form ≠ .block →
    (∀ v s', L.Later s s' → inside s' scope v n → L.Says s' (next v) leaves post) →
    L.Says s (do
      let vertex ← statementVertex source n scope
      owner.forM fun owner => connect owner vertex { kind := .decl }
      next vertex) leaves post
  -- The way leads through the statement and its clauses, up to the headers.
  amid_self : ∀ {s scope v n}, inside s scope v n → n.kind.form? ≠ some .exportDecl →
    amid s scope v n n
  amid_child : ∀ {s scope v n m c}, amid s scope v n m → (root.Grammatical →
    n.RunsThrough m ∧ ∀ field ∈ c.field, field ∉ m.kind.headerFields) → c ∈ m.children →
    amid s scope v n c
  -- Expressions in statements.
  header : ∀ {s scope v n m field c}, amid s scope v n m → (root.Grammatical →
    n.RunsThrough m ∧ field ∈ m.kind.headerFields ∧ m.kind.form? ≠ some .countedLoop) → field.isHeader →
    m.child? field = some c → (walk n scope).held s .resolve c
  exportValue : ∀ {s scope v n c}, inside s scope v n → n.kind.form? = some .exportDecl →
    n.child? .declaration = none → n.child? .value = some c → (walk n scope).held s .resolve c
  clause : ∀ {s scope v n field part}, inside s scope v n → n.kind.form? = some .countedLoop →
    field ∈ n.kind.headerFields → part ∈ n.childrenAt field →
    part.kind.form?.any Form.declaresVariables = false → (walk n scope).held s .resolve part
  listed : ∀ {s scope v n clause specifier name}, inside s scope v n →
    n.kind.form? = some .exportDecl → n.child? .declaration = none → n.child? .value = none →
    n.child? .source = none → clause ∈ n.namedChildren → clause.kind = .exportClause →
    specifier ∈ clause.namedChildren → specifier.child? .name = some name →
    L.Does s (reference source name scope .read) [.use (.name name .read)]
  -- Statements in statements, in scopes of their own.
  block : ∀ {s scope owner n}, due s scope owner n → n.kind.form? = some .block →
    L.Says s (addScope scope .block) [] fun block s' => ∀ c ∈ n.namedChildren, due s' block owner c
  enclose : ∀ {s scope v n m}, amid s scope v n m →
    L.Says s (addScope scope .block) [] fun block s' => opened s' block v n m
  branch : ∀ {s block v n m}, opened s block v n m → n.BranchOf m → due s block (some v) m
  blockItem : ∀ {s block v n m c}, opened s block v n m →
    (root.Grammatical → m.kind = .statementBlock) → c ∈ m.namedChildren → due s block (some v) c
  caseItem : ∀ {s block v n m c}, opened s block v n m →
    (root.Grammatical → m.kind = .switchCase ∨ m.kind = .switchDefault) →
    c ∈ (m.without .value).namedChildren → due s block (some v) c
  -- The scope of a loop, or that of a handler.
  loop : ∀ {s header v n}, opened s header v n n →
    n.kind.form? = some .countedLoop ∨ n.kind.form? = some .iteration → inside s header v n
  declared : ∀ {s header v n field part}, opened s header v n n →
    n.kind.form? = some .countedLoop → field ∈ n.kind.headerFields → part ∈ n.childrenAt field →
    part.kind.form?.any Form.declaresVariables → due s header (some v) part
  target : ∀ {s header v n left}, opened s header v n n →
    n.kind.form? = some .iteration → (n.child? .kind).isSome → n.child? .left = some left →
    L.Does s (declareNames header (left.patternNames source) v) []
  handled : ∀ {s block v n m handler parameter}, opened s block v n m → n ∈ root.nodes →
    n.kind.form? = some .guarded → n.child? .handler = some handler →
    handler.child? .parameter = some parameter →
    L.Does s (declareNames block (parameter.patternNames source) v) []
  -- Statements in statements, in the scope around.
  labeled : ∀ {s scope v n c}, inside s scope v n → n.kind.form? = some .labeled →
    n.child? .body = some c → due s scope (some v) c
  carried : ∀ {s scope v n c}, inside s scope v n → n.kind.form? = some .exportDecl →
    n.child? .declaration = some c → due s scope (some v) c
  exposed : ∀ {s scope v n c}, inside s scope v n → n.kind.form? = some .exportDecl →
    n.child? .declaration = some c → linked s c → L.Says s (do
      let target ← statementVertex source c scope
      (c.boundNames source).forM fun name => connect v target (.named .read name)) []
      fun _ s' => linked s' n

namespace Passage

variable {S : Type} {L : Logic S} {source : String} {root : Node} {P : Passage L source root} {s : S}
  {n : Node} {scope : ScopeId} {owner : Option VertexId} {vertex : VertexId} {limit : Nat}

/-! ### The way to the statements in a statement -/

theorem amid_field {form : Form} {field : Field} {c : Node} (hin : P.inside s scope vertex n)
    (hform : n.kind.form? = some form) (hnesting : form.isNesting) (hexport : form ≠ .exportDecl)
    (hfield : field ∉ n.kind.headerFields) (hc : n.child? field = some c) :
    P.amid s scope vertex n c := by
  refine P.amid_child (P.amid_self hin (by simp [hform, hexport])) (fun _ =>
    ⟨⟨Kind.holdsDirectly_of_form hform hnesting hexport, .inl rfl⟩, fun field' hfield' => ?_⟩)
    (mem_children_of_child? hc)
  rw [field_of_child? hc] at hfield'
  cases hfield'
  exact hfield

/-- A clause of a statement is of one kind, and what it holds lies on the way. -/
theorem amid_clause {form : Form} {field : Field} {sole kind : Kind} {clause c : Node}
    (hin : P.inside s scope vertex n) (hform : n.kind.form? = some form)
    (hnesting : form.isNesting) (hexport : form ≠ .exportDecl) (hsole : form.soleKind? = some sole)
    (hpart : sole.part? field = some kind) (hfield : field ∉ sole.headerFields)
    (hclause : n.child? field = some clause)
    (hkind : kind.isClause ∧ kind.headerFields = []) (hc : c ∈ clause.children) :
    P.amid s scope vertex n c := by
  have hn := Kind.eq_of_form hform hsole
  refine P.amid_child (amid_field hin hform hnesting hexport (by rw [hn]; exact hfield) hclause)
    (fun hroot => ?_) hc
  unfold RunsThrough
  rw [hroot.kind_eq (P.mem_nodes hin) hclause (by rw [hn]; exact hpart), hkind.2]
  exact ⟨⟨Kind.holdsDirectly_of_isClause hkind.1, .inr hkind.1⟩, fun _ _ => List.not_mem_nil⟩

/-- A branch is visited amid its statement. -/
theorem amid_branch {body : Node} (hin : P.inside s scope vertex n) (hbranch : n.BranchOf body) :
    P.amid s scope vertex n body := by
  cases hbranch with
  | main hform hfield hbody =>
    refine amid_field hin hform (Form.isNesting_of_branch? hfield) ?_
      (Kind.not_mem_headerFields_of_branch? hform hfield) hbody
    rintro rfl
    cases hfield
  | alternative hform hclause hbody =>
    exact amid_clause hin hform rfl (by decide) rfl rfl (by decide) hclause (by decide)
      (mem_children_of_namedChildren hbody)
  | finalizer hform hclause hbody =>
    exact amid_clause hin hform rfl (by decide) rfl rfl (by decide) hclause (by decide)
      (mem_children_of_child? hbody)

/-- A case is visited amid its statement. -/
theorem amid_case {body arm : Node} (hin : P.inside s scope vertex n) (hcase : n.CaseOf body arm) :
    P.amid s scope vertex n arm :=
  amid_clause hin hcase.form rfl (by decide) rfl rfl (by decide) hcase.child (by decide)
    (mem_children_of_namedChildren hcase.mem)

/-- What is said of linking a statement is so for all statements smaller than a bound. -/
def Below (P : Passage L source root) (limit : Nat) : Prop :=
  ∀ n : Node, n.size < limit → ∀ s scope owner, P.due s scope owner n →
    L.Says s (Build.statement source n scope owner) (statementLeaves source n)
      fun _ s' => P.linked s' n

namespace Below

/-- The statements of a block are linked. -/
theorem items (h : Below P limit) (hn : n.size ≤ limit)
    (hdue : ∀ c ∈ n.namedChildren, P.due s scope owner c) :
    L.Does s (n.forOrdered source fun c _ => Build.statement source c scope owner)
      (n.overNamed fun c _ => statementLeaves source c) :=
  Logic.forOrdered fun c hc hsize s' hs =>
    Logic.does (h c (Nat.lt_of_lt_of_le hsize hn) s' scope owner (P.due_later hs (hdue c hc)))

/-- The expressions of a header are resolved. -/
theorem field {form : Form} {field : Field} (hin : P.inside s scope vertex n)
    (hform : n.kind.form? = some form) (hother : form ≠ .countedLoop ∧ form ≠ .exportDecl)
    (hfield : field ∈ n.kind.headerFields) :
    L.Does s ((n.child? field).forM fun c => expression source c scope)
      (fieldLeaves source n field) :=
  Logic.forM_option fun _ hc => (P.walk n scope).expression <|
    P.header (P.amid_self hin (by simp [hform, hother.2]))
      (fun _ => ⟨runsThrough_self (by simp [hform, hother.2]) hfield, hfield, by simp [hform, hother.1]⟩)
      (Kind.isHeader_of_mem_headerFields hfield) hc

/-- A branch is linked, in a scope of its own if it is a block. -/
theorem branch {body : Node} (h : Below P n.size) (hin : P.inside s scope vertex n)
    (hbranch : n.BranchOf body) :
    L.Does s (Build.branch source body scope vertex) (statementLeaves source body) := by
  rw [Build.branch]
  refine Logic.after (P.enclose (amid_branch hin hbranch)) fun block s₁ h₁ hopened => ?_
  by_cases hk : body.kind = .statementBlock
  · rw [if_pos hk, statementLeaves, hk]
    exact h.items (Nat.le_of_lt hbranch.size_lt) fun c hc => P.blockItem hopened (fun _ => hk) hc
  · rw [if_neg hk]
    exact Logic.does (h body hbranch.size_lt s₁ block (some vertex) (P.branch hopened hbranch))

theorem onBranch {form : Form} {field : Field} (h : Below P n.size)
    (hin : P.inside s scope vertex n) (hform : n.kind.form? = some form)
    (hfield : form.branch? = some field) :
    L.Does s (n.onChild field fun body _ => Build.branch source body scope vertex)
      (n.under field fun body _ => statementLeaves source body) :=
  Logic.onChild fun _ hbody _ => h.branch hin (.main hform hfield hbody)

/-! ### Forms of statements -/

/-- An `if` statement. -/
theorem conditional (h : Below P n.size) (hin : P.inside s scope vertex n)
    (hform : n.kind.form? = some .conditional) :
    L.Does s (conditionalBody source n scope vertex) (statementLeaves source n) := by
  rw [statementLeaves, hform]
  dsimp only
  rw [List.append_assoc]
  refine (field hin hform (by decide)
    (by simp [Kind.headerFields, hform])).bind fun _ s₁ h₁ => ?_
  refine (h.onBranch (P.inside_later h₁ hin) hform rfl).bind fun _ s₂ h₂ => ?_
  refine Logic.onChild fun clause hclause _ => Logic.forNamed fun body hbody _ s₃ h₃ => ?_
  exact h.branch (P.inside_later (L.trans (L.trans h₁ h₂) h₃) hin)
    (.alternative hform hclause hbody)

/-- A `switch` statement. -/
theorem selection (h : Below P n.size) (hin : P.inside s scope vertex n)
    (hform : n.kind.form? = some .selection) :
    L.Does s (selectionBody source n scope vertex) (statementLeaves source n) := by
  rw [statementLeaves, hform]
  refine (field hin hform (by decide)
    (by simp [Kind.headerFields, hform])).bind fun _ s₁ h₁ => ?_
  refine Logic.onChild fun body hbody _ => Logic.forNamed fun arm harm _ s₂ h₂ => ?_
  have hcase : n.CaseOf body arm := ⟨hform, hbody, harm⟩
  have hin₂ := P.inside_later (L.trans h₁ h₂) hin
  have hkind := fun hroot => hcase.kind hroot (P.mem_nodes hin)
  refine Logic.Does.bind (Logic.forM_option fun _ hc => (P.walk n scope).expression
    (P.header (amid_case hin₂ hcase) (fun hroot => ?_) rfl hc)) fun _ s₃ h₃ => ?_
  · unfold RunsThrough
    rcases hkind hroot with hk | hk <;> rw [hk] <;> exact ⟨⟨rfl, .inr rfl⟩, by decide⟩
  have hamid := amid_case (P.inside_later h₃ hin₂) hcase
  refine Logic.after (P.enclose hamid) fun block s₄ h₄ hopened => ?_
  refine Logic.forOrderedWithout fun c hc hsize s₅ h₅ => ?_
  exact Logic.does (h c (Nat.lt_trans hsize (size_lt_of_descendant hcase.mem_descendants)) s₅ block
    (some vertex) (P.caseItem (P.opened_later h₅ hopened) hkind hc))

/-- The clauses of a `for` statement. -/
theorem clauses {field : Field} (h : Below P n.size) (hopened : P.opened s scope vertex n n)
    (hform : n.kind.form? = some .countedLoop)
    (hfield : field ∈ n.kind.headerFields) :
    L.Does s (n.forChildrenAt field fun part _ => Build.clause source part scope vertex)
      (n.among (n.childrenAt field) (fun _ => size_lt_of_mem_childrenAt)
        fun part _ => clauseLeaves source part) := by
  refine Logic.forChildrenAt fun part hpart hsize s₁ h₁ => ?_
  have hopened₁ := P.opened_later h₁ hopened
  rw [Build.clause, clauseLeaves]
  cases hdeclares : part.kind.form?.any Form.declaresVariables with
  | false =>
    have hheld := P.clause (P.loop hopened₁ (.inl hform)) hform hfield hpart hdeclares
    cases hpart' : part.kind.form? with
    | none => exact (P.walk n scope).expression hheld
    | some form =>
      have hexpressions := (P.walk n scope).expressions hheld
        (Kind.isPlain_of_form (by rw [hpart']; rfl))
      cases form <;> first | exact hexpressions | simp [hpart', Form.declaresVariables] at hdeclares
  | true =>
    have hdue := P.declared hopened₁ hform hfield hpart hdeclares
    have hstatement := Logic.does (h part hsize s₁ scope (some vertex) hdue)
    cases hpart' : part.kind.form? with
    | none => simp [hpart'] at hdeclares
    | some form =>
      cases form <;> first | exact hstatement | simp [hpart', Form.declaresVariables] at hdeclares

/-- A `for` statement. -/
theorem countedLoop (h : Below P n.size) (hin : P.inside s scope vertex n)
    (hform : n.kind.form? = some .countedLoop) :
    L.Does s (countedBody source n scope vertex) (statementLeaves source n) := by
  rw [statementLeaves, hform]
  dsimp only
  rw [List.append_assoc, List.append_assoc]
  refine Logic.after (P.enclose (P.amid_self hin (by simp [hform]))) fun header s₁ h₁ hopened => ?_
  -- The three parts of the header are treated alike, in the scope of the header.
  have hclauses {s' : S} (hs : L.Later s₁ s') {field : Field} (hfield : field ∈ n.kind.headerFields) :=
    h.clauses (P.opened_later hs hopened) hform hfield
  refine (hclauses (L.refl s₁) (by simp [Kind.headerFields, hform])).bind fun _ s₂ h₂ => ?_
  refine (hclauses h₂ (by simp [Kind.headerFields, hform])).bind fun _ s₃ h₃ => ?_
  have h₃' := L.trans h₂ h₃
  refine (hclauses h₃' (by simp [Kind.headerFields, hform])).bind fun _ s₄ h₄ => ?_
  exact h.onBranch (P.loop (P.opened_later (L.trans h₃' h₄) hopened) (.inl hform)) hform rfl

/-- What a `for in` statement assigns or declares. -/
theorem iterationTarget {header : ScopeId} (hin : P.inside s scope vertex n)
    (hopened : P.opened s header vertex n n) (hform : n.kind.form? = some .iteration) :
    L.Does s (Build.iterationTarget source n scope header vertex) (iterationLeaves source n) := by
  unfold Build.iterationTarget iterationLeaves
  cases htext : (n.child? .kind).bind (·.text? source) with
  | none =>
    have hfield : Field.left ∈ n.kind.headerFields := by simp [Kind.headerFields, hform]
    exact Logic.forM_option fun left hleft => (P.walk n scope).writeTarget <|
      P.header (P.amid_self hin (by simp [hform]))
        (fun _ => ⟨runsThrough_self (by simp [hform]) hfield, hfield, by simp [hform]⟩) rfl hleft
  | some text =>
    have hkeyword : (n.child? .kind).isSome := by
      obtain ⟨keyword, hkeyword, -⟩ := Option.bind_eq_some_iff.1 htext
      rw [hkeyword]
      rfl
    cases hleft : n.child? .left with
    | none => exact .ret
    | some left =>
      have hnames := P.target hopened hform hkeyword hleft
      dsimp only [Option.forM]
      split
      · exact hnames
      · exact hnames
      · exact .ret
      · next hnone => cases hnone

/-- A `for in` statement. -/
theorem iteration (h : Below P n.size) (hin : P.inside s scope vertex n)
    (hform : n.kind.form? = some .iteration) :
    L.Does s (iterationBody source n scope vertex) (statementLeaves source n) := by
  rw [statementLeaves, hform]
  dsimp only
  rw [List.append_assoc]
  refine Logic.after (P.enclose (P.amid_self hin (by simp [hform]))) fun header s₁ h₁ hopened => ?_
  refine (field (P.inside_later h₁ hin) hform (by decide)
    (by simp [Kind.headerFields, hform])).bind fun _ s₂ h₂ => ?_
  refine (iterationTarget (P.inside_later (L.trans h₁ h₂) hin) (P.opened_later h₂ hopened)
    hform).bind fun _ s₃ h₃ => ?_
  exact h.onBranch (P.loop (P.opened_later (L.trans h₂ h₃) hopened) (.inr hform)) hform rfl

/-- A `try` statement. -/
theorem guarded (h : Below P n.size) (hin : P.inside s scope vertex n)
    (hform : n.kind.form? = some .guarded) :
    L.Does s (guardedBody source n scope vertex) (statementLeaves source n) := by
  rw [statementLeaves, hform]
  dsimp only
  rw [List.append_assoc]
  refine (h.onBranch hin hform rfl).bind fun _ s₁ h₁ => ?_
  have hin₁ := P.inside_later h₁ hin
  have hmem := P.mem_nodes hin
  refine Logic.Does.bind (Logic.onChild fun handler hhandler hsize => ?_) fun _ s₂ h₂ => ?_
  · -- A handler without a body is a place on its own.
    have hplace : ∃ place, P.amid s₁ scope vertex n place ∧
        ∀ body, handler.child? .body = some body → body = place := by
      cases hbody : handler.child? .body with
      | none => exact ⟨handler, amid_field hin₁ hform rfl (by decide)
          (by simp [Kind.headerFields, hform]) hhandler, fun _ h => by cases h⟩
      | some body => exact ⟨body, amid_clause hin₁ hform rfl (by decide) rfl rfl (by decide) hhandler
          (by decide) (mem_children_of_child? hbody), fun _ h => (Option.some.inj h).symm⟩
    obtain ⟨place, hamid, hplace⟩ := hplace
    refine Logic.after (P.enclose hamid) fun block s₂ h₂ hopened => ?_
    have hparameter : L.Does s₂ ((handler.child? .parameter).forM fun parameter =>
        declareNames block (parameter.patternNames source) vertex) [] := by
      cases hp : handler.child? .parameter with
      | none => exact .ret
      | some parameter => exact P.handled hopened hmem hform hhandler hp
    refine Logic.after hparameter fun _ s₃ h₃ _ => Logic.onChild fun body hbody hsize' => ?_
    obtain rfl := hplace body hbody
    refine h.items (Nat.le_of_lt (Nat.lt_trans hsize' hsize)) fun c hc =>
      P.blockItem (P.opened_later h₃ hopened) (fun hroot => ?_) hc
    have hcatch := hroot.kind_eq hmem hhandler (by rw [Kind.eq_of_form hform rfl]; rfl)
    exact hroot.kind_eq (mem_nodes_trans (child_mem_nodes (mem_children_of_child? hhandler)) hmem)
      hbody (by rw [hcatch]; rfl)
  · refine Logic.onChild fun clause hclause _ => Logic.onChild fun body hbody _ => ?_
    exact h.branch (P.inside_later h₂ hin₁) (.finalizer hform hclause hbody)

/-- The names of an export clause. -/
theorem exportedNames (hin : P.inside s scope vertex n) (hform : n.kind.form? = some .exportDecl)
    (hdeclaration : n.child? .declaration = none) (hvalue : n.child? .value = none) :
    L.Does s (Build.exportedNames source n scope) (exportLeaves source n) := by
  rw [Build.exportedNames, exportLeaves, hvalue]
  cases hsource : n.child? .source with
  | some _ => exact .ret
  | none =>
    refine Logic.forM fun clause hclause s₁ h₁ => Logic.forM fun specifier hspecifier s₂ h₂ => ?_
    obtain ⟨hclause, hkind⟩ := List.mem_filter.1 hclause
    cases hname : specifier.child? .name with
    | none => exact .ret
    | some name =>
      exact P.listed (P.inside_later (L.trans h₁ h₂) hin) hform hdeclaration hvalue hsource hclause
        (by simpa using hkind) hspecifier hname

/-- An export statement. -/
theorem exported (h : Below P n.size) (hin : P.inside s scope vertex n)
    (hform : n.kind.form? = some .exportDecl) :
    L.Says s (exportBody source n scope vertex) (statementLeaves source n)
      fun _ s' => P.linked s' n := by
  rw [statementLeaves, hform]
  unfold exportBody Node.withChild
  split
  · next declaration hdeclaration =>
    rw [under_of_some hdeclaration, if_pos (by rw [hdeclaration]; rfl)]
    refine L.bind (h declaration (size_lt_of_child? hdeclaration) s scope (some vertex)
      (P.carried hin hform hdeclaration)) fun _ s₁ h₁ hlinked => ?_
    exact P.exposed (P.inside_later h₁ hin) hform hdeclaration hlinked
  · next hnone =>
    rw [under_of_none hnone, List.nil_append, if_neg (by simp [hnone])]
    refine L.imp (?_ : L.Does s _ (exportLeaves source n)) (fun _ hleaf => hleaf) fun _ _ hs _ =>
      P.linked_inside (P.inside_later hs hin) fun _ => hnone
    cases hvalue : n.child? .value with
    | none => exact exportedNames hin hform hnone hvalue
    | some value =>
      rw [exportLeaves, hvalue]
      exact (P.walk n scope).expression (P.exportValue hin hform hnone hvalue)

/-! ### One step of the recursion -/

/-- A statement that holds others has its place in the graph before they are linked. -/
theorem entered {form : Form} {next : VertexId → Build Unit} {leaves : List Leaf}
    (hdue : P.due s scope owner n) (hform : n.kind.form? = some form) (hnesting : form.isNesting)
    (hother : form ≠ .block ∧ form ≠ .exportDecl)
    (hnext : ∀ v s', P.inside s' scope v n → L.Does s' (next v) leaves) :
    L.Says s (do
      let vertex ← statementVertex source n scope
      owner.forM fun owner => connect owner vertex { kind := .decl }
      next vertex) leaves fun _ s' => P.linked s' n := by
  refine P.enter hdue hform hnesting hother.1 fun v s₁ _ hin => ?_
  refine L.imp (hnext v s₁ hin) (fun _ hleaf => hleaf) fun _ _ hs _ =>
    P.linked_inside (P.inside_later hs hin) fun hform' => ?_
  exact absurd (Option.some.inj (hform.symm.trans hform')) hother.2

/-- One case for each form of statement. -/
theorem step (h : Below P n.size) (hdue : P.due s scope owner n) :
    L.Says s (Build.statement source n scope owner) (statementLeaves source n)
      fun _ s' => P.linked s' n := by
  cases hform : n.kind.form? with
  | none =>
    rw [Build.statement, hform, statementLeaves, hform]
    exact L.ret (P.linked_other (.inl hform))
  | some form =>
    cases hnesting : form.isNesting with
    | false => exact P.whole hdue hform hnesting
    | true =>
      rw [Build.statement, hform]
      cases form with
      | block =>
        refine L.imp (?_ : L.Does s _ (statementLeaves source n)) (fun _ hleaf => hleaf)
          fun _ _ _ _ => P.linked_other (.inr hform)
        rw [statementLeaves, hform]
        exact Logic.after (P.block hdue hform) fun block s₁ _ hitems =>
          h.items (Nat.le_refl _) hitems
      | exportDecl => exact P.enter hdue hform rfl (by decide) fun v s₁ _ hin => h.exported hin hform
      | conditional => exact entered hdue hform rfl (by decide) fun v s₁ hin => h.conditional hin hform
      | selection => exact entered hdue hform rfl (by decide) fun v s₁ hin => h.selection hin hform
      | countedLoop => exact entered hdue hform rfl (by decide) fun v s₁ hin => h.countedLoop hin hform
      | iteration => exact entered hdue hform rfl (by decide) fun v s₁ hin => h.iteration hin hform
      | whileLoop =>
        refine entered hdue hform rfl (by decide) fun v s₁ hin => ?_
        rw [statementLeaves, hform]
        refine (field hin hform (by decide) (by simp [Kind.headerFields, hform])).bind
          fun _ s₂ h₂ => ?_
        exact h.onBranch (P.inside_later h₂ hin) hform rfl
      | doLoop =>
        refine entered hdue hform rfl (by decide) fun v s₁ hin => ?_
        -- The condition comes last, and is the first of the leaves.
        refine L.imp ((h.onBranch hin hform rfl).bind fun _ s₂ h₂ => field (P.inside_later h₂ hin)
          hform (by decide) (by simp [Kind.headerFields, hform]) : L.Does s₁ _ _)
          (fun leaf hleaf => ?_) fun _ _ _ _ => trivial
        rw [statementLeaves, hform] at hleaf
        exact List.mem_append.2 (List.mem_append.1 hleaf).symm
      | guarded => exact entered hdue hform rfl (by decide) fun v s₁ hin => h.guarded hin hform
      | labeled =>
        refine entered hdue hform rfl (by decide) fun v s₁ hin => ?_
        rw [statementLeaves, hform]
        refine Logic.onChild fun body hbody hsize => ?_
        exact Logic.does (h body hsize s₁ scope (some v) (P.labeled hin hform hbody))
      | _ => cases hnesting

end Below

/-! ## The recursion -/

/-- The induction on the size of nodes. -/
theorem below (P : Passage L source root) (limit : Nat) : Below P limit := by
  induction limit with
  | zero => exact fun _ hn => absurd hn (Nat.not_lt_zero _)
  | succ limit ih =>
    refine fun n hn s scope owner hdue => Below.step (fun c hc => ?_) hdue
    exact ih c (Nat.lt_of_lt_of_le hc (Nat.le_of_lt_succ hn))

/-- **What is said of every statement.** -/
theorem statement (P : Passage L source root) (hdue : P.due s scope owner n) :
    L.Says s (Build.statement source n scope owner) (statementLeaves source n)
      fun _ s' => P.linked s' n :=
  (P.below n.size).step hdue

end Passage

end Build

end DeadCode
