import DeadCode.Proofs.Resolution.Walk
import DeadCode.Proofs.Syntax.FileScope

/-! # The way through a declaration

Declarations, returns and expressions hold no other statement: they are linked as a whole. What is
linked then are expressions, and the names of a declaration are declared after its values. The way is
gone here once, for anything that can be said of steps. -/

namespace DeadCode

open Node

/-- **A class or a declaration of variables declares a name** where it stands. -/
inductive Node.Introduces (source : String) (n : Node) (name : String) : Hoist → Prop where
  | ofClass (hform : n.kind.form? = some .classDecl) (hname : n.name? source = some name) :
      Introduces source n name .lexical
  | ofVariable {d pattern : Node} (isVar : Bool)
      (hform : n.kind.form? = some (if isVar then .varDecl else .lexicalDecl))
      (hd : d ∈ n.declarators) (hpattern : d.child? .name = some pattern)
      (hname : name ∈ pattern.declaredNames source) :
      Introduces source n name (if isVar then .hoisted else .lexical)

theorem Node.Introduces.mem_statementNames {source name : String} {n : Node} {hoist : Hoist}
    (h : n.Introduces source name hoist) : name ∈ n.statementNames source := by
  cases h with
  | ofClass hform hname => simp [statementNames, hform, hname]
  | ofVariable isVar hform hd hpattern hname =>
    refine mem_statementNames_of_declarator ?_ hd hpattern hname
    cases isVar
    · exact .inl hform
    · exact .inr hform

/-- Hoisted names come from hoisted forms. -/
theorem Node.Introduces.isHoisted {source name : String} {n : Node} {hoist : Hoist}
    (h : n.Introduces source name hoist) :
    n.kind.form?.any Form.isHoisted = decide (hoist = .hoisted) := by
  cases h with
  | ofClass hform => rw [hform]; rfl
  | ofVariable isVar hform =>
    rw [hform]
    cases isVar <;> rfl

namespace Build

variable {S : Type} {L : Logic S} {s : S} {source : String} {n : Node} {scope : ScopeId}

theorem Walk.expressions (W : Walk L source scope) (hv : W.held s .resolve n)
    (hplain : n.kind.isPlain) :
    L.Does s (Build.expressions source n scope) (partLeaves source n) :=
  Logic.forM fun _ hc _ hs => W.expression
    (W.part (W.held_later hs hv) (.inl rfl) hplain (mem_children_of_namedChildren hc))

/-- **What a logic has to say of the steps of a statement that holds no other.** -/
structure Whole {S : Type} (L : Logic S) (source : String) where
  /-- A statement has its place in the graph, and its parts are linked in a scope. -/
  inside : S → ScopeId → VertexId → Node → Prop
  /-- What is said of the expressions in a statement. -/
  walk : Node → (scope : ScopeId) → Walk L source scope
  inside_later : ∀ {s s' scope v n}, L.Later s s' → inside s scope v n → inside s' scope v n
  held : ∀ {s scope v n}, inside s scope v n → (walk n scope).held s (.ofStatement n.kind) n
  backs : ∀ {s scope v n}, inside s scope v n → (walk n scope).backs s v n
  /-- A function that hoisting has not made visible is declared now. -/
  function : ∀ {s scope v n name}, inside s scope v n → n.kind.form? = some .functionDecl →
    n.name? source = some name → (L.builder s).scopes.lookup? scope name = none →
    (walk n scope).known n.key →
    L.Does s (declare scope { Binding.declared name v with callable := some n.key } .hoisted) []
  declares : ∀ {s scope v n name hoist shape}, inside s scope v n → n.Introduces source name hoist →
    (hoist = .hoisted → n.Initialises source name) → (walk n scope).formed shape s →
    L.Does s (declare scope (shape.bind name v) hoist) []
  /-- A `var` name without a value keeps the binding that hoisting gave it. -/
  var : ∀ {s scope v n name}, inside s scope v n → n.Introduces source name .hoisted →
    L.Does s (hoistVar scope name v false) []
  returns : ∀ {s scope v n}, inside s scope v n → n.kind.form? = some .returning →
    L.Does s (noteReturn v) []

namespace Whole

variable {W : Whole L source} {vertex : VertexId}

theorem held_link (hin : W.inside s scope vertex n) (hkind : n.kind.isCompound) :
    (W.walk n scope).held s .link n := by
  have hv := W.held hin
  rwa [Visit.ofStatement, if_pos hkind] at hv

theorem held_resolve (hin : W.inside s scope vertex n) (hkind : n.kind.isCompound = false) :
    (W.walk n scope).held s .resolve n := by
  have hv := W.held hin
  rwa [Visit.ofStatement, if_neg (by simp [hkind])] at hv

/-- A function declaration. -/
theorem functionDeclaration (hin : W.inside s scope vertex n)
    (hform : n.kind.form? = some .functionDecl) :
    L.Does s (Build.functionDeclaration source n scope vertex) [.defer n] := by
  have hv := held_link hin (by simp [Kind.isCompound, hform])
  refine Logic.before ((W.walk n scope).register hv (by simp [Visit.defers, hform]) (W.backs hin))
    fun key s₁ h₁ hkey => ?_
  obtain ⟨rfl, hknown⟩ := hkey
  split
  · exact L.ret trivial
  · next name hname =>
    refine L.look ?_
    split
    · next hnone =>
      exact W.function (W.inside_later h₁ hin) hform hname (Option.isNone_iff_eq_none.1 hnone) hknown
    · exact L.ret trivial

/-- A class declaration. -/
theorem classDeclaration (hin : W.inside s scope vertex n)
    (hform : n.kind.form? = some .classDecl) :
    L.Does s (Build.classDeclaration source n scope vertex) (classLeaves source n) := by
  have hv := held_link hin (by simp [Kind.isCompound, hform])
  refine Logic.before ((W.walk n scope).classShape hv (isClassVisit_of_form hform) (W.backs hin))
    fun shape s₁ h₁ hshape => ?_
  split
  · exact L.ret trivial
  · next name hname =>
    exact W.declares (W.inside_later h₁ hin) (.ofClass hform hname) (fun h => by cases h) hshape

/-- One declarator of a variable declaration. -/
theorem declarator {d : Node} {isVar : Bool} (hin : W.inside s scope vertex n)
    (hform : n.kind.form? = some (if isVar then .varDecl else .lexicalDecl))
    (hd : d ∈ n.declarators) :
    L.Does s (Build.declarator source d scope vertex isVar) (fieldLeaves source d .value) := by
  have hmem := mem_children_of_declarators hd
  have hkind : d.kind = .variableDeclarator := by simpa using (List.mem_filter.1 hd).2
  have hn := held_resolve hin (by cases isVar <;> simp [Kind.isCompound, hform])
  have hv : (W.walk n scope).held s .resolve d :=
    (W.walk n scope).part hn (.inl rfl) (Kind.isPlain_of_form (by rw [hform]; rfl)) hmem
  have hvalue {value : Node} (hc : d.child? .value = some value) :
      (W.walk n scope).held s .resolve value :=
    (W.walk n scope).part hv (.inl rfl) (by rw [hkind]; rfl) (mem_children_of_child? hc)
  refine Logic.before (Logic.forM_option fun value hc => (W.walk n scope).expression (hvalue hc))
    fun _ s₁ h₁ _ => ?_
  have hin₁ := W.inside_later h₁ hin
  have hformed {s' : S} (shape : ValueShape) (hcallable : shape.callable = none)
      (hmembers : shape.members = []) : (W.walk n scope).formed shape s' :=
    (W.walk n scope).formed_plain hcallable hmembers
  split
  · exact L.ret trivial
  next pattern hpattern =>
  have hinitialises {name : String} (hname : name ∈ pattern.declaredNames source)
      (hvalue : (d.child? .value).isSome ∨ pattern.kind ≠ .identifier)
      (hhoist : (if isVar then Hoist.hoisted else .lexical) = .hoisted) :
      n.Initialises source name := by
    cases isVar with
    | true => exact ⟨hform, d, hd, pattern, hpattern, hname, hvalue⟩
    | false => cases hhoist
  split
  · next hidentifier =>
    have hnames {name : String} (htext : pattern.text? source = some name) :
        name ∈ pattern.declaredNames source := by
      refine mem_declaredNames_of_patternNames ?_
      rw [patternNames, hidentifier]
      simp [htext]
    split
    · exact L.ret trivial
    · next name value htext hc =>
      refine Logic.after ((W.walk n scope).valueShape ((W.walk n scope).held_later h₁ (hvalue hc))
        ((W.walk n scope).backs_later h₁ ((W.walk n scope).backs_below hn (W.backs hin)
          (mem_nodes_trans (child_mem_nodes (mem_children_of_child? hc)) (child_mem_nodes hmem)))))
        fun shape s₂ h₂ hshape => ?_
      exact W.declares (W.inside_later h₂ hin₁) (.ofVariable isVar hform hd hpattern (hnames htext))
        (hinitialises (hnames htext) (.inl (by rw [hc]; rfl))) hshape
    · next name htext _ =>
      cases isVar with
      | true => exact W.var hin₁ (.ofVariable true hform hd hpattern (hnames htext))
      | false =>
        have hdeclares := W.declares hin₁ (.ofVariable false hform hd hpattern (hnames htext))
          (fun h => by cases h) (hformed {} rfl rfl)
        exact hdeclares
  · next hother =>
    refine Logic.forM_nil fun entry hentry s₂ h₂ => ?_
    have hname := mem_declaredNames_of_patternKeys hentry
    have hdeclares := W.declares (W.inside_later h₂ hin₁) (.ofVariable isVar hform hd hpattern hname)
      (hinitialises hname (.inr hother)) (hformed
        { origin := ((d.child? .value).bind (·.requireSource? source)).map fun specifier =>
            { source := specifier, name := entry.2 } } rfl rfl)
    exact hdeclares

/-- A variable declaration. -/
theorem variableDeclaration {isVar : Bool} (hin : W.inside s scope vertex n)
    (hform : n.kind.form? = some (if isVar then .varDecl else .lexicalDecl)) :
    L.Does s (Build.variableDeclaration source n scope vertex isVar)
      (n.declarators.flatMap (fieldLeaves source · .value)) :=
  Logic.forM fun _ hd _ hs => declarator (W.inside_later hs hin) hform hd

/-- **Linking a statement that holds no other** starts with its place in the graph, and what follows is
known then. -/
theorem entering (W : Whole L source) {form : Form} {owner : Option VertexId}
    {motive : Build Unit → List Leaf → Prop} (hform : n.kind.form? = some form)
    (hnesting : form.isNesting = false)
    (henter : ∀ {next : VertexId → Build Unit} {leaves : List Leaf},
      (∀ v s', W.inside s' scope v n → L.Does s' (next v) leaves) → motive (do
        let vertex ← statementVertex source n scope
        owner.forM fun owner => connect owner vertex { kind := .decl }
        next vertex) leaves) :
    motive (Build.statement source n scope owner) (statementLeaves source n) := by
  have hplain := Kind.isPlain_of_form (by rw [hform]; rfl)
  have hexpressions {v : VertexId} {s' : S} (hin : W.inside s' scope v n)
      (hkind : n.kind.isCompound = false) :=
    (W.walk n scope).expressions (held_resolve hin hkind) hplain
  rw [Build.statement, hform, statementLeaves, hform]
  cases form with
  | importDecl | inert => exact henter fun _ _ _ => .ret
  | functionDecl => exact henter fun _ _ hin => functionDeclaration hin hform
  | classDecl => exact henter fun _ _ hin => classDeclaration hin hform
  | lexicalDecl | varDecl => exact henter fun _ _ hin => variableDeclaration hin hform
  | returning =>
    refine henter fun v s₁ hin => Logic.after (W.returns hin hform) fun _ s₂ h₂ _ => ?_
    exact hexpressions (W.inside_later h₂ hin) (by simp [Kind.isCompound, hform])
  | throwing | expression =>
    exact henter fun _ _ hin => hexpressions hin (by simp [Kind.isCompound, hform])
  | _ => cases hnesting

/-- **What is said of linking a statement that holds no other**, once it has its place in the graph. -/
theorem statement (W : Whole L source) {form : Form} {owner : Option VertexId} {post : S → Prop}
    (hform : n.kind.form? = some form) (hnesting : form.isNesting = false)
    (henter : ∀ {next : VertexId → Build Unit} {leaves : List Leaf},
      (∀ v s', W.inside s' scope v n → L.Does s' (next v) leaves) → L.Says s (do
        let vertex ← statementVertex source n scope
        owner.forM fun owner => connect owner vertex { kind := .decl }
        next vertex) leaves fun _ => post) :
    L.Says s (Build.statement source n scope owner) (statementLeaves source n) fun _ => post :=
  W.entering (motive := fun step leaves => L.Says s step leaves fun _ => post) hform hnesting henter

end Whole

end Build

end DeadCode
