import DeadCode.Proofs.Resolution.Parts
import DeadCode.Proofs.Syntax.Uses

/-! # The way through an expression

What is shown of an expression is shown along the way on which it is resolved: of each single step,
and from there of all that is composed of them. The way is gone here once, for anything that can be
said of steps. -/

namespace DeadCode

open Node

/-! ## Visits of expressions and classes -/

namespace Visit

/-- A node is visited as an expression: as one, or as a member that is no method. -/
def Reads (visit : Visit) (kind : Kind) : Prop :=
  visit = resolve ∨ visit = member ∧ kind ≠ .methodDefinition

variable {visit : Visit} {kind : Kind}

theorem Reads.defers_eq (h : visit.Reads kind) : visit.defers kind = kind.isFunctionValue := by
  rcases h with rfl | ⟨rfl, h⟩
  · rfl
  · simp [defers, h]

/-- The parts of what is read are visited as in any expression. -/
theorem Reads.below_eq (h : visit.Reads kind) (child : Kind) :
    visit.below kind child = resolve.below kind child := by
  rcases h with rfl | ⟨rfl, -⟩ <;> rfl

theorem Reads.visit_eq (h : visit.Reads kind) : visit = .resolve ∨ visit = .member :=
  h.imp_right And.left

end Visit

/-- Whether relations of a kind come from names and members in the text. -/
def RelationKind.isReference : RelationKind → Bool
  | call | read | write | readProp | writeProp | deleteProp | arg | param => true
  | returns | decl | imports | exports => false

theorem RelationKind.ne_decl_of_isReference {kind : RelationKind} (h : kind.isReference) :
    kind ≠ .decl := by
  rintro rfl
  cases h

namespace Build

/-- What a class is visited as: its parts are visited as those of a class. -/
structure IsClassVisit (visit : Visit) (n : Node) : Prop where
  isClass : n.kind.isClass
  defers : visit.defers n.kind = false
  below : ∀ kind, visit.below n.kind kind = .ofClassPart kind

theorem isClassVisit_of_reads {visit : Visit} {n : Node} (hreads : visit.Reads n.kind)
    (hk : n.kind = .classLiteral) : IsClassVisit visit n where
  isClass := by rw [hk]; rfl
  defers := by rw [hreads.defers_eq, hk]; rfl
  below := fun _ => by rw [hreads.below_eq, hk]; rfl

theorem isClassVisit_of_form {n : Node} (hform : n.kind.form? = some .classDecl) :
    IsClassVisit .link n where
  isClass := by
    generalize n.kind = kind at hform
    cases kind <;> first | rfl | simp [Kind.form?] at hform
  defers := by simp [Visit.defers, hform]
  below := fun _ => by simp [Visit.below, hform]

/-- The leaves of a part of an object. -/
def objectPartLeaves (source : String) (part : Node) : List Leaf :=
  match part.kind with
  | .pair =>
    (part.under .key fun key _ =>
      if key.kind = .computedPropertyName then expressionLeaves source key else []) ++
      part.under .value fun value _ => expressionLeaves source value
  | .methodDefinition => [.defer part]
  | _ => expressionLeaves source part

/-- The leaves of a member of a class. -/
def classPartLeaves (source : String) (part : Node) : List Leaf :=
  match part.kind with
  | .methodDefinition => [.defer part]
  | .fieldDefinition | .publicFieldDefinition =>
    part.under .value fun value _ => expressionLeaves source value
  | _ => []

/-! ## Logics of steps -/

/-- **A way to speak of steps**: from a state, a step meets all leaves of a list, and after it a
result and a later state are as wanted. -/
structure Logic (S : Type) where
  builder : S → Builder
  Later : S → S → Prop
  Says : {α : Type} → S → Build α → List Leaf → (α → S → Prop) → Prop
  Met : List Leaf → S → Prop
  refl : ∀ s, Later s s
  trans : ∀ {s s' s''}, Later s s' → Later s' s'' → Later s s''
  ret : ∀ {α : Type} {s : S} {a : α} {post : α → S → Prop}, post a s → Says s (pure a) [] post
  bind : ∀ {α β : Type} {s : S} {step : Build α} {next : α → Build β} {leaves leaves' : List Leaf}
    {post : α → S → Prop} {post' : β → S → Prop}, Says s step leaves post →
    (∀ a s', Later s s' → post a s' → Says s' (next a) leaves' post') →
    Says s (step >>= next) (leaves ++ leaves') post'
  look : ∀ {α : Type} {s : S} {next : Builder → Build α} {leaves : List Leaf}
    {post : α → S → Prop}, Says s (next (builder s)) leaves post → Says s (get >>= next) leaves post
  imp : ∀ {α : Type} {s : S} {step : Build α} {leaves leaves' : List Leaf}
    {post post' : α → S → Prop}, Says s step leaves post → (∀ leaf ∈ leaves', leaf ∈ leaves) →
    (∀ a s', Later s s' → post a s' → post' a s') → Says s step leaves' post'
  met : ∀ {α : Type} {s : S} {step : Build α} {leaves : List Leaf} {post : α → S → Prop},
    Says s step leaves post → Says s step leaves fun a s' => post a s' ∧ Met leaves s'
  met_later : ∀ {s s' : S} {leaves : List Leaf}, Later s s' → Met leaves s → Met leaves s'

namespace Logic

variable {S : Type} (L : Logic S) {α β γ : Type} {s : S} {step : Build α} {leaves : List Leaf}
  {post : α → S → Prop} {post' : β → S → Prop}

/-- A step meets all leaves of a list. -/
def Does (s : S) (step : Build α) (leaves : List Leaf) : Prop :=
  L.Says s step leaves fun _ _ => True

variable {L}

theorem Does.ret {a : α} : L.Does s (pure a) [] :=
  L.ret trivial

theorem Does.bind {next : α → Build β} {leaves' : List Leaf} (h : L.Does s step leaves)
    (hnext : ∀ a s', L.Later s s' → L.Says s' (next a) leaves' post') :
    L.Says s (step >>= next) (leaves ++ leaves') post' :=
  L.bind h fun a s' hs _ => hnext a s' hs

/-- A step that meets nothing, and then another one. -/
theorem after {next : α → Build β} (h : L.Says s step [] post)
    (hnext : ∀ a s', L.Later s s' → post a s' → L.Says s' (next a) leaves post') :
    L.Says s (step >>= next) leaves post' :=
  L.bind h hnext

/-- A step, and then one that meets nothing. -/
theorem before {next : α → Build β} (h : L.Says s step leaves post)
    (hnext : ∀ a s', L.Later s s' → post a s' → L.Says s' (next a) [] post') :
    L.Says s (step >>= next) leaves post' := by
  rw [← List.append_nil leaves]
  exact L.bind h hnext

theorem does (h : L.Says s step leaves post) : L.Does s step leaves :=
  L.imp h (fun _ hleaf => hleaf) fun _ _ _ _ => trivial

/-! ### Loops -/

/-- A loop meets what its rounds meet, and keeps what they keep. -/
theorem foldlM {ys : List γ} {visit : β → γ → Build β} {init : β} {found : γ → List Leaf}
    {good : β → S → Prop} (hinit : good init s)
    (h : ∀ y ∈ ys, ∀ acc s', L.Later s s' → good acc s' →
      L.Says s' (visit acc y) (found y) good) :
    L.Says s (ys.foldlM visit init) (ys.flatMap found) good := by
  induction ys generalizing s init with
  | nil => exact L.ret hinit
  | cons x rest ih =>
    rw [List.foldlM_cons, List.flatMap_cons]
    refine L.bind (h x List.mem_cons_self init s (L.refl s) hinit) fun acc s' hs hacc => ?_
    exact ih hacc fun y hy acc s'' hs' => h y (List.mem_cons_of_mem _ hy) acc s'' (L.trans hs hs')

/-- A loop meets what its rounds meet. -/
theorem forM {ys : List γ} {visit : γ → Build Unit} {found : γ → List Leaf}
    (h : ∀ y ∈ ys, ∀ s', L.Later s s' → L.Does s' (visit y) (found y)) :
    L.Does s (ys.forM visit) (ys.flatMap found) := by
  induction ys generalizing s with
  | nil => exact .ret
  | cons y rest ih =>
    rw [List.forM_eq_forM, List.forM_cons, List.flatMap_cons]
    refine (h y List.mem_cons_self s (L.refl s)).bind fun _ s' hs => ?_
    exact ih fun z hz s'' hs' => h z (List.mem_cons_of_mem _ hz) s'' (L.trans hs hs')

theorem forM_nil {ys : List γ} {visit : γ → Build Unit}
    (h : ∀ y ∈ ys, ∀ s', L.Later s s' → L.Does s' (visit y) []) : L.Does s (ys.forM visit) [] :=
  L.imp (forM h) (fun _ hleaf => absurd hleaf List.not_mem_nil) fun _ _ _ _ => trivial

/-- What each round leaves behind is there after the loop. -/
theorem forM_each {ys : List γ} {visit : γ → Build Unit} {left : γ → S → Prop}
    (hleft : ∀ y s' s'', L.Later s' s'' → left y s' → left y s'')
    (h : ∀ y ∈ ys, ∀ s', L.Later s s' → L.Says s' (visit y) [] fun _ => left y) :
    L.Says s (ys.forM visit) [] fun _ s' => ∀ y ∈ ys, left y s' := by
  induction ys generalizing s with
  | nil => exact L.ret nofun
  | cons y rest ih =>
    rw [List.forM_eq_forM, List.forM_cons]
    refine after (h y List.mem_cons_self s (L.refl s)) fun _ s' hs hy => ?_
    refine L.imp (ih fun z hz s'' hs' => h z (List.mem_cons_of_mem _ hz) s'' (L.trans hs hs'))
      (fun _ hleaf => hleaf) fun _ s'' hs' hrest => ?_
    exact List.forall_mem_cons.2 ⟨hleft y s' s'' hs' hy, hrest⟩

theorem forM_option {x : Option γ} {visit : γ → Build Unit} {found : γ → List Leaf}
    (h : ∀ a, x = some a → L.Does s (visit a) (found a)) :
    L.Does s (x.forM visit) ((x.map found).getD []) := by
  cases x with
  | none => exact .ret
  | some a => exact h a rfl

section Walkers

variable {n : Node} {field : Field} {found : (c : Node) → c.size < n.size → List Leaf}

theorem foldOver {ns : List Node} {hlt : ∀ c ∈ ns, c.size < n.size} {init : β}
    {visit : β → (c : Node) → c.size < n.size → Build β} {good : β → S → Prop} (hinit : good init s)
    (h : ∀ c ∈ ns, ∀ (hc : c.size < n.size) acc s', L.Later s s' → good acc s' →
      L.Says s' (visit acc c hc) (found c hc) good) :
    L.Says s (n.foldOver ns hlt init visit) (n.among ns hlt found) good := by
  refine L.imp (foldlM hinit fun (c : { c // c ∈ ns }) _ acc s' hs =>
    h c.1 c.2 (hlt c.1 c.2) acc s' hs) (fun leaf hleaf => ?_) fun _ _ _ hgood => hgood
  obtain ⟨c, hc, hleaf⟩ := mem_among.1 hleaf
  exact List.mem_flatMap.2 ⟨⟨c, hc⟩, List.mem_attach _ _, hleaf⟩

/-- A loop over the named children of a node. -/
theorem foldNamed {init : β} {visit : β → (c : Node) → c.size < n.size → Build β}
    {good : β → S → Prop} (hinit : good init s)
    (h : ∀ c ∈ n.namedChildren, ∀ (hc : c.size < n.size) acc s', L.Later s s' → good acc s' →
      L.Says s' (visit acc c hc) (found c hc) good) :
    L.Says s (n.foldNamed init visit) (n.overNamed found) good :=
  foldOver hinit h

theorem foldNamed_nil {init : β} {visit : β → (c : Node) → c.size < n.size → Build β}
    {good : β → S → Prop} (hinit : good init s)
    (h : ∀ c ∈ n.namedChildren, ∀ (hc : c.size < n.size) acc s', L.Later s s' → good acc s' →
      L.Says s' (visit acc c hc) [] good) :
    L.Says s (n.foldNamed init visit) [] good :=
  L.imp (foldNamed hinit h) (fun _ hleaf => absurd hleaf List.not_mem_nil) fun _ _ _ hgood => hgood

theorem forNamed {visit : (c : Node) → c.size < n.size → Build Unit}
    (h : ∀ c ∈ n.namedChildren, ∀ (hc : c.size < n.size) s', L.Later s s' →
      L.Does s' (visit c hc) (found c hc)) :
    L.Does s (n.forNamed visit) (n.overNamed found) :=
  foldNamed trivial fun c hmem hc _ s' hs _ => h c hmem hc s' hs

/-- A step at a child of a node, if there is one. -/
theorem withChild {otherwise : Build β} {visit : (c : Node) → c.size < n.size → Build β}
    (h : ∀ c, n.child? field = some c → ∀ hc : c.size < n.size,
      L.Says s (visit c hc) (found c hc) post')
    (hnone : n.child? field = none → L.Says s otherwise [] post') :
    L.Says s (n.withChild field otherwise visit) (n.under field found) post' := by
  unfold Node.withChild
  split
  · next c hc =>
    rw [under_of_some hc]
    exact h c hc _
  · next hc =>
    rw [under_of_none hc]
    exact hnone hc

theorem onChild {visit : (c : Node) → c.size < n.size → Build Unit}
    (h : ∀ c, n.child? field = some c → ∀ hc : c.size < n.size,
      L.Does s (visit c hc) (found c hc)) :
    L.Does s (n.onChild field visit) (n.under field found) :=
  withChild h fun _ => L.ret trivial

/-- A step on a child that meets nothing. -/
theorem withChild_nil {otherwise : Build β} {visit : (c : Node) → c.size < n.size → Build β}
    (h : ∀ c, n.child? field = some c → ∀ hc : c.size < n.size, L.Says s (visit c hc) [] post')
    (hnone : L.Says s otherwise [] post') :
    L.Says s (n.withChild field otherwise visit) [] post' := by
  unfold Node.withChild
  split
  · next c hc => exact h c hc _
  · exact hnone

end Walkers

end Logic

/-! ## References -/

/-- **What a logic has to say of references**: at which nodes they are made, and to what. -/
structure Naming {S : Type} (L : Logic S) where
  /-- A node can be related to statements. -/
  refers : S → Node → Prop
  /-- Nodes can be related to a statement. -/
  target : S → VertexId → Prop
  refers_later : ∀ {s s' n}, L.Later s s' → refers s n → refers s' n
  target_later : ∀ {s s' v}, L.Later s s' → target s v → target s' v
  -- What names and chains of names are bound to was declared by such a statement.
  declared : ∀ {s scope name v}, (L.builder s).scopes.declarationOf? scope name = some v → target s v
  chained : ∀ {s scope chain x v}, (L.builder s).scopes.lookupChain? scope chain = some x →
    x.declaration = some v → target s v
  resolved : ∀ {s scope chain r v}, (L.builder s).scopes.resolvePrefix? scope chain = some r →
    r.1.declaration = some v → target s v
  relate : ∀ {s n v relation}, refers s n → target s v → relation.kind.isReference →
    L.Does s (relate n v relation) []

namespace Naming

variable {S : Type} {L : Logic S} (N : Naming L) {s : S} {n callee : Node} {source : String}
  {scope : ScopeId}

/-- Relating a node to the declaration of a name. -/
theorem relateDeclaration {name : String} {relation : Relation} (hn : N.refers s n)
    (hkind : relation.kind.isReference) :
    L.Does s (do
      match ← declarationOf? scope name with
      | none => pure ()
      | some target => Build.relate n target relation) [] := by
  refine L.look ?_
  cases hfound : (L.builder s).scopes.declarationOf? scope name with
  | none => exact L.ret trivial
  | some target => exact N.relate hn (N.declared hfound) hkind

theorem reference {kind : RelationKind} (hn : N.refers s n) (hkind : kind.isReference) :
    L.Does s (Build.reference source n scope kind) [] := by
  unfold Build.reference
  split
  · exact L.ret trivial
  · exact N.relateDeclaration hn hkind

theorem argumentReference {index : Nat} (hn : N.refers s n) :
    L.Does s (Build.argumentReference source n scope index) [] := by
  unfold Build.argumentReference
  split
  · exact L.ret trivial
  · exact N.relateDeclaration hn rfl

theorem patternReferences (hn : N.refers s n) :
    L.Does s (Build.patternReferences source n scope) [] :=
  Logic.forM_nil fun _ _ _ hs => N.relateDeclaration (N.refers_later hs hn) rfl

theorem memberReference {chain : List String} {kind : RelationKind} (hn : N.refers s n)
    (hkind : kind.isReference) : L.Does s (Build.memberReference n chain scope kind) [] := by
  refine L.look ?_
  split
  · exact L.ret trivial
  · next htarget =>
    obtain ⟨r, hr, hdeclaration⟩ := Option.bind_eq_some_iff.1 htarget
    exact N.relate hn (N.resolved hr hdeclaration) hkind

theorem parameterReferences {target : VertexId} {key : Key} {count : Nat} (hn : N.refers s n)
    (htarget : N.target s target) :
    L.Does s (Build.parameterReferences source n target key count) [] := by
  refine L.look ?_
  split
  · exact L.ret trivial
  · refine Logic.forM_nil fun parameter _ s' hs => ?_
    dsimp only
    split
    · exact N.relate (N.refers_later hs hn) (N.target_later hs htarget) rfl
    · exact L.ret trivial

/-- **A callee is referred to** if calls can be noted and callables queued. -/
theorem namedCallee {count : Nat} {chain : List String} {fallback : RelationKind}
    (hlink : L.Does s (noteLinked n chain scope) [])
    (hnote : ∀ s' key site, (L.builder s').graph.findVertex? n.span = some site →
      L.Does s' (noteCall key site) [])
    (henqueue : ∀ s' key, L.Does s' (enqueue key) []) (hn : N.refers s n)
    (hcallee : N.refers s callee) (hkind : fallback.isReference) :
    L.Does s (Build.namedCallee source n callee scope count chain fallback) [] := by
  refine Logic.after hlink fun _ s₀ h₀ _ => L.look ?_
  replace hn := N.refers_later h₀ hn
  replace hcallee := N.refers_later h₀ hcallee
  dsimp only
  split
  · next hfound =>
    have htarget := N.chained hfound rfl
    refine Logic.after (N.relate hn htarget rfl) fun _ s₁ h₁ _ => ?_
    refine Logic.after (N.parameterReferences (N.refers_later h₁ hn) (N.target_later h₁ htarget))
      fun _ s₂ h₂ _ => L.look ?_
    split
    · next site hsite => exact Logic.after (hnote s₂ _ site hsite) fun _ s₃ _ _ => henqueue s₃ _
    · exact henqueue s₂ _
  · exact henqueue s₀ _
  · next hfound => exact N.relate hcallee (N.chained hfound rfl) hkind
  · exact L.ret trivial
  · split
    · exact N.memberReference hcallee rfl
    · exact L.ret trivial

end Naming

/-! ## The steps of an expression -/

/-- **What a logic has to say of the steps of an expression** in a scope. -/
structure Walk {S : Type} (L : Logic S) (source : String) (scope : ScopeId) where
  /-- A node is visited in some way. -/
  held : S → Visit → Node → Prop
  /-- A statement stands for what a node lies in. -/
  backs : S → VertexId → Node → Prop
  /-- There is such a statement. -/
  placed : S → VertexId → Prop
  /-- There is such a callable. -/
  known : Key → Prop
  /-- The shape of a value is as it should be. -/
  formed : ValueShape → S → Prop
  held_later : ∀ {s s' visit n}, L.Later s s' → held s visit n → held s' visit n
  backs_later : ∀ {s s' owner n}, L.Later s s' → backs s owner n → backs s' owner n
  formed_later : ∀ {s s' shape}, L.Later s s' → formed shape s → formed shape s'
  backs_placed : ∀ {s owner n}, backs s owner n → placed s owner
  backs_below : ∀ {s visit owner n m}, held s visit n → backs s owner n → m ∈ n.nodes →
    backs s owner m
  -- The parts of a node are visited in its course.
  part : ∀ {s visit n c}, held s visit n → visit.Reads n.kind → n.kind.isPlain → c ∈ n.children →
    held s .resolve c
  objectPart : ∀ {s visit n c}, held s visit n → visit.Reads n.kind → n.kind = .objectLiteral →
    c ∈ n.children → held s .member c
  argument : ∀ {s visit n list c}, held s visit n → visit.Reads n.kind → n.kind.isPlain →
    n.child? .arguments = some list → c ∈ list.children → held s .resolve c
  base : ∀ {s visit n heritage c}, held s visit n → IsClassVisit visit n → heritage ∈ n.children →
    heritage.kind = .classHeritage → c ∈ heritage.children → held s .resolve c
  classPart : ∀ {s visit n body c}, held s visit n → IsClassVisit visit n →
    n.child? .body = some body → c ∈ body.children → c.kind ≠ .methodDefinition → held s .member c
  -- Names and members are used.
  reference : ∀ {s visit n kind}, held s visit n → visit.Reads n.kind → n.Spells →
    kind = .read ∨ kind = .write → L.Does s (reference source n scope kind) [.use (.name n kind)]
  memberReference : ∀ {s visit n chain kind}, held s visit n → visit.Reads n.kind →
    n.kind = .memberExpression ∨ n.kind = .subscriptExpression →
    kind = .readProp ∨ kind = .writeProp ∨ kind = .deleteProp →
    L.Does s (memberReference n chain scope kind) [.use (.member n chain kind)]
  pattern : ∀ {s n}, held s .resolve n → n.Spells →
    L.Does s (patternReferences source n scope) [.use (.pattern n)]
  call : ∀ {s visit n target name count}, held s visit n → visit.Reads n.kind →
    n.kind = .callExpression ∨ n.kind = .newExpression → target ∈ n.children →
    held s .resolve target → target.kind = .identifier → target.text? source = some name →
    L.Does s (namedCallee source n target scope count [name] .read) [.use (.call n target name)]
  memberCall : ∀ {s visit n target chain count}, held s visit n → visit.Reads n.kind →
    n.kind = .callExpression ∨ n.kind = .newExpression → target ∈ n.children →
    held s .resolve target → target.kind = .memberExpression ∨ target.kind = .subscriptExpression →
    target.memberChain? source = some chain →
    L.Does s (namedCallee source n target scope count chain .readProp)
      [.use (.memberCall n target chain)]
  passed : ∀ {s n index}, held s .resolve n → n.kind = .identifier →
    L.Does s (argumentReference source n scope index) [.use (.argument n)]
  -- The statement around a node is looked up. If there is none, nothing is left to do.
  found : ∀ {s visit n owner}, held s visit n → visit = .resolve ∨ visit = .member →
    (L.builder s).graph.findVertex? n.span = some owner → backs s owner n
  lost : ∀ {s visit n} (leaves), held s visit n → visit = .resolve ∨ visit = .member →
    (L.builder s).graph.findVertex? n.span = none → L.Does s (pure ()) leaves
  -- Callables and classes are registered, and callables queued.
  enqueue : ∀ {s} (key), L.Does s (enqueue key) []
  register : ∀ {s visit n owner}, held s visit n → visit.defers n.kind → backs s owner n →
    L.Says s (register n scope owner) [.defer n] fun key _ => key = n.key ∧ known key
  method : ∀ {s visit n body c owner}, held s visit n → IsClassVisit visit n →
    n.child? .body = some body → c ∈ body.children → c.kind = .methodDefinition →
    backs s owner n → L.Says s (classMethod source c scope owner) [.defer c] fun r s' =>
      placed s' r.1 ∧ known r.2
  registerClass : ∀ {s visit n owner}, held s visit n → IsClassVisit visit n → backs s owner n →
    L.Says s (registerClass n scope owner) [] fun _ _ => known n.key
  -- What is assigned is stored.
  store : ∀ {s visit n left chain shape owner}, held s visit n → n.kind = .assignmentExpression →
    n.child? .left = some left → left.memberChain? source = some chain →
    L.Met (targetLeaves source left) s → formed shape s → placed s owner →
    L.Does s (storeShape scope chain shape owner) []
  formed_plain : ∀ {s shape}, shape.callable = none → shape.members = [] → formed shape s
  formed_callable : ∀ {s shape key}, formed shape s → known key →
    formed { shape with callable := some key } s
  formed_lookup : ∀ {s visit n} (name), held s visit n →
    formed (.ofBinding ((L.builder s).scopes.lookup? scope name)) s
  formed_bind : ∀ {s shape value name owner}, formed shape s → formed value s → placed s owner →
    formed (shape.withMember name (value.bind name owner)) s
  formed_method : ∀ {s shape name vertex key}, formed shape s → placed s vertex → known key →
    formed (shape.withMember name { Binding.declared name vertex with callable := some key }) s

namespace Walk

variable {S : Type} {L : Logic S} {source : String} {scope : ScopeId} {W : Walk L source scope}
  {s : S} {visit : Visit} {n : Node} {owner : VertexId} {limit : Nat}

/-- Registering a callable makes it known. -/
theorem registers (hv : W.held s visit n) (hdefers : visit.defers n.kind)
    (howner : W.backs s owner n) :
    L.Says s (Build.register n scope owner) [] fun key _ => W.known key :=
  L.imp (W.register hv hdefers howner) (fun _ hleaf => absurd hleaf List.not_mem_nil)
    fun _ _ _ hkey => hkey.2

/-- A function written as an expression is registered by the statement around it and queued. -/
theorem literal (hv : W.held s visit n) (hvisit : visit = .resolve ∨ visit = .member)
    (hdefers : visit.defers n.kind) : L.Does s (literalCallable n scope) [.defer n] := by
  refine L.look ?_
  split
  · next owner hfound =>
    exact Logic.before (W.register hv hdefers (W.found hv hvisit hfound)) fun key _ _ _ =>
      W.enqueue key
  · next hnone => exact W.lost _ hv hvisit (Option.eq_none_iff_forall_ne_some.2 hnone)

/-- What is said of resolving an expression and of reading the shape of a value is so for all nodes
smaller than a bound. -/
structure Below (W : Walk L source scope) (limit : Nat) : Prop where
  resolve : ∀ n : Node, n.size < limit → ∀ s visit, W.held s visit n → visit.Reads n.kind →
    L.Does s (Build.expression source n scope) (expressionLeaves source n)
  shape : ∀ n : Node, n.size < limit → ∀ s visit owner, W.held s visit n → visit.Reads n.kind →
    W.backs s owner n → L.Says s (Build.valueShape source n scope owner) [] W.formed

namespace Below

theorem mono {limit' : Nat} (h : Below W limit) (hle : limit' ≤ limit) : Below W limit' where
  resolve := fun n hn => h.resolve n (Nat.lt_of_lt_of_le hn hle)
  shape := fun n hn => h.shape n (Nat.lt_of_lt_of_le hn hle)

theorem resolve' (h : Below W limit) (hn : n.size < limit) (hv : W.held s .resolve n) :
    L.Does s (Build.expression source n scope) (expressionLeaves source n) :=
  h.resolve n hn s .resolve hv (.inl rfl)

/-- A child of a plain node is resolved. -/
theorem onExpression (h : Below W n.size) (hv : W.held s visit n) (hreads : visit.Reads n.kind)
    (hplain : n.kind.isPlain) (field : Field) :
    L.Does s (n.onChild field fun c _ => Build.expression source c scope)
      (n.under field fun c _ => expressionLeaves source c) :=
  Logic.onChild fun _ hc hsize =>
    h.resolve' hsize (W.part hv hreads hplain (mem_children_of_child? hc))

/-- A member is used as a chain, or its parts are visited. -/
theorem member (h : Below W n.size) (hv : W.held s visit n) (hreads : visit.Reads n.kind)
    (hk : n.kind = .memberExpression ∨ n.kind = .subscriptExpression) {kind : RelationKind}
    (hkind : kind = .readProp ∨ kind = .writeProp ∨ kind = .deleteProp) :
    L.Does s (Build.member source n scope kind) (memberLeaves source n kind) := by
  have hplain : n.kind.isPlain := by rcases hk with hk | hk <;> rw [hk] <;> rfl
  rw [Build.member, memberLeaves]
  cases n.memberChain? source with
  | some chain => exact W.memberReference hv hreads hk hkind
  | none =>
    refine (h.onExpression hv hreads hplain .object).bind fun _ s' hs => ?_
    exact h.onExpression (W.held_later hs hv) hreads hplain .index

/-! ### Targets of assignments -/

/-- The left side of an assignment is visited. -/
theorem writeTarget (h : Below W limit) (n : Node) (hn : n.size < limit) (s : S)
    (hv : W.held s .resolve n) :
    L.Does s (Build.writeTarget source n scope) (targetLeaves source n) := by
  have hmember (hk : n.kind = .memberExpression ∨ n.kind = .subscriptExpression) :
      L.Does s (Build.member source n scope .writeProp) (memberLeaves source n .writeProp) :=
    (h.mono (Nat.le_of_lt hn)).member hv (.inl rfl) hk (by simp)
  rw [Build.writeTarget]
  split
  · next hk =>
    rw [targetLeaves, hk]
    exact W.reference hv (.inl rfl) (.inl hk) (by simp)
  · next hk =>
    rw [targetLeaves, hk]
    exact hmember (.inl hk)
  · next hk =>
    rw [targetLeaves, hk]
    exact hmember (.inr hk)
  · next hk =>
    rw [targetLeaves, hk]
    exact W.pattern hv (by simp [Spells, hk])
  · next hk =>
    rw [targetLeaves, hk]
    exact W.pattern hv (by simp [Spells, hk])
  · next hk =>
    rw [targetLeaves, hk]
    refine Logic.forNamed fun inner hmem hinner s' hs => ?_
    exact writeTarget h inner (Nat.lt_trans hinner hn) s' (W.part (W.held_later hs hv) (.inl rfl)
      (by rw [hk]; rfl) (mem_children_of_namedChildren hmem))
  · have hleaves : targetLeaves source n = expressionLeaves source n := by
      rw [targetLeaves]
      split <;> first | contradiction | rfl
    rw [hleaves]
    exact h.resolve' hn hv
termination_by n.size

/-- A target that is read and written is visited. -/
theorem readWriteTarget (h : Below W limit) (hn : n.size < limit) (hv : W.held s .resolve n) :
    L.Does s (Build.readWriteTarget source n scope) (updateLeaves source n) := by
  have hmember (hk : n.kind = .memberExpression ∨ n.kind = .subscriptExpression) : L.Does s
      (do Build.member source n scope .readProp; Build.member source n scope .writeProp)
      (memberLeaves source n .readProp ++ memberLeaves source n .writeProp) := by
    have hbelow : Below W n.size := h.mono (Nat.le_of_lt hn)
    refine (hbelow.member hv (.inl rfl) hk (by simp)).bind fun _ s' hs => ?_
    exact hbelow.member (W.held_later hs hv) (.inl rfl) hk (by simp)
  rw [Build.readWriteTarget]
  split
  · next hk =>
    rw [updateLeaves, hk]
    refine (W.reference hv (.inl rfl) (.inl hk) (.inl rfl)).bind fun _ s' hs => ?_
    exact W.reference (W.held_later hs hv) (.inl rfl) (.inl hk) (.inr rfl)
  · next hk =>
    rw [updateLeaves, hk]
    exact hmember (.inl hk)
  · next hk =>
    rw [updateLeaves, hk]
    exact hmember (.inr hk)
  · have hleaves : updateLeaves source n = expressionLeaves source n := by
      rw [updateLeaves]
      split <;> first | contradiction | rfl
    rw [hleaves]
    exact h.resolve' hn hv

/-- What is assigned is stored, once the left side was visited. -/
theorem assignment {left : Node} (h : Below W n.size) (hv : W.held s visit n)
    (hreads : visit.Reads n.kind) (hkind : n.kind = .assignmentExpression)
    (hleft : n.child? .left = some left) (hmet : L.Met (targetLeaves source left) s) :
    L.Does s (Build.assignment source n left scope) [] := by
  rw [Build.assignment]
  refine Logic.withChild_nil (fun right hright hsize => L.look ?_) (L.ret trivial)
  have hmem := mem_children_of_child? hright
  split
  · next owner hfound =>
    have howner := W.found hv hreads.visit_eq hfound
    split
    · next chain hchain =>
      refine Logic.after (h.shape right hsize s .resolve owner (W.part hv hreads (by rw [hkind]; rfl)
        hmem) (.inl rfl) (W.backs_below hv howner (child_mem_nodes hmem))) fun shape s' hs hshape => ?_
      exact W.store (W.held_later hs hv) hkind hleft hchain (L.met_later hs hmet) hshape
        (W.backs_placed (W.backs_later hs howner))
    · exact L.ret trivial
  · exact L.ret trivial

/-! ### Calls -/

/-- What a call calls is visited. -/
theorem callee {target : Node} (h : Below W limit) (hsize : target.size < limit) (count : Nat)
    (hv : W.held s visit n) (hreads : visit.Reads n.kind)
    (hcall : n.kind = .callExpression ∨ n.kind = .newExpression) (hmem : target ∈ n.children)
    (htarget : W.held s .resolve target) :
    L.Does s (Build.callee source n target scope count) (calleeLeaves source n target) := by
  rw [Build.callee]
  split
  · next hk =>
    rw [calleeLeaves, hk]
    cases htext : target.text? source with
    | some name => exact W.call hv hreads hcall hmem htarget hk htext
    | none => exact .ret
  · next hk =>
    rw [calleeLeaves, hk]
    cases hchain : target.memberChain? source with
    | some chain => exact W.memberCall hv hreads hcall hmem htarget (.inl hk) hchain
    | none => exact h.resolve' hsize htarget
  · next hk =>
    rw [calleeLeaves, hk]
    cases hchain : target.memberChain? source with
    | some chain => exact W.memberCall hv hreads hcall hmem htarget (.inr hk) hchain
    | none => exact h.resolve' hsize htarget
  · have hleaves : calleeLeaves source n target = expressionLeaves source target := by
      rw [calleeLeaves]
      split <;> first | contradiction | rfl
    rw [hleaves]
    exact h.resolve' hsize htarget

/-- The callee of a call is visited, and then its arguments. -/
theorem call (h : Below W n.size) (calleeField : Field) (hv : W.held s visit n)
    (hreads : visit.Reads n.kind) (hcall : n.kind = .callExpression ∨ n.kind = .newExpression) :
    L.Does s (Build.call source n scope calleeField) (callLeaves source n calleeField) := by
  have hplain : n.kind.isPlain := by rcases hcall with hk | hk <;> rw [hk] <;> rfl
  rw [Build.call, callLeaves]
  refine Logic.Does.bind (Logic.onChild fun target hmem hsize => ?_) fun _ s₁ h₁ => ?_
  · have hmem' := mem_children_of_child? hmem
    exact h.callee hsize _ hv hreads hcall hmem' (W.part hv hreads hplain hmem')
  refine Logic.onChild fun arguments hlist hsize => ?_
  refine Logic.before (Logic.foldNamed trivial fun argument hmem hsize' index s₂ h₂ _ => ?_ :
    L.Does s₁ _ _) fun _ _ _ _ => L.ret trivial
  have hargument := W.argument (W.held_later (L.trans h₁ h₂) hv) hreads hplain hlist
    (mem_children_of_namedChildren hmem)
  by_cases hk : argument.kind = .identifier
  · rw [if_pos hk, if_pos hk]
    exact Logic.before (W.passed hargument hk) fun _ _ _ _ => L.ret trivial
  · rw [if_neg hk, if_neg hk]
    exact Logic.before (h.resolve' (Nat.lt_trans hsize' hsize) hargument) fun _ _ _ _ =>
      L.ret trivial

/-! ### Objects -/

variable {part : Node} {shape : ValueShape}

/-- The parts of an object are visited. -/
theorem objectPart (h : Below W limit) (hpart : part.size < limit) (hv : W.held s .member part) :
    L.Does s (Build.objectPart source part scope) (objectPartLeaves source part) := by
  unfold Build.objectPart
  split
  · next hpair =>
    rw [objectPartLeaves, hpair]
    have hbelow : Below W part.size := h.mono (Nat.le_of_lt hpart)
    have hreads : Visit.member.Reads part.kind := .inr ⟨rfl, by rw [hpair]; decide⟩
    have hplain : part.kind.isPlain := by rw [hpair]; rfl
    refine Logic.Does.bind (Logic.onChild fun key hkey hsize => ?_) fun _ s₁ h₁ => ?_
    · split
      · exact hbelow.resolve' hsize (W.part hv hreads hplain (mem_children_of_child? hkey))
      · exact .ret
    · exact hbelow.onExpression (W.held_later h₁ hv) hreads hplain .value
  · next hmethod =>
    rw [objectPartLeaves, hmethod]
    exact literal hv (.inr rfl) (by rw [hmethod]; rfl)
  · next hmethod =>
    have hleaves : objectPartLeaves source part = expressionLeaves source part := by
      rw [objectPartLeaves]
      split <;> first | contradiction | rfl
    rw [hleaves]
    exact h.resolve part hpart s .member hv (.inr ⟨rfl, hmethod⟩)

/-- The parts of an object form its shape. -/
theorem objectShape (h : Below W limit) (hpart : part.size < limit) (hv : W.held s .member part)
    (howner : W.backs s owner part) (hshape : W.formed shape s) :
    L.Says s (Build.objectShape source part scope owner shape) [] W.formed := by
  unfold Build.objectShape
  split
  · next hpair =>
    split
    · exact L.ret hshape
    · next key _ =>
      have hvalue : L.Says s (part.withChild .value (pure {}) fun value _ =>
          Build.valueShape source value scope owner) [] W.formed := by
        refine Logic.withChild_nil (fun value hvalue hsize => ?_) (L.ret (W.formed_plain rfl rfl))
        have hmem := mem_children_of_child? hvalue
        refine h.shape value (Nat.lt_trans hsize hpart) s .resolve owner ?_ (.inl rfl)
          (W.backs_below hv howner (child_mem_nodes hmem))
        exact W.part hv (.inr ⟨rfl, by rw [hpair]; decide⟩) (by rw [hpair]; rfl) hmem
      exact Logic.after hvalue fun value s₁ h₁ hformed => L.ret
        (W.formed_bind (W.formed_later h₁ hshape) hformed
          (W.backs_placed (W.backs_later h₁ howner)))
  · split
    · exact L.ret hshape
    · next name _ =>
      exact L.look (L.ret (W.formed_bind hshape (W.formed_lookup name hv) (W.backs_placed howner)))
  · next hmethod =>
    split
    · exact L.ret hshape
    · exact Logic.after (registers hv (by rw [hmethod]; rfl) howner) fun _ s₁ h₁ hkey => L.ret
        (W.formed_method (W.formed_later h₁ hshape) (W.backs_placed (W.backs_later h₁ howner)) hkey)
  · exact L.ret hshape

/-! ### Classes -/

/-- The fields of a class form its shape. -/
theorem classField (h : Below W part.size) (hv : W.held s .member part)
    (howner : W.backs s owner part) (hplain : part.kind.isPlain)
    (hmethod : part.kind ≠ .methodDefinition) (hshape : W.formed shape s) :
    L.Says s (Build.classField source part scope owner shape)
      (part.under .value fun value _ => expressionLeaves source value) W.formed := by
  refine Logic.withChild (fun value hvalue hsize => ?_) fun _ => L.ret hshape
  have hmem := mem_children_of_child? hvalue
  have hvalue := W.part hv (.inr ⟨rfl, hmethod⟩) hplain hmem
  refine Logic.before (h.resolve' hsize hvalue) fun _ s₁ h₁ _ => ?_
  have hshape₁ := W.formed_later h₁ hshape
  have howner₁ := W.backs_later h₁ (W.backs_below hv howner (child_mem_nodes hmem))
  split
  · exact L.ret hshape₁
  · refine Logic.after (h.shape value hsize s₁ .resolve owner (W.held_later h₁ hvalue) (.inl rfl)
      howner₁) fun field s₂ h₂ hfield => L.ret ?_
    exact W.formed_bind (W.formed_later h₂ hshape₁) hfield
      (W.backs_placed (W.backs_later h₂ howner₁))

/-- The members of a class form its shape. -/
theorem classMember {body : Node} (h : Below W part.size) (hv : W.held s visit n)
    (hvisit : IsClassVisit visit n) (hbody : n.child? .body = some body)
    (hpart : part ∈ body.children) (howner : W.backs s owner n) (hshape : W.formed shape s) :
    L.Says s (Build.classMember source part scope owner shape) (classPartLeaves source part)
      W.formed := by
  have howner' : W.backs s owner part := W.backs_below hv howner (mem_nodes_trans
    (child_mem_nodes hpart) (child_mem_nodes (mem_children_of_child? hbody)))
  unfold Build.classMember
  split
  · next hmethod =>
    rw [classPartLeaves, hmethod]
    refine Logic.before (W.method hv hvisit hbody hpart hmethod howner) fun r s₁ h₁ hr => ?_
    obtain ⟨vertex, key⟩ := r
    have hshape₁ := W.formed_later h₁ hshape
    dsimp only
    split
    · exact L.ret hshape₁
    · refine L.ret (W.formed_method ?_ hr.1 hr.2)
      split
      · exact W.formed_callable hshape₁ hr.2
      · exact hshape₁
  iterate 2
    next hk =>
      have hmethod : part.kind ≠ .methodDefinition := by rw [hk]; decide
      rw [classPartLeaves, hk]
      exact h.classField (W.classPart hv hvisit hbody hpart hmethod) howner' (by rw [hk]; rfl) hmethod
        hshape
  · have hleaves : classPartLeaves source part = [] := by
      rw [classPartLeaves]
      split <;> first | contradiction | rfl
    rw [hleaves]
    exact L.ret hshape

/-- The base classes of a class are visited. -/
theorem classHeritage (h : Below W n.size) (hv : W.held s visit n) (hvisit : IsClassVisit visit n) :
    L.Does s (Build.classHeritage source n scope)
      (n.overNamed fun part _ =>
        if part.kind = .classHeritage then part.overNamed fun base _ => expressionLeaves source base
        else []) := by
  refine Logic.forNamed fun part hmem hsize s₁ h₁ => ?_
  split
  · next hk =>
    refine Logic.forNamed fun base hbase hsize' s₂ h₂ => ?_
    exact h.resolve' (Nat.lt_trans hsize' hsize) (W.base (W.held_later (L.trans h₁ h₂) hv) hvisit
      (mem_children_of_namedChildren hmem) hk (mem_children_of_namedChildren hbase))
  · exact .ret

theorem classBody (h : Below W n.size) (hv : W.held s visit n) (hvisit : IsClassVisit visit n)
    (howner : W.backs s owner n) :
    L.Says s
      (n.withChild .body (pure {}) fun body _ => body.foldNamed {} fun shape part _ =>
        Build.classMember source part scope owner shape)
      (n.under .body fun body _ => body.overNamed fun part _ => classPartLeaves source part)
      W.formed := by
  refine Logic.withChild (fun body hbody hsize => ?_) fun _ => L.ret (W.formed_plain rfl rfl)
  refine Logic.foldNamed (W.formed_plain rfl rfl) fun part hpart hsize' shape s₁ h₁ hshape => ?_
  exact (h.mono (Nat.le_of_lt (Nat.lt_trans hsize' hsize))).classMember (W.held_later h₁ hv) hvisit
    hbody (mem_children_of_namedChildren hpart) (W.backs_later h₁ howner) hshape

/-- The leaves of a class are met and its shape is formed. -/
theorem classShape (h : Below W n.size) (hv : W.held s visit n) (hvisit : IsClassVisit visit n)
    (howner : W.backs s owner n) :
    L.Says s (Build.classShape source n scope owner) (classLeaves source n) W.formed := by
  rw [Build.classShape, classLeaves]
  refine (h.classHeritage hv hvisit).bind fun _ s₁ h₁ => ?_
  refine Logic.before (h.classBody (W.held_later h₁ hv) hvisit (W.backs_later h₁ howner))
    fun shape s₂ h₂ hshape => ?_
  split
  · exact L.ret hshape
  · have h₂' := L.trans h₁ h₂
    exact Logic.after (W.registerClass (W.held_later h₂' hv) hvisit (W.backs_later h₂' howner))
      fun _ s₃ h₃ hkey => L.ret (W.formed_callable (W.formed_later h₃ hshape) hkey)

/-! ### One step of the recursion -/

/-- One case for each kind of expression. -/
theorem expression_step (h : Below W n.size) (hv : W.held s visit n) (hreads : visit.Reads n.kind) :
    L.Does s (Build.expression source n scope) (expressionLeaves source n) := by
  have hfunction (hvalue : n.kind.isFunctionValue) : L.Does s (literalCallable n scope) [.defer n] :=
    literal hv hreads.visit_eq (hreads.defers_eq.trans hvalue)
  rw [Build.expression]
  split
  -- Literals and other leaves refer to nothing.
  any_goals (rw [expressionLeaves, ‹n.kind = _›]; exact .ret)
  -- Names, members and calls.
  · next hk =>
    rw [expressionLeaves, hk]
    exact W.reference hv hreads (.inl hk) (.inl rfl)
  · next hk =>
    rw [expressionLeaves, hk]
    exact W.reference hv hreads (.inr (.inl hk)) (.inl rfl)
  · next hk =>
    rw [expressionLeaves, hk]
    exact h.member hv hreads (.inl hk) (.inl rfl)
  · next hk =>
    rw [expressionLeaves, hk]
    exact h.member hv hreads (.inr hk) (.inl rfl)
  · next hk =>
    rw [expressionLeaves, hk]
    exact h.call _ hv hreads (.inl hk)
  · next hk =>
    rw [expressionLeaves, hk]
    exact h.call _ hv hreads (.inr hk)
  · -- In an assignment the right side comes first.
    next hk =>
    rw [expressionLeaves, hk]
    have hplain : n.kind.isPlain := by rw [hk]; rfl
    refine (h.onExpression hv hreads hplain .right).bind fun _ s₁ h₁ => ?_
    have hv₁ := W.held_later h₁ hv
    refine Logic.onChild fun left hleft hsize => ?_
    refine Logic.before (L.met (h.writeTarget left hsize s₁ (W.part hv₁ hreads hplain
      (mem_children_of_child? hleft)))) fun _ s₂ h₂ hmet => ?_
    exact h.assignment (W.held_later h₂ hv₁) hreads hk hleft hmet.2
  · next hk =>
    rw [expressionLeaves, hk]
    have hplain : n.kind.isPlain := by rw [hk]; rfl
    refine (h.onExpression hv hreads hplain .right).bind fun _ s₁ h₁ => ?_
    refine Logic.onChild fun left hleft hsize => ?_
    exact h.readWriteTarget hsize (W.part (W.held_later h₁ hv) hreads hplain
      (mem_children_of_child? hleft))
  · next hk =>
    rw [expressionLeaves, hk]
    refine Logic.onChild fun argument hmem hsize => ?_
    exact h.readWriteTarget hsize (W.part hv hreads (by rw [hk]; rfl) (mem_children_of_child? hmem))
  · -- A unary operator deletes a member or reads its argument.
    next hk =>
    rw [expressionLeaves, hk]
    refine Logic.onChild fun argument hmem hsize => ?_
    have hargument := W.part hv hreads (by rw [hk]; rfl) (mem_children_of_child? hmem)
    split
    · next hdelete =>
      simp only [Bool.and_eq_true, Bool.or_eq_true, decide_eq_true_eq] at hdelete
      exact (h.mono (Nat.le_of_lt hsize)).member hargument (.inl rfl) hdelete.2 (.inr (.inr rfl))
    · exact h.resolve' hsize hargument
  -- Functions are registered and not looked into.
  · next hk =>
    rw [expressionLeaves, hk]
    exact hfunction (by rw [hk]; rfl)
  · next hk =>
    rw [expressionLeaves, hk]
    exact hfunction (by rw [hk]; rfl)
  · next hk =>
    rw [expressionLeaves, hk]
    exact hfunction (by rw [hk]; rfl)
  · next hk =>
    rw [expressionLeaves, hk]
    exact hfunction (by rw [hk]; rfl)
  · next hk =>
    rw [expressionLeaves, hk]
    refine L.look ?_
    split
    · next owner hfound =>
      exact Logic.before (h.classShape hv (isClassVisit_of_reads hreads hk)
        (W.found hv hreads.visit_eq hfound)) fun _ _ _ _ => L.ret trivial
    · next hnone => exact W.lost _ hv hreads.visit_eq (Option.eq_none_iff_forall_ne_some.2 hnone)
  · next hk =>
    rw [expressionLeaves, hk]
    refine Logic.forNamed fun part hmem hsize s₁ h₁ => ?_
    exact h.objectPart hsize (W.objectPart (W.held_later h₁ hv) hreads hk
      (mem_children_of_namedChildren hmem))
  · have hplain : n.kind.isPlain := by
      unfold Kind.isPlain
      split <;> first | contradiction | rfl
    have hleaves : expressionLeaves source n = n.overNamed fun c _ => expressionLeaves source c := by
      rw [expressionLeaves]
      split <;> first | contradiction | rfl
    rw [hleaves]
    refine Logic.forNamed fun c hmem hsize s₁ h₁ => ?_
    exact h.resolve' hsize (W.part (W.held_later h₁ hv) hreads hplain
      (mem_children_of_namedChildren hmem))

/-- One case for each kind of value. -/
theorem valueShape_step (h : Below W n.size) (hv : W.held s visit n) (hreads : visit.Reads n.kind)
    (howner : W.backs s owner n) :
    L.Says s (Build.valueShape source n scope owner) [] W.formed := by
  have hempty {s : S} : W.formed {} s := W.formed_plain rfl rfl
  have hfunction (hvalue : n.kind.isFunctionValue) : L.Says s
      (do return { callable := some (← Build.register n scope owner) } : Build ValueShape) []
      W.formed :=
    Logic.after (registers hv (hreads.defers_eq.trans hvalue) howner)
      fun _ _ _ hkey => L.ret (W.formed_callable hempty hkey)
  rw [Build.valueShape]
  split
  · next hk => exact hfunction (by rw [hk]; rfl)
  · next hk => exact hfunction (by rw [hk]; rfl)
  · next hk => exact hfunction (by rw [hk]; rfl)
  · next hk => exact hfunction (by rw [hk]; rfl)
  · next hk =>
    exact L.imp (h.classShape hv (isClassVisit_of_reads hreads hk) howner)
      (fun _ hleaf => absurd hleaf List.not_mem_nil) fun _ _ _ hshape => hshape
  · next hk =>
    refine Logic.foldNamed_nil hempty fun part hmem hsize shape s₁ h₁ hshape => ?_
    have hmem' := mem_children_of_namedChildren hmem
    exact h.objectShape hsize (W.objectPart (W.held_later h₁ hv) hreads hk hmem')
      (W.backs_later h₁ (W.backs_below hv howner (child_mem_nodes hmem'))) hshape
  · next hk =>
    unfold Node.withSole
    split
    · next inner hinner =>
      have hmem := mem_children_of_namedChildren (mem_namedChildren_of_sole? hinner)
      exact h.shape inner (size_lt_of_sole? hinner) s .resolve owner
        (W.part hv hreads (by rw [hk]; rfl) hmem) (.inl rfl)
        (W.backs_below hv howner (child_mem_nodes hmem))
    · exact L.ret hempty
  · split
    · exact L.ret hempty
    · next name _ => exact L.look (L.ret (W.formed_lookup name hv))
  · refine L.ret ?_
    unfold Node.importShape
    split <;> exact W.formed_plain rfl rfl

end Below

/-! ## The recursion -/

/-- The induction on the size of nodes. -/
theorem below (W : Walk L source scope) (limit : Nat) : Below W limit := by
  induction limit with
  | zero => exact ⟨fun _ hn => absurd hn (Nat.not_lt_zero _), fun _ hn => absurd hn (Nat.not_lt_zero _)⟩
  | succ limit ih =>
    refine ⟨fun n hn s visit hv hreads => ?_, fun n hn s visit owner hv hreads howner => ?_⟩
    · exact (ih.mono (Nat.le_of_lt_succ hn)).expression_step hv hreads
    · exact (ih.mono (Nat.le_of_lt_succ hn)).valueShape_step hv hreads howner

variable (W)

/-- **What is said of every expression.** -/
theorem expression (hv : W.held s .resolve n) :
    L.Does s (Build.expression source n scope) (expressionLeaves source n) :=
  (W.below n.size).expression_step hv (.inl rfl)

theorem writeTarget (hv : W.held s .resolve n) :
    L.Does s (Build.writeTarget source n scope) (targetLeaves source n) :=
  (W.below (n.size + 1)).writeTarget n (Nat.lt_succ_self _) s hv

/-- **What is said of the shape of every value.** -/
theorem valueShape (hv : W.held s .resolve n) (howner : W.backs s owner n) :
    L.Says s (Build.valueShape source n scope owner) [] W.formed :=
  (W.below n.size).valueShape_step hv (.inl rfl) howner

/-- **What is said of every class.** -/
theorem classShape (hv : W.held s visit n) (hvisit : IsClassVisit visit n)
    (howner : W.backs s owner n) :
    L.Says s (Build.classShape source n scope owner) (classLeaves source n) W.formed :=
  (W.below n.size).classShape hv hvisit howner

end Walk

end Build

end DeadCode
