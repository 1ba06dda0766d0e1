import DeadCode.Proofs.Resolution.Arranged
import DeadCode.Proofs.Resolution.Hoisting
import DeadCode.Proofs.Scope.Lookup

/-! # What a name is bound to after hoisting

The hoisting pass goes through the function declarations, `var` names and imports of a body in the
order of the text, from any depth of nested statements. Each of them takes its name over, but a
`var` name without a value leaves it to a function. So a name that functions declare is bound to the
last of them unless a `var` name with a value, a loop over `var` names or an `import` comes after
it. -/

namespace DeadCode

namespace HoistedName

/-- Whether a function declaration declares the name. -/
def isFunction (h : HoistedName) : Bool :=
  match h.sort with
  | .function => true
  | _ => false

/-- Whether the name is left to a function: it is that of a `var` declaration without a value. -/
def yields (h : HoistedName) : Bool :=
  match h.sort with
  | .var hasValue => !hasValue
  | _ => false

/-- What the name is bound to by the statement `v`. -/
def binding (h : HoistedName) (v : VertexId) : Binding :=
  match h.sort with
  | .function => { Binding.declared h.name v with callable := some h.node.key }
  | .var _ => .declared h.name v
  | .imported origin => { Binding.declared h.name v with origin := some origin }

/-- **Which declaration holds a name** after the next one: a `var` name without a value leaves it to
a function. Before all of them the name may be `held` by a function too. -/
def succeed (held : Bool) (holder : Option HoistedName) (next : HoistedName) : Option HoistedName :=
  if next.yields && holder.elim held isFunction then holder else some next

variable {h next : HoistedName} {held : Bool}

@[simp] theorem name_binding (h : HoistedName) (v : VertexId) : (h.binding v).name = h.name := by
  obtain ⟨node, name, sort⟩ := h
  cases sort <;> rfl

@[simp] theorem isSome_callable_binding (h : HoistedName) (v : VertexId) :
    (h.binding v).callable.isSome = h.isFunction := by
  obtain ⟨node, name, sort⟩ := h
  cases sort <;> rfl

theorem yields_of_isFunction (hf : h.isFunction) : h.yields = false := by
  obtain ⟨node, name, sort⟩ := h
  cases sort with
  | function => rfl
  | var | imported => cases hf

theorem succeed_of_not_yields (hnext : next.yields = false) (holder : Option HoistedName) :
    succeed held holder next = some next := by
  simp [succeed, hnext]

/-- A function keeps its name against those that yield. -/
theorem foldl_succeed_of_yields {hs : List HoistedName} (hf : h.isFunction)
    (hyields : ∀ g ∈ hs, g.yields) : hs.foldl (succeed held) (some h) = some h := by
  induction hs with
  | nil => rfl
  | cons g rest ih =>
    have hg := hyields g List.mem_cons_self
    rw [List.foldl_cons, show succeed held (some h) g = some h by simp [succeed, hg, hf]]
    exact ih fun g hg => hyields g (List.mem_cons_of_mem _ hg)

theorem foldl_succeed_of_plain {hs : List HoistedName} (hh : h.isFunction = false)
    (hplain : ∀ g ∈ hs, g.isFunction = false) :
    hs.foldl (succeed held) (some h) = some (hs.getLast?.getD h) := by
  induction hs generalizing h with
  | nil => rfl
  | cons g rest ih =>
    have hg := hplain g List.mem_cons_self
    rw [List.foldl_cons, show succeed held (some h) g = some g by simp [succeed, hh],
      ih hg fun g hg => hplain g (List.mem_cons_of_mem _ hg), List.getLast?_cons]
    rfl

/-- Without functions the last declaration holds the name, if one of them takes it over from
whatever held it before. -/
theorem foldl_succeed_of_taken {hs : List HoistedName} (hplain : ∀ g ∈ hs, g.isFunction = false)
    (htaken : ∃ g ∈ hs, g.yields = false) (holder : Option HoistedName) :
    hs.foldl (succeed held) holder = hs.getLast? := by
  obtain ⟨g, hg, htakes⟩ := htaken
  obtain ⟨front, back, rfl⟩ := List.append_of_mem hg
  rw [List.foldl_append, List.foldl_cons, succeed_of_not_yields htakes,
    foldl_succeed_of_plain (hplain g hg) fun g hg =>
      hplain g (List.mem_append_right _ (List.mem_cons_of_mem _ hg)),
    List.getLast?_append, List.getLast?_cons]
  rfl

end HoistedName

/-- The declarations that are hoisted to the top of a body, in the order of the pass. -/
def Node.bodyHoistedNames (source : String) (body : Node) (topLevel : Bool) : List HoistedName :=
  (body.bodyVisits topLevel).flatMap fun d =>
    if d.1.hoistsHere source d.2 then d.1.ownHoistedNames source else []

/-! ## Hoisting them -/

namespace Builder

/-- **A declaration holds a name on a scope**: the name is bound to what it declares. None holds a
name that is bound as it was at the `start`. -/
def HeldBy (b : Builder) (host : ScopeId) (name : String) (start : Option Binding) :
    Option HoistedName → Prop
  | none => b.scopes.local? host name = start
  | some h => ∃ v, b.StandsFor v h.node ∧ b.scopes.local? host name = some (h.binding v)

/-- **Declarations are hoisted to a scope**, one after another: each name is held by the one that
succeeds all others of the name. -/
structure Hoists (host : ScopeId) (hs : List HoistedName) (b b' : Builder) : Prop where
  frame : b'.scopes.frame = b.scopes.frame
  graph : b.graph.Extends b'.graph
  held : ∀ name start holder, b.HeldBy host name start holder →
    b'.HeldBy host name start ((hs.filter (·.name = name)).foldl
      (HoistedName.succeed (start.any (·.callable.isSome))) holder)

variable {b b' b'' : Builder} {host : ScopeId} {hs hs' : List HoistedName} {h : HoistedName}

/-- Who holds a name is seen from its binding. -/
theorem HeldBy.mono {name : String} {start : Option Binding} {holder : Option HoistedName}
    (hheld : b.HeldBy host name start holder) (hgraph : b.graph.Extends b'.graph)
    (hlocal : b'.scopes.local? host name = b.scopes.local? host name) :
    b'.HeldBy host name start holder := by
  cases holder with
  | none => exact hlocal.trans hheld
  | some h =>
    obtain ⟨v, hv, hbound⟩ := hheld
    exact ⟨v, hv.of_extends hgraph, hlocal.trans hbound⟩

theorem HeldBy.any_callable {name : String} {start : Option Binding} {holder : Option HoistedName}
    (hheld : b.HeldBy host name start holder) :
    (b.scopes.local? host name).any (·.callable.isSome) =
      holder.elim (start.any (·.callable.isSome)) HoistedName.isFunction := by
  cases holder with
  | none =>
    rw [HeldBy] at hheld
    rw [hheld]
    rfl
  | some h =>
    obtain ⟨v, -, hbound⟩ := hheld
    simp [hbound]

namespace Hoists

theorem refl (b : Builder) : b.Hoists host [] b :=
  ⟨rfl, .refl _, fun _ _ _ h => h⟩

theorem trans (h₁ : b.Hoists host hs b') (h₂ : b'.Hoists host hs' b'') :
    b.Hoists host (hs ++ hs') b'' where
  frame := h₂.frame.trans h₁.frame
  graph := h₁.graph.trans h₂.graph
  held := by
    intro name start holder hheld
    rw [List.filter_append, List.foldl_append]
    exact h₂.held name start _ (h₁.held name start holder hheld)

theorem takes (h : b.Hoists host hs b') (htakes : b.scopes.takesHoisted host) :
    b'.scopes.takesHoisted host :=
  ScopeTree.takesHoisted_of_frame (ScopeTree.prefix_of_frame_eq h.frame) htakes

theorem of_scopes_eq (hgraph : b.graph.Extends b'.graph) (hscopes : b'.scopes = b.scopes) :
    b.Hoists host [] b' where
  frame := congrArg ScopeTree.frame hscopes
  graph := hgraph
  held := fun name start holder hheld => hheld.mono hgraph (by rw [hscopes])

theorem skip (hyields : h.yields)
    (hfunction : (b.scopes.local? host h.name).any (·.callable.isSome)) : b.Hoists host [h] b where
  frame := rfl
  graph := .refl _
  held := by
    intro name start holder hheld
    by_cases hname : h.name = name
    · subst hname
      rw [hheld.any_callable] at hfunction
      simpa [HoistedName.succeed, hyields, hfunction] using hheld
    · simpa [hname] using hheld

/-- A name is taken by a declaration. -/
theorem take {v : VertexId} {scopes : ScopeTree} (hv : b.StandsFor v h.node)
    (hdeclare : b.scopes.declare host (h.binding v) .hoisted = .ok (host, scopes))
    (htakes : h.yields → (b.scopes.local? host h.name).any (·.callable.isSome) = false) :
    b.Hoists host [h] { b with scopes } where
  frame := ScopeTree.frame_of_declare hdeclare
  graph := .refl _
  held := by
    intro name start holder hheld
    have hlocal := ScopeTree.local?_of_declare hdeclare host name
    by_cases hname : h.name = name
    · subst hname
      have hsucceed : HoistedName.succeed (start.any (·.callable.isSome)) holder h = some h := by
        cases hyields : h.yields with
        | false => exact HoistedName.succeed_of_not_yields hyields holder
        | true =>
          have hnone := htakes hyields
          rw [hheld.any_callable] at hnone
          simp [HoistedName.succeed, hnone]
      rw [if_pos ⟨rfl, by simp⟩] at hlocal
      simp only [decide_true, List.filter_cons_of_pos, List.filter_nil, List.foldl_cons,
        List.foldl_nil, hsucceed]
      exact ⟨v, hv, hlocal⟩
    · rw [if_neg (by simpa using fun heq => hname heq.symm)] at hlocal
      have hheld' : HeldBy { b with scopes } host name start holder := hheld.mono (.refl _) hlocal
      simpa [hname] using hheld'

/-! ### Names of functions -/

section Functions

variable {name : String} {f : HoistedName} {before after : List HoistedName}

/-- **The last function holds its name** if all that comes after it leaves the name to functions. -/
theorem heldBy_function (h : b.Hoists host hs b')
    (hsplit : hs.filter (·.name = name) = before ++ f :: after) (hf : f.isFunction)
    (hafter : ∀ g ∈ after, g.yields) :
    b'.HeldBy host name (b.scopes.local? host name) (some f) := by
  have hheld := h.held name (b.scopes.local? host name) none rfl
  rwa [hsplit, List.foldl_append, List.foldl_cons,
    HoistedName.succeed_of_not_yields (HoistedName.yields_of_isFunction hf),
    HoistedName.foldl_succeed_of_yields hf hafter] at hheld

/-- **The last declaration holds the name** if one that comes after the last function takes it over.
-/
theorem heldBy_last (h : b.Hoists host hs b')
    (hsplit : hs.filter (·.name = name) = before ++ f :: after)
    (hplain : ∀ g ∈ after, g.isFunction = false) (htaken : ∃ g ∈ after, g.yields = false) :
    b'.HeldBy host name (b.scopes.local? host name) after.getLast? := by
  have hheld := h.held name (b.scopes.local? host name) none rfl
  rwa [hsplit, List.foldl_append, List.foldl_cons,
    HoistedName.foldl_succeed_of_taken hplain htaken] at hheld

end Functions

end Hoists

end Builder

namespace Build

open Builder Node

/-- A step that hoists declarations to a scope, and does not fail. -/
def HoistsAs (host : ScopeId) (b : Builder) (step : Build Unit) (hs : List HoistedName) : Prop :=
  ∃ b', step b = .ok ((), b') ∧ b.Hoists host hs b'

variable {source : String} {host scope : ScopeId} {b : Builder} {n : Node} {v : VertexId}
  {hs hs' : List HoistedName}

namespace HoistsAs

variable {α γ : Type}

theorem pure (b : Builder) : HoistsAs host b (Pure.pure ()) [] :=
  ⟨b, rfl, .refl b⟩

theorem bind {step : Build Unit} {next : Unit → Build Unit} (h : HoistsAs host b step hs)
    (hnext : ∀ b', b.Hoists host hs b' → HoistsAs host b' (next ()) hs') :
    HoistsAs host b (step >>= next) (hs ++ hs') := by
  obtain ⟨b₁, hstep, h₁⟩ := h
  obtain ⟨b₂, hrun, h₂⟩ := hnext b₁ h₁
  exact ⟨b₂, (bind_apply_of_ok hstep next).trans hrun, h₁.trans h₂⟩

theorem after {step : Build α} {a : α} {b₁ : Builder} {next : α → Build Unit}
    (hstep : step b = .ok (a, b₁)) (h₁ : b.Hoists host [] b₁)
    (hnext : HoistsAs host b₁ (next a) hs) : HoistsAs host b (step >>= next) hs := by
  obtain ⟨b₂, hrun, h₂⟩ := hnext
  exact ⟨b₂, (bind_apply_of_ok hstep next).trans hrun, h₁.trans h₂⟩

theorem forM {ys : List γ} {visit : γ → Build Unit} {found : γ → List HoistedName}
    (htakes : b.scopes.takesHoisted host)
    (h : ∀ y ∈ ys, ∀ b', b.graph.Extends b'.graph → b'.scopes.takesHoisted host →
      HoistsAs host b' (visit y) (found y)) :
    HoistsAs host b (ys.forM visit) (ys.flatMap found) := by
  induction ys generalizing b with
  | nil => exact pure b
  | cons y rest ih =>
    rw [List.forM_eq_forM, List.forM_cons, List.flatMap_cons]
    refine (h y List.mem_cons_self b (.refl _) htakes).bind fun b₁ h₁ => ?_
    exact ih (h₁.takes htakes) fun z hz b₂ hgraph htakes₂ =>
      h z (List.mem_cons_of_mem _ hz) b₂ (h₁.graph.trans hgraph) htakes₂

end HoistsAs

/-! ### Single declarations -/

theorem exists_statementVertex (source : String) (n : Node) (scope : ScopeId) (b : Builder) :
    ∃ v b₁, statementVertex source n scope b = .ok (v, b₁) ∧ b₁.StandsFor v n ∧
      b.Hoists host [] b₁ := by
  let x : Vertex :=
    { key := n.key, location := n.location source, scope
      isDeclaration := n.kind.isDeclaration, isTerminal := n.isTerminal source }
  exact ⟨(b.graph.addVertex x).1, { b with graph := (b.graph.addVertex x).2 }, rfl,
    b.graph.vertex?_addVertex x, .of_scopes_eq (b.graph.extends_addVertex x) rfl⟩

theorem hoistsAs_declare {h : HoistedName} (htakes : b.scopes.takesHoisted host)
    (hv : b.StandsFor v h.node)
    (hfree : h.yields → (b.scopes.local? host h.name).any (·.callable.isSome) = false) :
    HoistsAs host b (declare host (h.binding v) .hoisted) [h] := by
  obtain ⟨scopes, hdeclare⟩ :
      ∃ scopes, b.scopes.declare host (h.binding v) .hoisted = .ok (host, scopes) := by
    obtain ⟨s, hs⟩ := ScopeTree.exists_scope? (ScopeTree.lt_size_of_takesHoisted htakes)
    refine ⟨⟨b.scopes.scopes.setIfInBounds host
      { s with bindings := Binding.insert s.bindings (h.binding v).name (h.binding v) }⟩, ?_⟩
    rw [ScopeTree.declare, ScopeTree.landing, ScopeTree.hoistTarget_of_takesHoisted htakes]
    simp only [bind, Except.bind, hs]
    rfl
  refine ⟨{ b with scopes }, ?_, .take hv hdeclare hfree⟩
  rw [declare, onScopes_apply, hdeclare]
  rfl

theorem hoistsAs_hoistVar (htakes : b.scopes.takesHoisted host) (hv : b.StandsFor v n)
    (name : String) (hasValue : Bool) :
    HoistsAs host b (hoistVar host name v hasValue) [⟨n, name, .var hasValue⟩] := by
  unfold HoistsAs
  rw [hoistVar, get_bind_apply]
  simp only [ScopeTree.hoistTarget_of_takesHoisted htakes]
  split
  · next hfunction =>
    rw [Bool.and_eq_true] at hfunction
    exact ⟨b, rfl, .skip hfunction.2 hfunction.1⟩
  · next hfree =>
    refine hoistsAs_declare (h := ⟨n, name, .var hasValue⟩) htakes hv fun hyields => ?_
    have hvalue : hasValue = false := by simpa [HoistedName.yields] using hyields
    simpa [hvalue] using hfree

/-! ### Statements -/

theorem hoistsAs_hoistName {topLevel : Bool} {h : HoistedName} (htakes : b.scopes.takesHoisted host)
    (hv : b.StandsFor v n) (hhere : n.hoistsHere source topLevel)
    (hmem : h ∈ n.ownHoistedNames source) : HoistsAs host b (hoistName host v h) [h] := by
  obtain ⟨node, name, sort⟩ := h
  obtain ⟨rfl, -⟩ := of_mem_ownHoistedNames hhere hmem
  cases sort with
  | function =>
    refine .after (rfl : register node host v b = _) (.of_scopes_eq (.refl _) rfl) ?_
    exact hoistsAs_declare (h := ⟨node, name, .function⟩) htakes hv nofun
  | var hasValue => exact hoistsAs_hoistVar htakes hv name hasValue
  | imported origin => exact hoistsAs_declare (h := ⟨node, name, .imported origin⟩) htakes hv nofun

/-- **Hoisting a body does not fail, and hoists its declarations.** -/
theorem hoistsAs_hoistBody (source : String) (body : Node) (topLevel : Bool)
    (htakes : b.scopes.takesHoisted host) :
    HoistsAs host b (hoistBody source body host topLevel) (body.bodyHoistedNames source topLevel) := by
  rw [hoistBody_eq]
  refine .forM htakes fun d _ b₁ _ htakes₁ => ?_
  rw [hoistHere]
  split
  · next hhere =>
    obtain ⟨v, b₂, hvertex, hv, h₂⟩ := exists_statementVertex source d.1 host b₁
    have hnames : HoistsAs host b₂ ((d.1.ownHoistedNames source).forM (hoistName host v))
        ((d.1.ownHoistedNames source).flatMap ([·])) :=
      .forM (h₂.takes htakes₁) fun h hmem b₃ hgraph htakes₃ =>
        hoistsAs_hoistName htakes₃ (hv.of_extends hgraph) hhere hmem
    rw [List.flatMap_singleton'] at hnames
    exact .after hvertex h₂ hnames
  · exact .pure b₁

end Build

end DeadCode
