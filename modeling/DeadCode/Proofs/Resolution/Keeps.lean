import DeadCode.Proofs.Resolution.References
import DeadCode.Resolution.Statement

/-! # Steps that keep an invariant

What holds of a builder throughout a run is shown step by step: of each step that ends well it is said
that it keeps the invariant, and what is true of its result. -/

namespace DeadCode

namespace Builder

/-- A builder has grown into another, in which an invariant holds. -/
structure Later (inv : Builder → Prop) (b b' : Builder) : Prop where
  grows : b.Grows b'
  holds : inv b'

variable {inv : Builder → Prop} {b b' b'' : Builder}

theorem Later.refl (h : inv b) : b.Later inv b :=
  ⟨.refl b, h⟩

theorem Later.trans (h : b.Later inv b') (h' : b'.Later inv b'') : b.Later inv b'' :=
  ⟨h.grows.trans h'.grows, h'.holds⟩

end Builder

namespace Build

open Builder

/-- **A step keeps an invariant**: if it ends well, the builder has grown into one in which the
invariant holds, and the result is as wanted. -/
def Keeps {α : Type} (inv : Builder → Prop) (b : Builder) (step : Build α)
    (post : α → Builder → Prop) : Prop :=
  ∀ a b', step b = .ok (a, b') → b.Later inv b' ∧ post a b'

namespace Keeps

variable {α β γ : Type} {inv inv' : Builder → Prop} {b : Builder} {step : Build α}
  {post : α → Builder → Prop} {post' : β → Builder → Prop} {scope : ScopeId}

theorem pure {a : α} (hb : inv b) (h : post a b) : Keeps inv b (pure a) post := by
  intro a' b' hrun
  cases hrun
  exact ⟨.refl hb, h⟩

/-- After the first step another invariant may be kept. -/
theorem turn {next : α → Build β} (h : Keeps inv b step post)
    (hnext : ∀ a b', b.Later inv b' → post a b' → Keeps inv' b' (next a) post') :
    Keeps inv' b (step >>= next) post' := by
  intro c b₂ hrun
  obtain ⟨a, b₁, hstep, hrun⟩ := exists_of_bind_ok hrun
  obtain ⟨h₁, hpost⟩ := h a b₁ hstep
  obtain ⟨h₂, hpost'⟩ := hnext a b₁ h₁ hpost c b₂ hrun
  exact ⟨⟨h₁.grows.trans h₂.grows, h₂.holds⟩, hpost'⟩

/-- Steps one after another. -/
theorem bind {next : α → Build β} (h : Keeps inv b step post)
    (hnext : ∀ a b', b.Later inv b' → post a b' → Keeps inv b' (next a) post') :
    Keeps inv b (step >>= next) post' :=
  h.turn hnext

theorem andThen {next : α → Build β} (h : Keeps inv b step post)
    (hnext : ∀ a b', b.Later inv b' → Keeps inv b' (next a) post') :
    Keeps inv b (step >>= next) post' :=
  h.bind fun a b' hb' _ => hnext a b' hb'

theorem bind_get {next : Builder → Build α} (h : Keeps inv b (next b) post) :
    Keeps inv b (get >>= next) post :=
  h

theorem imp {post' : α → Builder → Prop} (h : Keeps inv b step post)
    (hpost : ∀ a b', b.Later inv b' → post a b' → post' a b') : Keeps inv b step post' := by
  intro a b' hrun
  obtain ⟨hb', hp⟩ := h a b' hrun
  exact ⟨hb', hpost a b' hb' hp⟩

theorem anything (h : Keeps inv b step post) : Keeps inv b step Anything :=
  h.imp fun _ _ _ _ => trivial

/-- An invariant may be weakened. -/
theorem weaken (h : Keeps inv b step post) (hinv : ∀ b', inv b' → inv' b') :
    Keeps inv' b step post := by
  intro a b' hrun
  obtain ⟨hb', hpost⟩ := h a b' hrun
  exact ⟨⟨hb'.grows, hinv b' hb'.holds⟩, hpost⟩

theorem throw {error : BuildError} : Keeps inv b (throw error : Build α) post := by
  intro a b' hrun
  cases hrun

/-- A change of notes keeps an invariant. -/
theorem of_modify {change : Builder → Builder} (hgraph : (change b).graph = b.graph)
    (hscopes : (change b).scopes = b.scopes) (h : inv (change b)) :
    Keeps inv b (modify change) fun _ b' => b' = change b := by
  intro a b' hrun
  cases hrun
  refine ⟨⟨⟨?_, ?_⟩, h⟩, rfl⟩
  · exact .of_vertices_eq (congrArg StatementGraph.vertices hgraph)
  · exact Nat.le_of_eq (congrArg ScopeTree.size hscopes.symm)

end Keeps

/-! ## The logic of an invariant -/

/-- **Keeping an invariant is a way to speak of steps.** Which leaves a step meets is left open. -/
def keeping (inv : Builder → Prop) : Logic { b : Builder // inv b } where
  builder s := s.1
  Later s s' := s.1.Later inv s'.1
  Says s step _ post := Keeps inv s.1 step fun a b' => ∃ hb : inv b', post a ⟨b', hb⟩
  Met _ _ := True
  refl s := .refl s.2
  trans h h' := h.trans h'
  ret {_ s _ _} h := .pure s.2 ⟨s.2, h⟩
  bind h hnext := Keeps.bind h fun a b' hlater ⟨hb, hpost⟩ => hnext a ⟨b', hb⟩ hlater hpost
  look h := h
  imp h _ hpost := Keeps.imp h fun a b' hlater ⟨hb, hp⟩ => ⟨hb, hpost a ⟨b', hb⟩ hlater hp⟩
  met h := Keeps.imp h fun _ _ _ ⟨hb, hp⟩ => ⟨hb, hp, trivial⟩
  met_later _ _ := trivial

namespace Keeps

variable {α : Type} {inv : Builder → Prop} {s : { b : Builder // inv b }} {step : Build α}
  {leaves : List Leaf}

/-- What a step keeps, said in the logic of invariants. -/
theorem to_logic {post : α → Builder → Prop} {post' : α → { b : Builder // inv b } → Prop}
    (h : Keeps inv s.1 step post) (hpost : ∀ a s', post a s'.1 → post' a s') :
    (keeping inv).Says s step leaves post' :=
  h.imp fun a b' hlater hp => ⟨hlater.holds, hpost a ⟨b', hlater.holds⟩ hp⟩

theorem does (h : Keeps inv s.1 step Anything) : (keeping inv).Does s step leaves :=
  h.to_logic fun _ _ _ => trivial

theorem of_logic {b : Builder} {post : α → Builder → Prop} (hb : inv b)
    (h : (keeping inv).Says ⟨b, hb⟩ step leaves fun a s' => post a s'.1) : Keeps inv b step post :=
  Keeps.imp h fun _ _ _ ⟨_, hpost⟩ => hpost

theorem of_does {b : Builder} {post : α → { b : Builder // inv b } → Prop} (hb : inv b)
    (h : (keeping inv).Says ⟨b, hb⟩ step leaves post) : Keeps inv b step Anything :=
  Keeps.anything h

end Keeps

namespace Keeps

variable {β γ : Type} {inv inv' : Builder → Prop} {b : Builder} {scope : ScopeId}

/-! ## Loops -/

/-- A loop keeps what its rounds keep. -/
theorem forM {xs : List γ} {visit : γ → Build Unit} (hb : inv b)
    (h : ∀ x ∈ xs, ∀ b', b.Later inv b' → Keeps inv b' (visit x) Anything) :
    Keeps inv b (xs.forM visit) Anything :=
  .of_does hb (Logic.forM_nil fun x hx s' hs => (h x hx s'.1 hs).does)

/-- A loop keeps one invariant up to a round that leads over to another, and that one from there. -/
theorem forM_turn {xs : List γ} {visit : γ → Build Unit} {x : γ} (hx : x ∈ xs) (hb : inv b)
    (hbefore : ∀ y ∈ xs, ∀ b', b.Later inv b' → Keeps inv b' (visit y) Anything)
    (hat : ∀ b', b.Later inv b' → Keeps inv' b' (visit x) Anything)
    (hafter : ∀ y ∈ xs, ∀ b', b.Later inv' b' → Keeps inv' b' (visit y) Anything) :
    Keeps inv' b (xs.forM visit) Anything := by
  induction xs generalizing b with
  | nil => cases hx
  | cons y rest ih =>
    rw [List.forM_eq_forM, List.forM_cons]
    rcases List.mem_cons.1 hx with rfl | hx
    · refine (hat b (.refl hb)).andThen fun _ b' hb' => .forM hb'.holds fun z hz b'' hb'' => ?_
      exact hafter z (List.mem_cons_of_mem _ hz) b'' (hb'.trans hb'')
    · refine (hbefore y List.mem_cons_self b (.refl hb)).turn fun _ b' hb' _ => ?_
      refine ih hx hb'.holds (fun z hz b'' hb'' => ?_) (fun b'' hb'' => hat b'' (hb'.trans hb''))
        fun z hz b'' hb'' => ?_
      · exact hbefore z (List.mem_cons_of_mem _ hz) b'' (hb'.trans hb'')
      · exact hafter z (List.mem_cons_of_mem _ hz) b'' ⟨hb'.grows.trans hb''.grows, hb''.holds⟩

/-- What each round leaves behind is there after the loop. -/
theorem forM_each {xs : List γ} {visit : γ → Build Unit} {left : γ → Builder → Prop} (hb : inv b)
    (hstays : ∀ x b₁ b₂, b₁.Grows b₂ → left x b₁ → left x b₂)
    (h : ∀ x ∈ xs, ∀ b', b.Later inv b' → Keeps inv b' (visit x) fun _ => left x) :
    Keeps inv b (xs.forM visit) fun _ b' => ∀ x ∈ xs, left x b' :=
  .of_logic hb (Logic.forM_each (fun x _ _ hs => hstays x _ _ hs.grows) fun x hx s' hs =>
    (h x hx s'.1 hs).to_logic fun _ _ hleft => hleft)

theorem forM_option {x : Option γ} {visit : γ → Build Unit} (hb : inv b)
    (h : ∀ a, x = some a → Keeps inv b (visit a) Anything) :
    Keeps inv b (x.forM visit) Anything := by
  cases x with
  | none => exact pure hb trivial
  | some a => exact h a rfl

theorem withChild {n : Node} {field : Field} {otherwise : Build β}
    {visit : (c : Node) → c.size < n.size → Build β} {post : β → Builder → Prop}
    (h : ∀ c, n.child? field = some c → ∀ hc : c.size < n.size, Keeps inv b (visit c hc) post)
    (hnone : n.child? field = none → Keeps inv b otherwise post) :
    Keeps inv b (n.withChild field otherwise visit) post := by
  unfold Node.withChild
  split
  · next c hc => exact h c hc _
  · next hc => exact hnone hc

/-! ## Single steps -/

/-- Adding a statement. -/
theorem of_addVertex {x : Vertex} (h : inv { b with graph := (b.graph.addVertex x).2 }) :
    Keeps inv b (addVertex x) fun v b' =>
      b' = { b with graph := (b.graph.addVertex x).2 } ∧
        ∃ y, b'.graph.vertex? v = some y ∧ y.key = x.key := by
  intro v b' hrun
  rw [addVertex, onGraph_apply] at hrun
  cases hrun
  refine ⟨⟨⟨StatementGraph.extends_addVertex _ _, Nat.le_refl _⟩, h⟩, rfl, ?_⟩
  exact b.graph.vertex?_addVertex x

/-- Relating two statements. -/
theorem of_connect {u v : VertexId} {relation : Relation}
    (h : ∀ id graph, b.graph.connect u v relation = .ok (id, graph) → inv { b with graph }) :
    Keeps inv b (connect u v relation) Anything := by
  intro a b' hrun
  obtain ⟨id, graph, hconnect, rfl⟩ := exists_of_connect_ok hrun
  exact ⟨⟨⟨StatementGraph.extends_of_connect hconnect, Nat.le_refl _⟩, h id graph hconnect⟩,
    trivial⟩

/-- Adding a scope. -/
theorem of_addScope {parent : ScopeId} {kind : ScopeKind}
    (h : ∀ scope scopes, b.scopes.addScope parent kind = .ok (scope, scopes) →
      inv { b with scopes }) :
    Keeps inv b (addScope parent kind) Anything := by
  intro scope b' hrun
  obtain ⟨scopes, hadd, rfl⟩ := exists_of_addScope_ok hrun
  exact ⟨⟨⟨.refl _, Nat.le_of_lt (ScopeTree.lt_size_of_addScope hadd)⟩, h _ _ hadd⟩, trivial⟩

/-- Declaring a name. -/
theorem of_declare {binding : Binding} {hoist : Hoist}
    (h : ∀ target scopes, b.scopes.declare scope binding hoist = .ok (target, scopes) →
      inv { b with scopes }) :
    Keeps inv b (declare scope binding hoist) Anything := by
  intro a b' hrun
  obtain ⟨target, scopes, hdeclare, rfl⟩ := exists_of_declare_ok hrun
  have hsize := ScopeTree.size_of_frame_eq (ScopeTree.frame_of_declare hdeclare)
  exact ⟨⟨⟨.refl _, Nat.le_of_eq hsize.symm⟩, h target scopes hdeclare⟩, trivial⟩

/-- Updating a binding. -/
theorem of_updateDeclared {chain : List String} {update : Binding → Binding}
    (h : inv { b with
      scopes := b.scopes.updateChain scope chain fun binding =>
        if binding.declaration.isSome then update binding else binding }) :
    Keeps inv b (updateDeclared scope chain update) Anything := by
  intro a b' hrun
  cases hrun
  have hsize := ScopeTree.size_of_frame_eq (ScopeTree.frame_updateChain b.scopes scope chain
    fun binding => if binding.declaration.isSome then update binding else binding)
  exact ⟨⟨⟨.refl _, Nat.le_of_eq hsize.symm⟩, h⟩, trivial⟩

/-- Registering a callable. -/
theorem of_register {n : Node} {owner : VertexId}
    (h : inv { b with callables := setCallable b.callables n.key ⟨n, scope, owner⟩ }) :
    Keeps inv b (register n scope owner) fun key _ => key = n.key := by
  intro key b' hrun
  cases hrun
  exact ⟨⟨⟨.refl _, Nat.le_refl _⟩, h⟩, rfl⟩

/-- Registering a class, once. -/
theorem of_registerClass {n : Node} {owner : VertexId} (hb : inv b)
    (h : b.callable? n.key = none →
      inv { b with callables := setCallable b.callables n.key ⟨n, scope, owner⟩ }) :
    Keeps inv b (registerClass n scope owner) Anything := by
  intro a b' hrun
  cases hfound : b.callable? n.key with
  | some c =>
    simp only [registerClass, modify_apply, hfound] at hrun
    cases hrun
    exact ⟨.refl hb, trivial⟩
  | none =>
    simp only [registerClass, modify_apply, hfound] at hrun
    cases hrun
    exact ⟨⟨⟨.refl _, Nat.le_refl _⟩, h hfound⟩, trivial⟩

end Keeps

/-! ## References -/

/-- An invariant is kept whenever the statement around a node is related to another, now or later. -/
def Relatable (inv : Builder → Prop) (b : Builder) (n : Node) : Prop :=
  ∀ b', b.Later inv b' → ∀ u v relation id graph, relation.kind.isReference →
    b'.graph.findVertex? n.span = some u → b'.graph.connect u v relation = .ok (id, graph) →
    inv { b' with graph }

/-- An invariant that does not depend on what is noted or queued. -/
def Steady (inv : Builder → Prop) : Prop :=
  ∀ b b' : Builder, inv b → b'.graph = b.graph → b'.scopes = b.scopes →
    b'.callables = b.callables → inv b'

/-- An invariant that does not depend on the calls that are noted and queued. -/
def SteadyInCalls (inv : Builder → Prop) : Prop :=
  ∀ b b' : Builder, inv b → b'.graph = b.graph → b'.scopes = b.scopes →
    b'.callables = b.callables → b'.returns = b.returns → b'.current = b.current → inv b'

variable {inv : Builder → Prop} {b b' : Builder} {n : Node} {scope : ScopeId} {source : String}

theorem Steady.inCalls (h : Steady inv) : SteadyInCalls inv :=
  fun b b' hb hgraph hscopes hcallables _ _ => h b b' hb hgraph hscopes hcallables

theorem Relatable.later (h : Relatable inv b n) (hb' : b.Later inv b') : Relatable inv b' n :=
  fun b'' hb'' => h b'' (hb'.trans hb'')

/-- Relating a node that can be related. -/
theorem keeps_relate {target : VertexId} {relation : Relation} (hb : inv b)
    (hn : Relatable inv b n) (hkind : relation.kind.isReference) :
    Keeps inv b (relate n target relation) Anything := by
  intro a b' hrun
  obtain ⟨_, u, w, id, graph, -, hu, -, hc, rfl⟩ := exists_of_relate_ok hrun
  exact ⟨⟨⟨StatementGraph.extends_of_connect hc, Nat.le_refl _⟩,
    hn b (.refl hb) u w relation id graph hkind hu hc⟩, trivial⟩

/-- **Statements are related where this keeps the invariant.** -/
def relating (inv : Builder → Prop) : Naming (keeping inv) where
  refers s n := Relatable inv s.1 n
  target _ _ := True
  refers_later h hn := hn.later h
  target_later _ _ := trivial
  declared _ := trivial
  chained _ _ := trivial
  resolved _ _ := trivial
  relate {s _ _ _} hn _ hkind := (keeps_relate s.2 hn hkind).does

theorem keeps_enqueue (hinv : SteadyInCalls inv) (hb : inv b) (key : Key) :
    Keeps inv b (enqueue key) Anything :=
  (Keeps.of_modify rfl rfl (hinv b _ hb rfl rfl rfl rfl rfl)).anything

theorem keeps_noteCall (hinv : SteadyInCalls inv) (hb : inv b) (key : Key) (site : VertexId) :
    Keeps inv b (noteCall key site) Anything :=
  (Keeps.of_modify rfl rfl (hinv b _ hb rfl rfl rfl rfl rfl)).anything

theorem keeps_noteLinked (hinv : SteadyInCalls inv) (hb : inv b) (call : Node) (chain : List String)
    (scope : ScopeId) : Keeps inv b (noteLinked call chain scope) Anything :=
  (Keeps.of_modify rfl rfl (hinv b _ hb rfl rfl rfl rfl rfl)).anything

theorem keeps_noteReturn (hinv : Steady inv) (hb : inv b) (vertex : VertexId) :
    Keeps inv b (noteReturn vertex) Anything := by
  intro a b' hrun
  cases hcurrent : b.current with
  | none =>
    simp only [noteReturn, modify_apply, hcurrent] at hrun
    cases hrun
    exact ⟨.refl hb, trivial⟩
  | some key =>
    simp only [noteReturn, modify_apply, hcurrent] at hrun
    cases hrun
    exact ⟨⟨⟨.refl _, Nat.le_refl _⟩, hinv b _ hb rfl rfl rfl⟩, trivial⟩

/-- Resolving a callee that is named. -/
theorem keeps_namedCallee {s : { b : Builder // inv b }} {callee : Node} {count : Nat}
    {chain : List String} {fallback : RelationKind} (hinv : SteadyInCalls inv)
    (hn : Relatable inv s.1 n) (hcallee : Relatable inv s.1 callee) (hkind : fallback.isReference) :
    (keeping inv).Does s (namedCallee source n callee scope count chain fallback) [] :=
  (relating inv).namedCallee (keeps_noteLinked hinv s.2 n chain scope).does
    (fun s key site _ => (keeps_noteCall hinv s.2 key site).does)
    (fun s key => (keeps_enqueue hinv s.2 key).does) hn hcallee hkind

end Build

end DeadCode
