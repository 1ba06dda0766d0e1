import DeadCode.Proofs.Resolution.Moves
import DeadCode.Proofs.Resolution.Walk

/-! # The outcomes of single steps

Each step that resolution is composed of has one lemma here, which says when the step may be taken
and what then comes of it. The composed steps (`hoistVar`, `storeShape`, …) follow from the single
ones, and the lemmas on loops from the logic of outcomes, `Build.outcomes`.

A step is taken at a node that is `Builder.Ready`. Relating a node to a statement is the only step
that can fail, and it fails only where no statement encloses the node. -/

namespace DeadCode

namespace Build

open Builder

variable {root n : Node} {declared : Node → Prop} {b b' : Builder} {α : Type} {relation : Relation}
  {scope : ScopeId} {target owner vertex : VertexId}

/-! ## The logic of outcomes -/

/-- **Outcomes are a way to speak of steps.** Which leaves a step meets is left open. -/
def outcomes (root : Node) (declared : Node → Prop) : Logic { b : Builder // b.Valid root } where
  builder s := s.1
  Later s s' := s.1.Reaches root declared s'.1
  Says s step _ post := Outcome root declared s.1 step fun a b' =>
    ∃ hb : b'.Valid root, post a ⟨b', hb⟩
  Met _ _ := True
  refl s := .refl s.2
  trans h h' := h.trans h'
  ret {_ s _ _} h := .pure s.2 ⟨s.2, h⟩
  bind h hnext := Outcome.bind h fun a b' hr ⟨hb, hpost⟩ => hnext a ⟨b', hb⟩ hr hpost
  look h := h
  imp h _ hpost := Outcome.imp h fun a b' hr ⟨hb, hp⟩ => ⟨hb, hpost a ⟨b', hb⟩ hr hp⟩
  met h := Outcome.imp h fun _ _ _ ⟨hb, hp⟩ => ⟨hb, hp, trivial⟩
  met_later _ _ := trivial

section Says

variable {declared : Node → Prop} {α : Type} {step : Build α} {leaves : List Leaf}
  {s : { b : Builder // b.Valid root }}

/-- An outcome, said in the logic of outcomes. -/
theorem Outcome.to_logic {post : α → Builder → Prop} {post' : α → { b : Builder // b.Valid root } → Prop}
    (h : Outcome root declared s.1 step post) (hpost : ∀ a s', post a s'.1 → post' a s') :
    (outcomes root declared).Says s step leaves post' :=
  Outcome.imp h fun a b' hr hp => ⟨hr.valid, hpost a ⟨b', hr.valid⟩ hp⟩

theorem Outcome.does (h : Outcome root declared s.1 step Anything) :
    (outcomes root declared).Does s step leaves :=
  h.to_logic fun _ _ _ => trivial

theorem Outcome.of_logic {post : α → Builder → Prop} (hb : b.Valid root)
    (h : (outcomes root declared).Says ⟨b, hb⟩ step leaves fun a s' => post a s'.1) :
    Outcome root declared b step post :=
  Outcome.imp h fun _ _ _ ⟨_, hpost⟩ => hpost

end Says

/-! ## Loops -/

namespace Outcome

variable {γ : Type}

/-- A loop of steps that come out well comes out well. -/
theorem forM {xs : List γ} {visit : γ → Build Unit} (hb : b.Valid root)
    (h : ∀ x ∈ xs, ∀ b', b.Reaches root declared b' → Outcome root declared b' (visit x) Anything) :
    Outcome root declared b (xs.forM visit) Anything :=
  .of_logic hb (Logic.forM_nil fun x hx s' hr => (h x hx s'.1 hr).does)

theorem forM_option {x : Option γ} {visit : γ → Build Unit} (hb : b.Valid root)
    (h : ∀ a, x = some a → Outcome root declared b (visit a) Anything) :
    Outcome root declared b (x.forM visit) Anything := by
  cases x with
  | none => exact .pure hb trivial
  | some a => exact h a rfl

end Outcome

/-! ## Statements and edges -/

theorem get_bind_apply (next : Builder → Build α) (b : Builder) : (get >>= next) b = next b b :=
  rfl

/-- The step after one that ends well. -/
theorem bind_apply_of_ok {β : Type} {step : Build α} {a : α} (h : step b = .ok (a, b'))
    (next : α → Build β) : (step >>= next) b = next a b' := by
  change (step b).bind (fun r => next r.1 r.2) = _
  rw [h]
  rfl

/-- A fault ends the steps. -/
theorem bind_apply_of_error {β : Type} {step : Build α} {error : BuildError}
    (h : step b = .error error) (next : α → Build β) : (step >>= next) b = .error error := by
  change (step b).bind (fun r => next r.1 r.2) = _
  rw [h]
  rfl

theorem modify_apply (change : Builder → Builder) (b : Builder) :
    (modify change : Build Unit) b = .ok ((), change b) :=
  rfl

theorem onGraph_apply (step : StatementGraph → Except GraphError (α × StatementGraph))
    (b : Builder) :
    onGraph step b = match step b.graph with
      | .ok (a, graph) => .ok (a, { b with graph })
      | .error error => .error (.graph error) := by
  rw [onGraph, get_bind_apply]
  cases step b.graph with
  | ok r => rfl
  | error e => rfl

/-- What connecting two statements does. -/
theorem exists_of_connect_ok {u v : VertexId} {a : Unit}
    (h : connect u v relation b = .ok (a, b')) :
    ∃ id graph, b.graph.connect u v relation = .ok (id, graph) ∧ b' = { b with graph } := by
  rw [connect, onGraph_apply] at h
  cases hconnect : b.graph.connect u v relation with
  | error e => simp [hconnect, Except.map] at h
  | ok r =>
    simp only [hconnect, Except.map] at h
    cases h
    exact ⟨r.1, r.2, rfl, rfl⟩

/-- What relating a node to a statement does. -/
theorem exists_of_relate_ok {a : Unit} (h : relate n target relation b = .ok (a, b')) :
    ∃ x u v id graph, b.graph.vertex? target = some x ∧ b.graph.findVertex? n.span = some u ∧
      b.graph.findVertex? x.span = some v ∧ b.graph.connect u v relation = .ok (id, graph) ∧
      b' = { b with graph } := by
  rw [relate, onGraph_apply] at h
  cases hx : b.graph.vertex? target with
  | none => simp [hx] at h
  | some x =>
    simp only [hx, StatementGraph.addEdge] at h
    cases hu : b.graph.findVertex? n.span with
    | none => simp [hu, Except.map] at h
    | some u =>
      cases hv : b.graph.findVertex? x.span with
      | none => simp [hu, hv, Except.map] at h
      | some v =>
        simp only [hu, hv] at h
        cases hconnect : b.graph.connect u v relation with
        | error e => simp [hconnect, Except.map] at h
        | ok r =>
          simp only [hconnect, Except.map] at h
          cases h
          exact ⟨x, u, v, r.1, r.2, rfl, rfl, hv, hconnect, rfl⟩

/-- Adding a statement. -/
theorem outcome_addVertex (hb : b.Valid root) {vertex : Vertex}
    (hscope : vertex.scope < b.scopes.size) (hkey : vertex.key = n.key) :
    Outcome root declared b (addVertex vertex) fun v b' => b'.StandsFor v n := by
  refine .of_move hb (.statement vertex hscope) (onGraph_apply _ b) ?_
  obtain ⟨found, hfound, hk⟩ := b.graph.vertex?_addVertex vertex
  exact ⟨found, hfound, hk.trans hkey⟩

theorem outcome_statementVertex (hb : b.Valid root) (source : String) (n : Node)
    (hscope : scope < b.scopes.size) :
    Outcome root declared b (statementVertex source n scope) fun v b' => b'.StandsFor v n :=
  outcome_addVertex hb hscope rfl

theorem outcome_methodVertex (hb : b.Valid root) (source : String) (n : Node)
    (hscope : scope < b.scopes.size) :
    Outcome root declared b (methodVertex source n scope) fun v b' => b'.StandsFor v n :=
  outcome_addVertex hb hscope rfl

theorem connect_apply {source : VertexId} {id : EdgeId} {graph : StatementGraph}
    (h : b.graph.connect source target relation = .ok (id, graph)) :
    connect source target relation b = .ok ((), { b with graph }) := by
  rw [connect, onGraph_apply]
  simp only [h, Except.map]

/-- Relating two statements that exist. -/
theorem outcome_connect (hb : b.Valid root) {source : VertexId}
    (hs : source < b.graph.vertices.size) (ht : target < b.graph.vertices.size)
    (hkind : relation.kind ≠ .decl) :
    Outcome root declared b (connect source target relation) Anything := by
  obtain ⟨id, graph, h⟩ := StatementGraph.exists_connect hs ht relation
  exact .of_move hb (.relate hkind h) (connect_apply h) trivial

/-- Relating a statement to one that it owns. -/
theorem outcome_own (hb : b.Valid root) {child : VertexId} (howner : b.Owns root owner n)
    (hchild : b.StandsFor child n) (hkind : n.Ownable) :
    Outcome root declared b (connect owner child { kind := .decl }) Anything := by
  obtain ⟨_, _, _, _, hholds⟩ := id howner
  obtain ⟨id, graph, h⟩ :=
    StatementGraph.exists_connect hholds.lt_size hchild.lt_size { kind := .decl }
  exact .of_move hb (.own howner hchild hkind h) (connect_apply h) trivial

/-- **A node is related to any statement, unless no statement encloses the node.** -/
theorem outcome_relate (hb : b.Valid root) (hcovered : root.Nested → b.graph.Covers n.span)
    (ht : target < b.graph.vertices.size) (hkind : relation.kind ≠ .decl) :
    Outcome root declared b (relate n target relation) Anything := by
  obtain ⟨vertex, hv⟩ := StatementGraph.exists_vertex? ht
  have happly : relate n target relation b =
      match b.graph.addEdge n.span vertex.span relation with
      | .ok (_, graph) => .ok ((), { b with graph })
      | .error error => .error (.graph error) := by
    rw [relate, onGraph_apply]
    simp only [hv, Except.map]
    cases b.graph.addEdge n.span vertex.span relation <;> rfl
  by_cases hs : b.graph.Covers n.span
  · obtain ⟨id, graph, u, w, hadd, -, -, hc⟩ :=
      StatementGraph.exists_addEdge hs (StatementGraph.covers_of_vertex? hv) relation
    rw [hadd] at happly
    exact .of_move hb (.relate hkind hc) happly trivial
  · have hnone : b.graph.findVertex? n.span = none := by
      rw [← Option.not_isSome_iff_eq_none, StatementGraph.findVertex?_isSome_iff]
      exact hs
    rw [StatementGraph.addEdge, hnone] at happly
    rw [Outcome, happly]
    exact fun hnest => hs (hcovered hnest)

/-! ## Scopes and bindings -/

theorem onScopes_apply (step : ScopeTree → Except ScopeError (α × ScopeTree)) (b : Builder) :
    onScopes step b = match step b.scopes with
      | .ok (a, scopes) => .ok (a, { b with scopes })
      | .error error => .error (.scope error) := by
  rw [onScopes, get_bind_apply]
  cases step b.scopes with
  | ok r => rfl
  | error e => rfl

/-- What adding a scope does. -/
theorem exists_of_addScope_ok {parent : ScopeId} {kind : ScopeKind}
    (h : addScope parent kind b = .ok (scope, b')) :
    ∃ scopes, b.scopes.addScope parent kind = .ok (scope, scopes) ∧ b' = { b with scopes } := by
  rw [addScope, onScopes_apply] at h
  cases hadd : b.scopes.addScope parent kind with
  | error e => simp [hadd] at h
  | ok r =>
    simp only [hadd] at h
    cases h
    exact ⟨r.2, rfl, rfl⟩

/-- What declaring a name does. -/
theorem exists_of_declare_ok {binding : Binding} {hoist : Hoist} {a : Unit}
    (h : declare scope binding hoist b = .ok (a, b')) :
    ∃ target scopes, b.scopes.declare scope binding hoist = .ok (target, scopes) ∧
      b' = { b with scopes } := by
  rw [declare, onScopes_apply] at h
  cases hdeclare : b.scopes.declare scope binding hoist with
  | error e => simp [hdeclare, Except.map] at h
  | ok r =>
    simp only [hdeclare, Except.map] at h
    cases h
    exact ⟨r.1, r.2, rfl, rfl⟩

theorem outcome_addBlock (hb : b.Valid root) {parent : ScopeId} (hparent : parent < b.scopes.size) :
    Outcome root declared b (addScope parent .block) fun scope b' => scope < b'.scopes.size := by
  obtain ⟨scopes, h⟩ := ScopeTree.exists_addScope hparent .block
  have happly : addScope parent .block b = .ok (b.scopes.size, { b with scopes }) := by
    rw [addScope, onScopes_apply, h]
  exact .of_move hb (.block h) happly (ScopeTree.lt_size_of_addScope h)

/-- Declaring a sound binding. -/
theorem outcome_declare (hb : b.Valid root) {binding : Binding} (hscope : scope < b.scopes.size)
    (hbinding : binding.Sound b.graph.vertices.size root.HasCallable) (hoist : Hoist) :
    Outcome root declared b (declare scope binding hoist) Anything := by
  obtain ⟨target, scopes, h⟩ := hb.scopes.exists_declare hscope binding hoist
  have happly : declare scope binding hoist b = .ok ((), { b with scopes }) := by
    rw [declare, onScopes_apply, h]
    rfl
  exact .of_move hb (.declare hbinding h) happly trivial

theorem outcome_declareNames (hb : b.Valid root) (hscope : scope < b.scopes.size)
    (hvertex : vertex < b.graph.vertices.size) (names : List String) :
    Outcome root declared b (declareNames scope names vertex) Anything :=
  .forM hb fun _ _ _ hr =>
    outcome_declare hr.valid (Nat.lt_of_lt_of_le hscope hr.grows.scopes)
      (Binding.sound_declared (hr.grows.graph.lt_size hvertex)) _

theorem sound_declaredCallable {vertices : Nat} {keys : Key → Prop} {name : String} {key : Key}
    (hvertex : vertex < vertices) (hkey : keys key) :
    Binding.Sound vertices keys { Binding.declared name vertex with callable := some key } := by
  refine .intro ?_ ?_ List.nodup_nil (by simp [Binding.declared])
    (by simp [Binding.declared])
  · rintro _ ⟨⟩
    exact hvertex
  · rintro _ ⟨⟩
    exact hkey

/-- Hoisting a `var`. -/
theorem outcome_hoistVar (hb : b.Valid root) (hscope : scope < b.scopes.size)
    (hvertex : vertex < b.graph.vertices.size) (name : String) (hasValue : Bool) :
    Outcome root declared b (hoistVar scope name vertex hasValue) Anything := by
  obtain ⟨target, -, htarget⟩ := hb.scopes.exists_hoistTarget hscope
  refine .bind_get ?_
  simp only [htarget]
  split
  · exact .pure hb trivial
  · exact outcome_declare hb hscope (Binding.sound_declared hvertex) _

/-- Updating a binding soundly. -/
theorem outcome_updateDeclared (hb : b.Valid root) (scope : ScopeId) (chain : List String)
    {update : Binding → Binding}
    (hupdate : ∀ x, x.Sound b.graph.vertices.size root.HasCallable →
      (update x).Sound b.graph.vertices.size root.HasCallable ∧ (update x).name = x.name) :
    Outcome root declared b (updateDeclared scope chain update) Anything := by
  refine .of_move hb (.update scope chain fun x hx => ?_) rfl trivial
  split
  · exact hupdate x hx
  · exact ⟨hx, rfl⟩

/-! ## Callables -/

/-- Registering a callable. -/
theorem outcome_register (hb : b.Valid root) (hready : b.Ready root n scope)
    (hkind : n.kind.isCallable) (howner : b.Holds root owner n) (hd : n.kind.isClass ∨ declared n) :
    Outcome root declared b (register n scope owner) fun key _ =>
      key = n.key ∧ root.HasCallable key := by
  have hmem : n ∈ root.callables := Node.mem_callables.2 ⟨hready.mem, hkind⟩
  have hplaced : b.Placed root n.key ⟨n, scope, owner⟩ := ⟨rfl, hmem, hready.scope, howner⟩
  exact .of_move hb (.register ⟨n, scope, owner⟩ hplaced hd) rfl ⟨rfl, n, hmem, rfl⟩

/-- Registering a class. -/
theorem outcome_registerClass (hb : b.Valid root) (hready : b.Ready root n scope)
    (hcallable : n.kind.isCallable) (hclass : n.kind.isClass) (howner : b.Holds root owner n) :
    Outcome root declared b (registerClass n scope owner) Anything := by
  cases hfound : b.callable? n.key with
  | some c =>
    have happly : registerClass n scope owner b = .ok ((), b) := by
      simp only [registerClass, modify_apply, hfound]
    exact .of_ok happly (.refl hb) trivial
  | none =>
    have happly : registerClass n scope owner b = .ok ((),
        { b with callables := setCallable b.callables n.key { node := n, scope, owner } }) := by
      simp only [registerClass, modify_apply, hfound]
    have hmem : n ∈ root.callables := Node.mem_callables.2 ⟨hready.mem, hcallable⟩
    have hplaced : b.Placed root n.key ⟨n, scope, owner⟩ := ⟨rfl, hmem, hready.scope, howner⟩
    exact .of_move hb (.register ⟨n, scope, owner⟩ hplaced (.inl hclass)) happly trivial

theorem outcome_enqueue (hb : b.Valid root) (key : Key) :
    Outcome root declared b (enqueue key) Anything :=
  .of_move hb (.enqueue key) rfl trivial

theorem outcome_noteCall (hb : b.Valid root) (key : Key) {site : VertexId}
    (hsite : site < b.graph.vertices.size) :
    Outcome root declared b (noteCall key site) Anything :=
  .of_move hb (.noteCall key hsite) rfl trivial

theorem outcome_noteLinked (hb : b.Valid root) (call : Node) (chain : List String) (scope : ScopeId) :
    Outcome root declared b (noteLinked call chain scope) Anything :=
  .of_move hb (.noteLinked _) rfl trivial

/-- Noting a returned value. -/
theorem outcome_noteReturn (hb : b.Valid root) (hvertex : vertex < b.graph.vertices.size) :
    Outcome root declared b (noteReturn vertex) Anything := by
  cases hcurrent : b.current with
  | none =>
    have happly : noteReturn vertex b = .ok ((), b) := by
      simp only [noteReturn, modify_apply, hcurrent]
    exact .of_ok happly (.refl hb) trivial
  | some key =>
    have happly : noteReturn vertex b = .ok ((),
        { b with returns := b.returns.push (key, vertex) }) := by
      simp only [noteReturn, modify_apply, hcurrent]
    exact .of_move hb (.noteReturn key hvertex) happly trivial

/-! ## Callables and shapes -/

/-- Registering a method, with a statement of its own. -/
theorem outcome_classMethod (hb : b.Valid root) (source : String) {method : Node}
    (hready : b.Ready root method scope) (hkind : method.kind = .methodDefinition)
    (howner : b.Owns root owner method) (hd : declared method) :
    Outcome root declared b (classMethod source method scope owner)
      fun r b' => r.1 < b'.graph.vertices.size ∧ root.HasCallable r.2 := by
  refine (outcome_methodVertex hb source method hready.scope).bind fun vertex b₁ h₁ hvertex => ?_
  refine (outcome_own h₁.valid (howner.mono h₁.grows) hvertex (.inr hkind)).andThen
    fun _ b₂ h₂ => ?_
  have hvertex' := hvertex.mono h₂.grows
  refine (outcome_register h₂.valid (hready.mono (h₁.trans h₂).grows) (by rw [hkind]; rfl)
    hvertex'.holds (.inr hd)).bind fun key b₃ h₃ hkey => ?_
  exact .pure h₃.valid ⟨(hvertex'.mono h₃.grows).lt_size, hkey.2⟩

end Build

namespace ValueShape

/-- A value is a known callable, if it is one, and its members are sound. -/
structure Sound (vertices : Nat) (keys : Key → Prop) (shape : ValueShape) : Prop where
  callable : ∀ key, shape.callable = some key → keys key
  members : Binding.Table vertices keys shape.members

variable {vertices : Nat} {keys : Key → Prop} {shape : ValueShape}

theorem Sound.mono {vertices' : Nat} (h : shape.Sound vertices keys) (hle : vertices ≤ vertices') :
    shape.Sound vertices' keys :=
  ⟨h.callable, h.members.mono hle⟩

theorem sound_origin (origin : Option Origin) : Sound vertices keys { origin } where
  callable := by simp
  members := Binding.table_nil

/-- The shape of a sound binding is sound. -/
theorem sound_ofBinding {binding : Option Binding}
    (h : ∀ x, binding = some x → x.Sound vertices keys) :
    (ofBinding binding).Sound vertices keys := by
  cases binding with
  | none => exact sound_origin none
  | some x => exact ⟨fun _ hk => (h x rfl).known hk, (h x rfl).table⟩

/-- A sound shape makes a sound binding. -/
theorem Sound.bind (h : shape.Sound vertices keys) (name : String) {vertex : VertexId}
    (hvertex : vertex < vertices) : (shape.bind name vertex).Sound vertices keys := by
  refine .intro ?_ h.callable h.members.distinct h.members.named h.members.sound
  rintro _ ⟨⟩
  exact hvertex

/-- Assigning a sound shape keeps a binding sound. -/
theorem Sound.assign (h : shape.Sound vertices keys) {binding : Binding}
    (hb : binding.Sound vertices keys) : (shape.assign binding).Sound vertices keys := by
  have hmembers := hb.table.insertAll h.members.named h.members.sound
  refine .intro (fun v hv => hb.declaration_lt hv) (fun key hk => ?_) hmembers.distinct
    hmembers.named hmembers.sound
  rcases Option.or_eq_some_iff.1 hk with hk | ⟨-, hk⟩
  · exact h.callable key hk
  · exact hb.known hk

/-- A shape with a sound member more is sound. -/
theorem Sound.withMember (h : shape.Sound vertices keys) {name : String} {member : Binding}
    (hname : member.name = name) (hm : member.Sound vertices keys) :
    (shape.withMember name member).Sound vertices keys :=
  ⟨h.callable, h.members.insert hname hm⟩

theorem Sound.withCallable (h : shape.Sound vertices keys) {key : Key} (hkey : keys key) :
    Sound vertices keys { shape with callable := some key } := by
  refine ⟨?_, h.members⟩
  rintro _ ⟨⟩
  exact hkey

end ValueShape

namespace Build

open Builder

/-- Storing a sound shape. -/
theorem outcome_storeShape {root : Node} {declared : Node → Prop} {b : Builder}
    (hb : b.Valid root) (scope : ScopeId) (chain : List String) {shape : ValueShape}
    {owner : VertexId} (hshape : shape.Sound b.graph.vertices.size root.HasCallable)
    (howner : owner < b.graph.vertices.size) :
    Outcome root declared b (storeShape scope chain shape owner) Anything := by
  unfold storeShape
  split
  · exact .pure hb trivial
  · exact outcome_updateDeclared hb scope chain fun _ hx => ⟨hshape.assign hx, rfl⟩
  · exact outcome_updateDeclared hb scope _ fun _ hx =>
      ⟨hx.withMember (hshape.bind _ howner), rfl⟩

end Build

end DeadCode
