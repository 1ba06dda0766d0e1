import DeadCode.Proofs.Graph.Basic
import DeadCode.Proofs.Scope.Tree
import DeadCode.Proofs.Syntax.Positions
import Mathlib.Logic.Relation

/-! # What a step of name resolution can do

Every step of name resolution is made of a few moves: add a statement, connect two statements, add a
scope, declare or change a binding, register or queue a callable, note a call or a return. This file
says once what the moves are and when they are made, so that what holds of a whole run follows from
what holds of a move. -/

namespace DeadCode

namespace Node

/-- An identity is that of a callable of a tree. -/
def HasCallable (root : Node) (key : Key) : Prop :=
  ∃ m ∈ root.callables, m.key = key

/-- A node that a statement can own: a statement or a method. -/
def Ownable (n : Node) : Prop :=
  n.kind.form?.isSome ∨ n.kind = .methodDefinition

/-- A node whose statement can own what lies in it: a statement or a callable. -/
def Encloses (n : Node) : Prop :=
  n.kind.form?.isSome ∨ n.kind.isCallable

instance (n : Node) : Decidable n.Ownable :=
  inferInstanceAs (Decidable (n.kind.form?.isSome ∨ n.kind = .methodDefinition))

instance (n : Node) : Decidable n.Encloses :=
  inferInstanceAs (Decidable (n.kind.form?.isSome ∨ n.kind.isCallable))

end Node

namespace Builder

/-! ## Statements of nodes -/

/-- A statement stands for a node. -/
def StandsFor (b : Builder) (v : VertexId) (n : Node) : Prop :=
  ∃ vertex, b.graph.vertex? v = some vertex ∧ vertex.key = n.key

/-- A statement exists, and in a nested tree it encloses a node. -/
def Holds (root : Node) (b : Builder) (v : VertexId) (n : Node) : Prop :=
  ∃ vertex, b.graph.vertex? v = some vertex ∧ (root.Nested → vertex.span.contains n.span)

variable {root n : Node} {b : Builder} {v : VertexId}

/-- A statement holds its node. -/
theorem StandsFor.holds (h : b.StandsFor v n) : b.Holds root v n := by
  obtain ⟨vertex, hv, hk⟩ := h
  refine ⟨vertex, hv, fun _ => ?_⟩
  rw [Vertex.span, hk]
  exact Span.contains_self _

theorem Holds.lt_size (h : b.Holds root v n) : v < b.graph.vertices.size := by
  obtain ⟨vertex, hv, -⟩ := h
  exact StatementGraph.lt_size_of_vertex? hv

theorem StandsFor.lt_size (h : b.StandsFor v n) : v < b.graph.vertices.size := by
  obtain ⟨vertex, hv, -⟩ := h
  exact StatementGraph.lt_size_of_vertex? hv

/-- A statement holds what is below the nodes it holds. -/
theorem Holds.descend {m : Node} (h : b.Holds root v n) (hn : n ∈ root.nodes) (hm : m ∈ n.nodes) :
    b.Holds root v m := by
  obtain ⟨vertex, hv, hc⟩ := h
  exact ⟨vertex, hv, fun hnest => Span.contains_trans (hc hnest) (hnest.contains hn hm)⟩

/-- A node that a statement holds is covered. -/
theorem Holds.covers (h : b.Holds root v n) (hnest : root.Nested) : b.graph.Covers n.span := by
  obtain ⟨vertex, hv, hc⟩ := h
  exact (StatementGraph.covers_of_vertex? hv).of_contains (hc hnest)

/-- A node can be owned: it lies in a statement or a callable that the owner encloses. -/
def Owns (root : Node) (b : Builder) (owner : VertexId) (n : Node) : Prop :=
  ∃ outer ∈ root.nodes, n ∈ outer.descendants ∧ outer.Encloses ∧ b.Holds root owner outer

/-! ## Valid builders -/

/-- A registered callable is one of the tree, known by its own identity, and was declared in an
existing scope by a statement that encloses it. -/
structure Placed (root : Node) (b : Builder) (key : Key) (callable : Callable) : Prop where
  key : callable.node.key = key
  mem : callable.node ∈ root.callables
  scope : callable.scope < b.scopes.size
  owner : b.Holds root callable.owner callable.node

/-- A builder in which every reference leads somewhere. -/
structure Valid (root : Node) (b : Builder) : Prop where
  /-- The scopes form a tree. -/
  scopes : b.scopes.WellFormed
  /-- Bindings are declared by existing statements and stand for callables of the tree. -/
  bindings : b.scopes.Sound b.graph.vertices.size root.HasCallable
  /-- Statements appear in existing scopes. -/
  statements : ∀ vertex ∈ b.graph.vertices, vertex.scope < b.scopes.size
  /-- A callable is registered once. -/
  keys : (b.callables.map Prod.fst).Nodup
  /-- Registered callables are callables of the tree. -/
  callables : ∀ entry ∈ b.callables, b.Placed root entry.1 entry.2
  /-- Calls are noted at existing statements. -/
  callSites : ∀ site ∈ b.callSites, site.2 < b.graph.vertices.size
  /-- Returns are existing statements. -/
  returns : ∀ return_ ∈ b.returns, return_.2 < b.graph.vertices.size

/-! ## Moves -/

/-- One move of name resolution. The callables of the tree that it may register, classes apart, are
those that satisfy `declared`. -/
inductive Move (root : Node) (declared : Node → Prop) (b : Builder) : Builder → Prop where
  /-- Adds a statement. -/
  | statement (vertex : Vertex) (hscope : vertex.scope < b.scopes.size) :
      Move root declared b { b with graph := (b.graph.addVertex vertex).2 }
  /-- Notes which statement owns a statement or a method. -/
  | own {owner child : VertexId} {n : Node} {id : EdgeId} {graph : StatementGraph}
      (howner : b.Owns root owner n) (hchild : b.StandsFor child n)
      (hkind : n.Ownable)
      (h : b.graph.connect owner child { kind := .decl } = .ok (id, graph)) :
      Move root declared b { b with graph }
  /-- Relates two statements in any other way. -/
  | relate {source target : VertexId} {relation : Relation} {id : EdgeId} {graph : StatementGraph}
      (hkind : relation.kind ≠ .decl)
      (h : b.graph.connect source target relation = .ok (id, graph)) :
      Move root declared b { b with graph }
  /-- Adds a block scope. -/
  | block {parent scope : ScopeId} {scopes : ScopeTree}
      (h : b.scopes.addScope parent .block = .ok (scope, scopes)) :
      Move root declared b { b with scopes }
  /-- Declares a binding. -/
  | declare {scope target : ScopeId} {binding : Binding} {hoist : Hoist} {scopes : ScopeTree}
      (hbinding : binding.Sound b.graph.vertices.size root.HasCallable)
      (h : b.scopes.declare scope binding hoist = .ok (target, scopes)) :
      Move root declared b { b with scopes }
  /-- Changes a binding in its place. -/
  | update (scope : ScopeId) (chain : List String) {update : Binding → Binding}
      (hupdate : ∀ x, x.Sound b.graph.vertices.size root.HasCallable →
        (update x).Sound b.graph.vertices.size root.HasCallable ∧ (update x).name = x.name) :
      Move root declared b { b with scopes := b.scopes.updateChain scope chain update }
  /-- Registers a callable. -/
  | register (callable : Callable) (hcallable : b.Placed root callable.node.key callable)
      (hdeclared : callable.node.kind.isClass ∨ declared callable.node) :
      Move root declared b
        { b with callables := setCallable b.callables callable.node.key callable }
  /-- Queues a callable. -/
  | enqueue (key : Key) : Move root declared b { b with queue := b.queue ++ [key] }
  /-- Notes a call. -/
  | noteCall (key : Key) {site : VertexId} (hsite : site < b.graph.vertices.size) :
      Move root declared b { b with callSites := b.callSites.push (key, site) }
  /-- Notes a call that is being linked. -/
  | noteLinked (call : LinkedCall) : Move root declared b { b with calls := b.calls.push call }
  /-- Notes a return. -/
  | noteReturn (key : Key) {vertex : VertexId} (hvertex : vertex < b.graph.vertices.size) :
      Move root declared b { b with returns := b.returns.push (key, vertex) }
  /-- Turns to another callable. -/
  | focus (current : Option Key) : Move root declared b { b with current }

/-- A builder grows into another: statements and scopes keep their places. -/
structure Grows (b b' : Builder) : Prop where
  graph : b.graph.Extends b'.graph
  scopes : b.scopes.size ≤ b'.scopes.size

theorem Grows.refl (b : Builder) : b.Grows b :=
  ⟨.refl _, Nat.le_refl _⟩

theorem Grows.trans {b' b'' : Builder} (h : b.Grows b') (h' : b'.Grows b'') : b.Grows b'' :=
  ⟨h.graph.trans h'.graph, Nat.le_trans h.scopes h'.scopes⟩

section Growth

variable {root : Node} {b b' : Builder} {v : VertexId} {n : Node}

theorem StandsFor.mono (h : b.StandsFor v n) (hg : b.Grows b') : b'.StandsFor v n := by
  obtain ⟨vertex, hv, hk⟩ := h
  exact ⟨vertex, hg.graph v vertex hv, hk⟩

theorem Holds.mono (h : b.Holds root v n) (hg : b.Grows b') : b'.Holds root v n := by
  obtain ⟨vertex, hv, hc⟩ := h
  exact ⟨vertex, hg.graph v vertex hv, hc⟩

theorem Owns.mono (h : b.Owns root v n) (hg : b.Grows b') : b'.Owns root v n := by
  obtain ⟨outer, hmem, hn, hkind, hholds⟩ := h
  exact ⟨outer, hmem, hn, hkind, hholds.mono hg⟩

theorem Placed.mono {key : Key} {callable : Callable} (h : b.Placed root key callable)
    (hg : b.Grows b') : b'.Placed root key callable where
  key := h.key
  mem := h.mem
  scope := Nat.lt_of_lt_of_le h.scope hg.scopes
  owner := h.owner.mono hg

end Growth

/-! ### Registered callables -/

/-- Setting a callable adds one entry at most. -/
theorem mem_setCallable {callables : List (Key × Callable)} {key : Key} {callable : Callable}
    {entry : Key × Callable} (h : entry ∈ setCallable callables key callable) :
    entry = (key, callable) ∨ entry ∈ callables := by
  induction callables with
  | nil => exact .inl (List.mem_singleton.1 h)
  | cons first rest ih =>
    rw [setCallable] at h
    split at h
    · exact (List.mem_cons.1 h).imp_right (List.mem_cons_of_mem _)
    · rcases List.mem_cons.1 h with rfl | h
      · exact .inr List.mem_cons_self
      · exact (ih h).imp_right (List.mem_cons_of_mem _)

/-- Registering keeps the order of first registration and adds a new identity at the end. -/
theorem keys_setCallable (callables : List (Key × Callable)) (key : Key) (callable : Callable) :
    (setCallable callables key callable).map Prod.fst =
      if key ∈ callables.map Prod.fst then callables.map Prod.fst
      else callables.map Prod.fst ++ [key] := by
  induction callables with
  | nil => simp [setCallable]
  | cons first rest ih =>
    rw [setCallable]
    split
    · next h => simp [h]
    · next h =>
      rw [List.map_cons, ih]
      simp only [List.map_cons, List.mem_cons, Ne.symm h, false_or]
      split <;> simp

/-- Every callable is registered once. -/
theorem nodup_keys_setCallable {callables : List (Key × Callable)}
    (h : (callables.map Prod.fst).Nodup) (key : Key) (callable : Callable) :
    ((setCallable callables key callable).map Prod.fst).Nodup := by
  rw [keys_setCallable]
  split
  · exact h
  · next hkey =>
    rw [← List.concat_eq_append]
    exact List.Nodup.concat hkey h

/-- What is found after setting a callable. -/
theorem lookup_setCallable (callables : List (Key × Callable)) (key key' : Key)
    (callable : Callable) :
    (setCallable callables key callable).lookup key' =
      if key' = key then some callable else callables.lookup key' := by
  induction callables with
  | nil =>
    rw [setCallable, List.lookup_cons]
    split <;> simp_all
  | cons first rest ih =>
    obtain ⟨k, c⟩ := first
    rw [setCallable]
    split
    · next h =>
      subst h
      rw [List.lookup_cons, List.lookup_cons]
      split <;> simp_all
    · next h =>
      rw [List.lookup_cons, List.lookup_cons, ih]
      by_cases hk : key' = k
      · subst hk
        simp [h]
      · simp only [beq_false_of_ne hk]

theorem mem_of_callable? {key : Key} {callable : Callable} (h : b.callable? key = some callable) :
    (key, callable) ∈ b.callables := by
  rw [callable?] at h
  obtain ⟨before, after, heq, -⟩ := List.lookup_eq_some_iff.1 h
  rw [heq]
  simp

/-! ### What moves keep -/

section Moves

variable {root n : Node} {declared : Node → Prop} {b b' : Builder} {scope : ScopeId}

/-- **No move takes anything away.** -/
theorem Move.grows (h : Move root declared b b') : b.Grows b' := by
  cases h with
  | statement vertex => exact ⟨StatementGraph.extends_addVertex _ _, Nat.le_refl _⟩
  | own _ _ _ h => exact ⟨StatementGraph.extends_of_connect h, Nat.le_refl _⟩
  | relate _ h => exact ⟨StatementGraph.extends_of_connect h, Nat.le_refl _⟩
  | block h => exact ⟨.refl _, Nat.le_of_lt (ScopeTree.lt_size_of_addScope h)⟩
  | declare _ h =>
    exact ⟨.refl _, Nat.le_of_eq (ScopeTree.size_of_frame_eq (ScopeTree.frame_of_declare h)).symm⟩
  | update =>
    exact ⟨.refl _, Nat.le_of_eq (ScopeTree.size_of_frame_eq (ScopeTree.frame_updateChain ..)).symm⟩
  | register | enqueue | noteCall | noteLinked | noteReturn | focus =>
    exact ⟨.refl _, Nat.le_refl _⟩

theorem Placed.setCallable {callable : Callable} (h : b.Placed root callable.node.key callable)
    (hb : ∀ entry ∈ b.callables, b.Placed root entry.1 entry.2) {entry : Key × Callable}
    (hentry : entry ∈ setCallable b.callables callable.node.key callable) :
    b.Placed root entry.1 entry.2 := by
  rcases mem_setCallable hentry with rfl | hentry
  · exact h
  · exact hb entry hentry

/-- What refers to statements and scopes stays valid as the builder grows; what a move changes
beyond that is left to prove. -/
theorem Valid.of_grows (hb : b.Valid root) (hg : b.Grows b')
    (hscopes : b'.scopes.WellFormed)
    (hbindings : b'.scopes.Sound b'.graph.vertices.size root.HasCallable)
    (hstatements : ∀ vertex ∈ b'.graph.vertices, vertex.scope < b'.scopes.size)
    (hcallables : b'.callables = b.callables) (hcalls : b'.callSites = b.callSites)
    (hreturns : b'.returns = b.returns) : b'.Valid root where
  scopes := hscopes
  bindings := hbindings
  statements := hstatements
  keys := hcallables ▸ hb.keys
  callables := hcallables ▸ fun entry he => (hb.callables entry he).mono hg
  callSites := hcalls ▸ fun site hs => hg.graph.lt_size (hb.callSites site hs)
  returns := hreturns ▸ fun return_ hr => hg.graph.lt_size (hb.returns return_ hr)

/-- Edges leave a builder valid. -/
theorem Valid.of_vertices_eq {graph : StatementGraph} (hb : b.Valid root)
    (h : graph.vertices = b.graph.vertices) : Valid root { b with graph } :=
  hb.of_grows ⟨.of_vertices_eq h, Nat.le_refl _⟩ hb.scopes (h ▸ hb.bindings) (h ▸ hb.statements)
    rfl rfl rfl

/-- Sound bindings leave a builder valid. -/
theorem Valid.of_frame_eq {scopes : ScopeTree} (hb : b.Valid root)
    (h : scopes.frame = b.scopes.frame)
    (hsound : scopes.Sound b.graph.vertices.size root.HasCallable) :
    Valid root { b with scopes } := by
  have hsize := ScopeTree.size_of_frame_eq h
  exact hb.of_grows ⟨.refl _, Nat.le_of_eq hsize.symm⟩ (hb.scopes.of_frame_eq h) hsound
    (hsize ▸ hb.statements) rfl rfl rfl

/-- **Every move keeps a builder valid.** -/
theorem Move.valid (h : Move root declared b b') (hb : b.Valid root) : b'.Valid root := by
  have hg := h.grows
  cases h with
  | statement vertex hscope =>
    refine hb.of_grows hg hb.scopes (hb.bindings.mono hg.graph.size_le) (fun x hx => ?_) rfl rfl rfl
    rcases StatementGraph.mem_vertices_addVertex hx with hx | rfl
    · exact hb.statements x hx
    · exact hscope
  | own _ _ _ h => exact hb.of_vertices_eq (StatementGraph.of_connect h).2.2.1
  | relate _ h => exact hb.of_vertices_eq (StatementGraph.of_connect h).2.2.1
  | block h =>
    obtain ⟨hparent, -, hframe⟩ := ScopeTree.frame_of_addScope h
    exact hb.of_grows hg (hb.scopes.of_frame_append hparent hframe) (hb.bindings.addScope h)
      (fun x hx => Nat.lt_of_lt_of_le (hb.statements x hx) hg.scopes) rfl rfl rfl
  | declare hbinding h =>
    exact hb.of_frame_eq (ScopeTree.frame_of_declare h) (hb.bindings.declare hbinding h)
  | update scope chain hupdate =>
    exact hb.of_frame_eq (ScopeTree.frame_updateChain ..) (hb.bindings.updateChain _ _ hupdate)
  | register callable hcallable =>
    exact { hb with
      keys := nodup_keys_setCallable hb.keys _ _
      callables := fun entry he => (hcallable.setCallable hb.callables he).mono hg }
  | enqueue | noteLinked => exact { hb with callables := fun entry he => (hb.callables entry he).mono hg }
  | noteCall key hsite =>
    exact { hb with
      callables := fun entry he => (hb.callables entry he).mono hg
      callSites := fun site hs => by
        rcases Array.mem_push.1 hs with hs | rfl
        · exact hb.callSites site hs
        · exact hsite }
  | noteReturn key hvertex =>
    exact { hb with
      callables := fun entry he => (hb.callables entry he).mono hg
      returns := fun return_ hr => by
        rcases Array.mem_push.1 hr with hr | rfl
        · exact hb.returns return_ hr
        · exact hvertex }
  | focus => exact { hb with callables := fun entry he => (hb.callables entry he).mono hg }

/-- Moves lead from one builder to another, which is valid. -/
structure Reaches (root : Node) (declared : Node → Prop) (b b' : Builder) : Prop where
  moves : Relation.ReflTransGen (Move root declared) b b'
  valid : b'.Valid root

theorem Reaches.refl (h : b.Valid root) : b.Reaches root declared b :=
  ⟨.refl, h⟩

theorem Reaches.trans {b'' : Builder} (h : b.Reaches root declared b')
    (h' : b'.Reaches root declared b'') : b.Reaches root declared b'' :=
  ⟨h.moves.trans h'.moves, h'.valid⟩

/-- One move from a valid builder. -/
theorem Reaches.of_move (hb : b.Valid root) (h : Move root declared b b') :
    b.Reaches root declared b' :=
  ⟨.single h, h.valid hb⟩

theorem Reaches.grows (h : b.Reaches root declared b') : b.Grows b' := by
  obtain ⟨h, -⟩ := h
  induction h with
  | refl => exact .refl b
  | tail _ hmove ih => exact ih.trans hmove.grows

/-- A move stays one if more may be declared. -/
theorem Move.weaken {declared' : Node → Prop} (h : Move root declared b b')
    (hd : ∀ d, declared d → declared' d) : Move root declared' b b' := by
  cases h with
  | statement vertex hscope => exact .statement vertex hscope
  | own howner hchild hkind h => exact .own howner hchild hkind h
  | relate hkind h => exact .relate hkind h
  | block h => exact .block h
  | declare hbinding h => exact .declare hbinding h
  | update scope chain hupdate => exact .update scope chain hupdate
  | register callable hcallable hdeclared =>
    exact .register callable hcallable (hdeclared.imp_right (hd _))
  | enqueue key => exact .enqueue key
  | noteLinked call => exact .noteLinked call
  | noteCall key hsite => exact .noteCall key hsite
  | noteReturn key hvertex => exact .noteReturn key hvertex
  | focus current => exact .focus current

theorem Reaches.weaken {declared' : Node → Prop} (h : b.Reaches root declared b')
    (hd : ∀ d, declared d → declared' d) : b.Reaches root declared' b' :=
  ⟨Relation.ReflTransGen.mono (fun _ _ (hmove : Move root declared _ _) => hmove.weaken hd) _ _
    h.moves, h.valid⟩

/-- A node can be visited from a scope: the scope exists, and in a nested tree some statement
encloses the node. -/
structure Ready (root : Node) (b : Builder) (n : Node) (scope : ScopeId) : Prop where
  mem : n ∈ root.nodes
  scope : scope < b.scopes.size
  covered : root.Nested → b.graph.Covers n.span

theorem Ready.mono (h : b.Ready root n scope) (hg : b.Grows b') : b'.Ready root n scope where
  mem := h.mem
  scope := Nat.lt_of_lt_of_le h.scope hg.scopes
  covered := fun hnest => hg.graph.covers (h.covered hnest)

/-- Steps can be taken below a node that is ready. -/
theorem Ready.descend {m : Node} (h : b.Ready root n scope)
    (hm : m ∈ n.nodes) : b.Ready root m scope where
  mem := Node.mem_nodes_trans hm h.mem
  scope := h.scope
  covered := fun hnest => (h.covered hnest).of_contains (hnest.contains h.mem hm)

theorem Ready.child {c : Node} (h : b.Ready root n scope) (hc : c ∈ n.children) :
    b.Ready root c scope :=
  h.descend (Node.child_mem_nodes hc)

/-- A statement of its own makes a node ready. -/
theorem StandsFor.ready {v : VertexId} (h : b.StandsFor v n) (hn : n ∈ root.nodes)
    (hscope : scope < b.scopes.size) : b.Ready root n scope :=
  have hholds : b.Holds root v n := h.holds
  ⟨hn, hscope, hholds.covers⟩

end Moves

end Builder

/-! ## Outcomes of steps -/

namespace Build

open Builder

/-- **What comes of a step**: it ends well after some moves, with a result as wanted, or it fails,
which it does only if the tree is not nested. -/
def Outcome {α : Type} (root : Node) (declared : Node → Prop) (b : Builder) (step : Build α)
    (post : α → Builder → Prop) : Prop :=
  match step b with
  | .ok (a, b') => b.Reaches root declared b' ∧ post a b'
  | .error _ => ¬ root.Nested

/-- Nothing is asked of the result of a step. -/
def Anything {α : Type} : α → Builder → Prop :=
  fun _ _ => True

namespace Outcome

variable {α β : Type} {root : Node} {declared : Node → Prop} {b b' : Builder}
  {mid : α → Builder → Prop} {post : β → Builder → Prop}

/-- A step that ends well, with its moves. -/
theorem of_ok {step : Build β} {a : β} (h : step b = .ok (a, b'))
    (hr : b.Reaches root declared b') (hpost : post a b') : Outcome root declared b step post := by
  rw [Outcome, h]
  exact ⟨hr, hpost⟩

theorem pure {a : β} (hb : b.Valid root) (h : post a b) :
    Outcome root declared b (pure a) post :=
  of_ok rfl (.refl hb) h

/-- Steps one after another. -/
theorem bind {step : Build α} {next : α → Build β} (h : Outcome root declared b step mid)
    (hnext : ∀ a b', b.Reaches root declared b' → mid a b' →
      Outcome root declared b' (next a) post) :
    Outcome root declared b (step >>= next) post := by
  have hrun : (step >>= next) b = (step b).bind fun r => next r.1 r.2 := rfl
  unfold Outcome at h ⊢
  rw [hrun]
  cases hstep : step b with
  | error e =>
    rw [hstep] at h
    exact h
  | ok r =>
    obtain ⟨a, b₁⟩ := r
    rw [hstep] at h
    have hend := hnext a b₁ h.1 h.2
    unfold Outcome at hend
    change match next a b₁ with
      | .ok (a, b') => b.Reaches root declared b' ∧ post a b'
      | .error _ => ¬ root.Nested
    split at hend
    · exact ⟨h.1.trans hend.1, hend.2⟩
    · exact hend

theorem andThen {step : Build α} {next : α → Build β}
    (h : Outcome root declared b step Anything)
    (hnext : ∀ a b', b.Reaches root declared b' → Outcome root declared b' (next a) post) :
    Outcome root declared b (step >>= next) post :=
  h.bind fun a b' hr _ => hnext a b' hr

theorem bind_get {next : Builder → Build β} (h : Outcome root declared b (next b) post) :
    Outcome root declared b (get >>= next) post :=
  h

theorem imp {step : Build β} {post' : β → Builder → Prop}
    (h : Outcome root declared b step post)
    (hpost : ∀ a b', b.Reaches root declared b' → post a b' → post' a b') :
    Outcome root declared b step post' := by
  unfold Outcome at h ⊢
  split at h
  · exact ⟨h.1, hpost _ _ h.1 h.2⟩
  · exact h

theorem weaken {step : Build β} {declared' : Node → Prop} (h : Outcome root declared b step post)
    (hd : ∀ d, declared d → declared' d) : Outcome root declared' b step post := by
  unfold Outcome at h ⊢
  split at h
  · exact ⟨h.1.weaken hd, h.2⟩
  · exact h

/-- A step that is one move. -/
theorem of_move {step : Build β} {a : β} (hb : b.Valid root) (hmove : Move root declared b b')
    (h : step b = .ok (a, b')) (hpost : post a b') : Outcome root declared b step post :=
  of_ok h (.of_move hb hmove) hpost

end Outcome

end Build

end DeadCode
