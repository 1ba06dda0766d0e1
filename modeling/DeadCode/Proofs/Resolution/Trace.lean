import DeadCode.Proofs.Resolution.References
import DeadCode.Proofs.Scope.Grounded

/-! # A run with its history

What a run has done so far is not to be seen from its builder alone: which piece of the text a scope
belongs to, which functions were hoisted to it, which uses of names were met in it. A `Trace` is a
builder with this history. It grows by acts, which are the moves of name resolution with the places
in the text at which they are made. -/

namespace DeadCode

open Node

/-- A leaf that was met: in which scope, and in the course of which statement if its functions are
hoisted. -/
structure Visited where
  /-- What was met. -/
  leaf : Leaf
  /-- The scope in which it was met. -/
  scope : ScopeId
  /-- The statement that was being linked; none for a part of the header of a callable. -/
  during : Option Node

/-- A builder and how it came about. -/
structure Trace where
  /-- The builder. -/
  builder : Builder
  /-- The places of the scopes. -/
  places : List ScopePlace
  /-- The functions that were hoisted, each with the scope it was declared on. -/
  hoisted : List (Node × ScopeId) := []
  /-- The leaves that were met, the last one first. -/
  log : List Visited := []

/-- The statements that declare the bindings of a builder exist, and the members of the bindings are
grounded. -/
def Builder.Grounded (b : Builder) : Prop :=
  b.scopes.Grounded b.graph.vertices.size

namespace Trace

/-! ## Where a run is -/

/-- A node is visited in a scope: the place of the scope leads to it. -/
def At (w : Trace) (scope : ScopeId) (visit : Visit) (n : Node) : Prop :=
  ∃ p, w.places[scope]? = some p ∧ Along p.visit p.node visit n

/-- A node lies in the place of a scope. -/
def Within (w : Trace) (scope : ScopeId) (n : Node) : Prop :=
  ∃ p, w.places[scope]? = some p ∧ n ∈ p.node.nodes

/-- The functions of the place of a scope were hoisted to it. -/
def HoistedOn (source : String) (w : Trace) (scope : ScopeId) : Prop :=
  ∃ p, w.places[scope]? = some p ∧
    ∀ f ∈ p.hoists, (f.name? source).isSome → (f, scope) ∈ w.hoisted

/-- Names can be used in a scope: it exists, and on all scopes around it the functions were hoisted.
In the header of a callable those of its own body were not. -/
structure Open (source : String) (w : Trace) (scope : ScopeId) (during : Option Node) : Prop where
  lt : scope < w.builder.scopes.size
  primed : ∀ outer ∈ w.builder.scopes.chain scope,
    w.HoistedOn source outer ∨ during = none ∧ outer = scope ∧ 0 < outer
  during : ∀ s, during = some s → ∃ v, w.builder.StandsFor v s
  grounded : w.builder.Grounded

/-- The functions of all scopes were hoisted, but perhaps those of a callable that is being entered.
The members of all bindings are grounded. -/
structure Quiet (source : String) (w : Trace) (busy : Option ScopeId) : Prop where
  fits : w.places.length = w.builder.scopes.size
  hoisted : ∀ scope < w.builder.scopes.size, busy ≠ some scope → w.HoistedOn source scope
  grounded : w.builder.Grounded

/-- Between two callables the functions of all scopes were hoisted. -/
def Calm (source : String) (w : Trace) : Prop :=
  w.Quiet source none

variable {w : Trace} {scope : ScopeId} {n : Node}

theorem At.within {visit : Visit} (h : w.At scope visit n) : w.Within scope n := by
  obtain ⟨p, hp, halong⟩ := h
  exact ⟨p, hp, halong.mem_nodes⟩

theorem Within.child {c : Node} (h : w.Within scope n) (hc : c ∈ n.children) :
    w.Within scope c := by
  obtain ⟨p, hp, hn⟩ := h
  exact ⟨p, hp, mem_nodes_trans (child_mem_nodes hc) hn⟩

theorem At.child {visit : Visit} {c : Node} (h : w.At scope visit n)
    (hdefers : visit.defers n.kind = false) (hc : c ∈ n.children) :
    w.At scope (visit.below n.kind c.kind) c := by
  obtain ⟨p, hp, halong⟩ := h
  exact ⟨p, hp, halong.child hdefers hc⟩

theorem Calm.opened {source : String} {during : Option Node} (h : w.Calm source)
    (hlt : scope < w.builder.scopes.size)
    (hduring : ∀ s, during = some s → ∃ v, w.builder.StandsFor v s) :
    w.Open source scope during where
  lt := hlt
  primed := fun outer houter =>
    .inl (h.hoisted outer (Nat.lt_of_le_of_lt (ScopeTree.le_of_mem_chain houter) hlt) nofun)
  during := hduring
  grounded := h.grounded

/-! ## Leaves that were met -/

/-- A leaf was met, in a way that is as wanted. -/
def Meets (w : Trace) (ok : Visited → Prop) (leaf : Leaf) : Prop :=
  ∃ entry ∈ w.log, entry.leaf = leaf ∧ ok entry

/-- The leaves of a list were met, in a way that is as wanted. -/
def Came (w : Trace) (ok : Visited → Prop) (leaves : List Leaf) : Prop :=
  ∀ leaf ∈ leaves, w.Meets ok leaf

/-- A leaf was met in a scope, in the course of a statement. -/
def Here (scope : ScopeId) (during : Option Node) (entry : Visited) : Prop :=
  entry.scope = scope ∧ entry.during = during

/-- A leaf was met, no matter where. -/
def Anywhere (_ : Visited) : Prop :=
  True

/-! ## Acts -/

/-- A binding is declared from a scope by a piece of the text other than a function declaration. A
`let` or `const` declaration stands in the place of the scope, and the header of a callable is the
place itself. -/
inductive Binds (source : String) (root : Node) (w : Trace) (scope : ScopeId) :
    Binding → Hoist → Prop where
  /-- The names that functions have without declaring them. -/
  | implicit {name : String} (h : name ∈ implicitNames) :
      Binds source root w scope (.placeholder name) .lexical
  /-- The names of a statement. -/
  | statement {binding : Binding} {hoist : Hoist} {v : VertexId} {m n : Node} (hm : m ∈ root.nodes)
      (hname : binding.name ∈ m.otherNames source) (hv : binding.declaration = some v)
      (hn : w.builder.StandsFor v n)
      (hlexical : n.kind = .lexicalDeclaration → hoist = .lexical ∧ n ∈ root.nodes ∧
        ∃ p, w.places[scope]? = some p ∧ p.Holds n) :
      Binds source root w scope binding hoist
  /-- The names of the header of a callable. -/
  | header {binding : Binding} {owner : VertexId} {n : Node} (hn : n ∈ root.nodes)
      (hname : binding.name ∈ n.otherNames source) (hv : binding.declaration = some owner)
      (howner : w.builder.Holds root owner n) (hplace : w.places[scope]? = some ⟨.callable, n⟩) :
      Binds source root w scope binding .lexical

theorem Binds.lt_size {source : String} {root : Node} {binding : Binding} {hoist : Hoist}
    (h : w.Binds source root scope binding hoist) (v : VertexId)
    (hv : binding.declaration = some v) : v < w.builder.graph.vertices.size := by
  cases h with
  | implicit => cases hv
  | statement _ _ hu hn =>
    rw [hu] at hv
    cases hv
    exact hn.lt_size
  | header _ _ hu howner =>
    rw [hu] at hv
    cases hv
    exact howner.lt_size

/-- One act of name resolution. -/
inductive Act (source : String) (root : Node) (w : Trace) : Trace → Prop where
  /-- Uses names. -/
  | use {u : Use} {scope : ScopeId} {during : Option Node} {b : Builder} (hu : u.Proper source)
      (hmem : u.node ∈ root.nodes) (hin : w.Within scope u.node)
      (hopen : w.Open source scope during) (h : u.Performs source scope w.builder b) :
      Act source root w { w with builder := b, log := ⟨.use u, scope, during⟩ :: w.log }
  /-- Adds a statement; a function declaration is visited as one. -/
  | vertex {n : Node} {x : Vertex} (hkey : x.key = n.key) (hmem : n ∈ root.nodes)
      (hown : root.HasStatement n)
      (hat : n.kind.form? = some .functionDecl → ∃ scope, w.At scope .link n) :
      Act source root w
        { w with builder := { w.builder with graph := (w.builder.graph.addVertex x).2 } }
  /-- Relates statements in another way than by names. -/
  | connect {u v : VertexId} {relation : Relation} {id : EdgeId} {graph : StatementGraph}
      (hkind : relation.kind.isName = false)
      (h : w.builder.graph.connect u v relation = .ok (id, graph)) :
      Act source root w { w with builder := { w.builder with graph } }
  /-- Relates an export to the declaration in it. -/
  | exported {u v : VertexId} {n c : Node} {name : String} {id : EdgeId} {graph : StatementGraph}
      (hn : n ∈ root.nodes) (hc : c ∈ n.children) (hu : w.builder.StandsFor u n)
      (hv : w.builder.StandsFor v c)
      (h : w.builder.graph.connect u v (.named .read name) = .ok (id, graph)) :
      Act source root w { w with builder := { w.builder with graph } }
  /-- Adds a block scope for a piece of the text. -/
  | block {scope new : ScopeId} {p : ScopePlace} {scopes : ScopeTree}
      (hfits : w.places.length = w.builder.scopes.size) (hat : w.At scope p.visit p.node)
      (hplain : p.visit = .link ∨ p.visit = .resolve)
      (h : w.builder.scopes.addScope scope .block = .ok (new, scopes)) :
      Act source root w
        { w with builder := { w.builder with scopes }, places := w.places ++ [p] }
  /-- Declares a function. -/
  | hoist {f : Node} {name : String} {v : VertexId} {scope target : ScopeId} {scopes : ScopeTree}
      (hmem : f ∈ root.nodes) (hform : f.kind.form? = some .functionDecl)
      (hname : f.name? source = some name) (hv : w.builder.StandsFor v f)
      (h : w.builder.scopes.declare scope { Binding.declared name v with callable := some f.key }
        .hoisted = .ok (target, scopes)) :
      Act source root w
        { w with builder := { w.builder with scopes }, hoisted := (f, target) :: w.hoisted }
  /-- Declares any other name. -/
  | declare {binding : Binding} {hoist : Hoist} {scope target : ScopeId} {scopes : ScopeTree}
      (hbinds : w.Binds source root scope binding hoist)
      (h : w.builder.scopes.declare scope binding hoist = .ok (target, scopes))
      (hrooted : binding.Rooted w.builder.graph.vertices.size) :
      Act source root w { w with builder := { w.builder with scopes } }
  /-- Stores what is assigned to a name or a member, once the left side was visited. -/
  | store {n left : Node} {chain : List String} {scope : ScopeId} {update : Binding → Binding}
      (hn : n ∈ root.nodes) (hkind : n.kind = .assignmentExpression)
      (hleft : n.child? .left = some left)
      (hchain : (left.memberChain? source).bind List.head? = chain.head?)
      (hmet : w.Came Anywhere (targetLeaves source left)) (hupdate : Binding.Keeps update)
      (hgrounds : Binding.Grounds w.builder.graph.vertices.size update) :
      Act source root w { w with
        builder := { w.builder with scopes := w.builder.scopes.updateChain scope chain update } }
  /-- Registers a callable that is left for later. -/
  | register {d : Node} {visit : Visit} {scope : ScopeId} {owner : VertexId} (during : Option Node)
      (hmem : d ∈ root.nodes) (hat : w.At scope visit d) (hdefers : visit.defers d.kind)
      (howner : w.builder.Holds root owner d) :
      Act source root w { w with
        builder := { w.builder with
          callables := Builder.setCallable w.builder.callables d.key ⟨d, scope, owner⟩ }
        log := ⟨.defer d, scope, during⟩ :: w.log }
  /-- Registers a class. -/
  | registerClass {n : Node} {scope : ScopeId} {owner : VertexId} (hmem : n ∈ root.nodes)
      (hclass : n.kind.isClass) (hnew : w.builder.callable? n.key = none) :
      Act source root w { w with
        builder := { w.builder with
          callables := Builder.setCallable w.builder.callables n.key ⟨n, scope, owner⟩ } }
  /-- Notes or queues something. -/
  | note {b : Builder} (hgraph : b.graph = w.builder.graph) (hscopes : b.scopes = w.builder.scopes)
      (hcallables : b.callables = w.builder.callables)
      (hexpanded : b.expanded = w.builder.expanded) :
      Act source root w { w with builder := b }

/-- No call is noted between two traces. -/
def SameCalls (w w' : Trace) : Prop :=
  w'.builder.callSites = w.builder.callSites ∧ w'.builder.calls = w.builder.calls

/-- An act in which no call is noted unless something is met. -/
structure Deed (source : String) (root : Node) (w w' : Trace) : Prop where
  act : Act source root w w'
  sites : w'.log = w.log → w.SameCalls w'

/-! ## Growing histories -/

/-- A trace grows into another: nothing of its history is lost, and members stay grounded. -/
structure Extends (w w' : Trace) : Prop where
  graph : w.builder.graph.Extends w'.builder.graph
  edges : ∀ e ∈ w.builder.graph.edges, e ∈ w'.builder.graph.edges
  frame : w.builder.scopes.frame <+: w'.builder.scopes.frame
  callables : ∀ key, (w.builder.callable? key).isSome → (w'.builder.callable? key).isSome
  places : w.places <+: w'.places
  hoisted : ∀ entry ∈ w.hoisted, entry ∈ w'.hoisted
  log : ∀ entry ∈ w.log, entry ∈ w'.log
  grounded : w.builder.Grounded → w'.builder.Grounded

namespace Extends

variable {w w' w'' : Trace}

theorem refl (w : Trace) : w.Extends w :=
  ⟨.refl _, fun _ h => h, List.prefix_rfl, fun _ h => h, List.prefix_rfl, fun _ h => h,
    fun _ h => h, fun h => h⟩

theorem trans (h : w.Extends w') (h' : w'.Extends w'') : w.Extends w'' where
  graph := h.graph.trans h'.graph
  edges := fun e he => h'.edges e (h.edges e he)
  frame := h.frame.trans h'.frame
  callables := fun key hk => h'.callables key (h.callables key hk)
  places := h.places.trans h'.places
  hoisted := fun entry he => h'.hoisted entry (h.hoisted entry he)
  log := fun entry he => h'.log entry (h.log entry he)
  grounded := fun hw => h'.grounded (h.grounded hw)

theorem size_le (h : w.Extends w') : w.builder.scopes.size ≤ w'.builder.scopes.size := by
  rw [← ScopeTree.length_frame, ← ScopeTree.length_frame]
  exact h.frame.length_le

theorem grows (h : w.Extends w') : w.builder.Grows w'.builder :=
  ⟨h.graph, h.size_le⟩

theorem place (h : w.Extends w') {scope : ScopeId} {p : ScopePlace} (hp : w.places[scope]? = some p) :
    w'.places[scope]? = some p := by
  obtain ⟨rest, hrest⟩ := h.places
  rw [← hrest, List.getElem?_append_left (List.getElem?_eq_some_iff.1 hp).1]
  exact hp

theorem chain (h : w.Extends w') {scope : ScopeId} (hlt : scope < w.builder.scopes.size) :
    w'.builder.scopes.chain scope = w.builder.scopes.chain scope :=
  ScopeTree.chain_of_frame h.frame hlt

end Extends

section Mono

variable {source : String} {w w' : Trace} {scope : ScopeId} {n : Node}

theorem At.mono {visit : Visit} (h : w.At scope visit n) (hw : w.Extends w') :
    w'.At scope visit n := by
  obtain ⟨p, hp, halong⟩ := h
  exact ⟨p, hw.place hp, halong⟩

theorem HoistedOn.mono (h : w.HoistedOn source scope) (hw : w.Extends w') :
    w'.HoistedOn source scope := by
  obtain ⟨p, hp, hoisted⟩ := h
  exact ⟨p, hw.place hp, fun f hf hname => hw.hoisted _ (hoisted f hf hname)⟩

theorem Open.mono {during : Option Node} (h : w.Open source scope during) (hw : w.Extends w') :
    w'.Open source scope during where
  lt := Nat.lt_of_lt_of_le h.lt hw.size_le
  primed := by
    intro outer houter
    rw [hw.chain h.lt] at houter
    exact (h.primed outer houter).imp_left fun h => h.mono hw
  during := by
    intro s hs
    obtain ⟨v, hv⟩ := h.during s hs
    exact ⟨v, hv.mono hw.grows⟩
  grounded := hw.grounded h.grounded

end Mono

/-! ## What acts keep -/

namespace Act

variable {source : String} {root : Node} {w w' : Trace}

theorem callable?_setCallable (b : Builder) (key : Key) (callable : Callable) (key' : Key)
    (h : (b.callable? key').isSome) :
    (Builder.callable? { b with callables := Builder.setCallable b.callables key callable }
      key').isSome := by
  rw [Builder.callable?, Builder.lookup_setCallable]
  split
  · rfl
  · exact h

/-- **No act takes anything away.** -/
theorem grows (h : Act source root w w') : w.Extends w' := by
  have hframe {scopes : ScopeTree} (hf : scopes.frame = w.builder.scopes.frame) :
      w.builder.scopes.frame <+: scopes.frame :=
    hf ▸ List.prefix_rfl
  have hrefl := Extends.refl w
  cases h with
  | use hu _ _ _ hperforms =>
    have hrelates := hperforms.relates hu
    exact { hrefl with
      graph := .of_vertices_eq hrelates.vertices
      edges := hrelates.old
      frame := hframe (congrArg ScopeTree.frame hrelates.scopes)
      callables := fun key hk => by rwa [Builder.callable?, hrelates.callables]
      log := fun entry he => List.mem_cons_of_mem _ he
      grounded := fun hw => by rwa [Builder.Grounded, hrelates.scopes, hrelates.vertices] }
  | vertex =>
    exact { hrefl with
      graph := StatementGraph.extends_addVertex _ _
      edges := fun e he => by rwa [StatementGraph.edges_addVertex]
      grounded := fun hw => hw.mono (StatementGraph.extends_addVertex _ _).size_le }
  | connect _ hconnect | exported _ _ _ _ hconnect =>
    exact { hrefl with
      graph := StatementGraph.extends_of_connect hconnect
      edges := fun e he => ((StatementGraph.of_connect hconnect).2.2.2 e).2 (.inl he)
      grounded := fun hw => hw.mono (StatementGraph.extends_of_connect hconnect).size_le }
  | block _ _ _ hadd =>
    exact { hrefl with
      frame := ⟨_, (ScopeTree.frame_of_addScope hadd).2.2.symm⟩
      places := List.prefix_append _ _
      grounded := fun hw => ScopeTree.Grounded.addScope hw hadd }
  | hoist _ _ _ hv hdeclare =>
    exact { hrefl with
      frame := hframe (ScopeTree.frame_of_declare hdeclare)
      hoisted := fun entry he => List.mem_cons_of_mem _ he
      grounded := fun hw => by
        refine ScopeTree.Grounded.declare hw ?_ (fun _ hm => absurd hm List.not_mem_nil) hdeclare
        rintro _ ⟨⟩
        exact hv.lt_size }
  | declare hbinds hdeclare hrooted =>
    exact { hrefl with
      frame := hframe (ScopeTree.frame_of_declare hdeclare)
      grounded := fun hw => ScopeTree.Grounded.declare hw hbinds.lt_size hrooted hdeclare }
  | store _ _ _ _ _ hupdate hgrounds =>
    exact { hrefl with
      frame := hframe (ScopeTree.frame_updateChain ..)
      grounded := fun hw => ScopeTree.Grounded.updateChain hw hupdate hgrounds _ _ }
  | register =>
    exact { hrefl with
      callables := callable?_setCallable _ _ _
      log := fun entry he => List.mem_cons_of_mem _ he }
  | registerClass => exact { hrefl with callables := callable?_setCallable _ _ _ }
  | note hgraph hscopes hcallables _ =>
    exact { hrefl with
      graph := .of_vertices_eq (congrArg StatementGraph.vertices hgraph)
      edges := fun e he => by rwa [hgraph]
      frame := hframe (congrArg ScopeTree.frame hscopes)
      callables := fun key hk => by rwa [Builder.callable?, hcallables]
      grounded := fun hw => by rwa [Builder.Grounded, hscopes, hgraph] }

theorem quiet {busy : Option ScopeId} (h : Act source root w w') (hquiet : w.Quiet source busy) :
    w'.Quiet source busy := by
  have hextends := h.grows
  have hkeep (hplaces : w'.places = w.places)
      (hframe : w'.builder.scopes.frame = w.builder.scopes.frame) : w'.Quiet source busy := by
    have hsize := ScopeTree.size_of_frame_eq hframe
    refine ⟨by rw [hplaces, hsize, hquiet.fits], fun scope hlt hbusy => ?_,
      hextends.grounded hquiet.grounded⟩
    rw [hsize] at hlt
    exact (hquiet.hoisted scope hlt hbusy).mono hextends
  cases h with
  | use hu _ _ _ hperforms =>
    exact hkeep rfl (congrArg ScopeTree.frame (hperforms.relates hu).scopes)
  | @block scope new p scopes hfits hat hplain hadd =>
    have hsize := ScopeTree.size_of_addScope hadd
    refine ⟨by simp [hfits, hsize], fun inner hlt hbusy => ?_, hextends.grounded hquiet.grounded⟩
    change inner < scopes.size at hlt
    rw [hsize] at hlt
    rcases Nat.lt_succ_iff_lt_or_eq.1 hlt with hlt | rfl
    · exact (hquiet.hoisted inner hlt hbusy).mono hextends
    · -- A block has no functions of its own.
      refine ⟨p, ?_, fun f hf => ?_⟩
      · change (w.places ++ [p])[w.builder.scopes.size]? = some p
        rw [← hfits, List.getElem?_concat_length]
      · rcases hplain with hplain | hplain <;> simp [ScopePlace.hoists, hplain] at hf
  | vertex | connect | exported | register | registerClass => exact hkeep rfl rfl
  | hoist _ _ _ _ hdeclare => exact hkeep rfl (ScopeTree.frame_of_declare hdeclare)
  | declare _ hdeclare => exact hkeep rfl (ScopeTree.frame_of_declare hdeclare)
  | store => exact hkeep rfl (ScopeTree.frame_updateChain ..)
  | note _ hscopes => exact hkeep rfl (congrArg ScopeTree.frame hscopes)

theorem expanded_eq (h : Act source root w w') : w'.builder.expanded = w.builder.expanded := by
  cases h with
  | use hu _ _ _ hperforms => exact (hperforms.relates hu).expanded
  | note _ _ _ hexpanded => exact hexpanded
  | _ => rfl

end Act

end Trace

end DeadCode
