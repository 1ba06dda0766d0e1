import DeadCode.Proofs.Resolution.Trace
import DeadCode.Proofs.Resolution.Walk

/-! # What a step does to a history

A step that ends well leads from one trace to another by acts, and meets leaves on its way. -/

namespace DeadCode

open Node

namespace Trace

/-! ## Leaves that were met -/

section Came

variable {w w' : Trace} {ok : Visited → Prop} {leaves : List Leaf}

theorem Meets.mono {leaf : Leaf} (h : w.Meets ok leaf) (hw : w.Extends w') : w'.Meets ok leaf := by
  obtain ⟨entry, he, heq⟩ := h
  exact ⟨entry, hw.log entry he, heq⟩

theorem Came.mono (h : w.Came ok leaves) (hw : w.Extends w') : w'.Came ok leaves :=
  fun leaf hleaf => (h leaf hleaf).mono hw

theorem Came.anywhere (h : w.Came ok leaves) : w.Came Anywhere leaves := by
  intro leaf hleaf
  obtain ⟨entry, he, heq, -⟩ := h leaf hleaf
  exact ⟨entry, he, heq, trivial⟩

end Came

/-! ## Steps of a history -/

/-- An expression statement was linked to its end: it was visited in some scope, and all leaves of
its parts were met there in its course. -/
def Finished (source : String) (root : Node) (w : Trace) (x : Vertex) : Prop :=
  ∃ n ∈ root.nodes, n.key = x.key ∧ ∃ scope, w.At scope .resolve n ∧
    w.Came (Here scope (some n)) (partLeaves source n)

/-- Acts lead from one trace to another, and the expression statements among the new statements were
linked to their ends. -/
structure Leads (source : String) (root : Node) (w w' : Trace) : Prop where
  deeds : Relation.ReflTransGen (Deed source root) w w'
  accounted : ∀ x ∈ w'.builder.graph.vertices, x.key.kind = .expressionStatement →
    x ∈ w.builder.graph.vertices ∨ w'.Finished source root x

section Leads

variable {source : String} {root : Node} {w w' w'' : Trace}

/-- Acts take nothing away. -/
theorem extends_of_acts (h : Relation.ReflTransGen (Act source root) w w') : w.Extends w' := by
  induction h with
  | refl => exact .refl w
  | tail _ hact ih => exact ih.trans hact.grows

theorem Finished.mono {x : Vertex} (h : w.Finished source root x) (hw : w.Extends w') :
    w'.Finished source root x := by
  obtain ⟨n, hn, hkey, scope, hat, hcame⟩ := h
  exact ⟨n, hn, hkey, scope, hat.mono hw, hcame.mono hw⟩

namespace Leads

theorem refl (w : Trace) : w.Leads source root w :=
  ⟨.refl, fun _ hx _ => .inl hx⟩

theorem acts (h : w.Leads source root w') : Relation.ReflTransGen (Act source root) w w' :=
  Relation.ReflTransGen.mono (fun _ _ hdeed => hdeed.act) _ _ h.deeds

theorem grows (h : w.Leads source root w') : w.Extends w' :=
  extends_of_acts h.acts

theorem trans (h : w.Leads source root w') (h' : w'.Leads source root w'') :
    w.Leads source root w'' where
  deeds := h.deeds.trans h'.deeds
  accounted := by
    intro x hx hkind
    rcases h'.accounted x hx hkind with hx | hx
    · exact (h.accounted x hx hkind).imp_right fun h => h.mono h'.grows
    · exact .inr hx

/-- A deed that adds no expression statement. -/
theorem of_deed (h : Deed source root w w')
    (hvertices : ∀ x ∈ w'.builder.graph.vertices, x.key.kind = .expressionStatement →
      x ∈ w.builder.graph.vertices) : w.Leads source root w' :=
  ⟨.single h, fun x hx hkind => .inl (hvertices x hx hkind)⟩

theorem of_vertices_eq (h : Deed source root w w')
    (hvertices : w'.builder.graph.vertices = w.builder.graph.vertices) : w.Leads source root w' :=
  of_deed h fun x hx _ => by rwa [hvertices] at hx

/-- Acts leave hoisted what was hoisted. -/
theorem quiet {busy : Option ScopeId} (h : w.Leads source root w') (hquiet : w.Quiet source busy) :
    w'.Quiet source busy := by
  obtain ⟨h, -⟩ := h
  induction h with
  | refl => exact hquiet
  | tail _ hdeed ih => exact hdeed.act.quiet ih

theorem calm (h : w.Leads source root w') (hcalm : w.Calm source) : w'.Calm source :=
  h.quiet hcalm

/-- Acts enter no callable. -/
theorem expanded_eq (h : w.Leads source root w') : w'.builder.expanded = w.builder.expanded := by
  obtain ⟨h, -⟩ := h
  induction h with
  | refl => rfl
  | tail _ hdeed ih => exact hdeed.act.expanded_eq.trans ih

end Leads

end Leads

end Trace

namespace Build

open Trace

/-! ## Steps that end well -/

/-- **What a step does to a history** if it ends well: it leads to a trace of its builder with a
result as wanted. -/
def Runs {α : Type} (source : String) (root : Node) (w : Trace) (step : Build α)
    (post : α → Trace → Prop) : Prop :=
  ∀ a b, step w.builder = .ok (a, b) →
    ∃ w', w'.builder = b ∧ w.Leads source root w' ∧ post a w'

/-- A step is made of acts. -/
def Acts {α : Type} (source : String) (root : Node) (w : Trace) (step : Build α) : Prop :=
  Runs source root w step fun _ _ => True

/-- A step hoists all functions of a list that have names to a scope. -/
def Hoists {α : Type} (source : String) (root : Node) (w : Trace) (scope : ScopeId)
    (step : Build α) (functions : List Node) : Prop :=
  Runs source root w step fun _ w' => ∀ f ∈ functions, (f.name? source).isSome →
    (f, scope) ∈ w'.hoisted

variable {α β γ : Type} {source : String} {root : Node} {w : Trace}

namespace Runs

variable {post : α → Trace → Prop} {step : Build α}

theorem pure {a : α} (h : post a w) : Runs source root w (pure a) post := by
  intro a' b hrun
  cases hrun
  exact ⟨w, rfl, .refl w, h⟩

/-- Steps one after another. -/
theorem bind {next : α → Build β} {post' : β → Trace → Prop} (h : Runs source root w step post)
    (hnext : ∀ a w', w.Leads source root w' → post a w' → Runs source root w' (next a) post') :
    Runs source root w (step >>= next) post' := by
  intro c b hrun
  obtain ⟨a, b₁, hstep, hrun⟩ := exists_of_bind_ok hrun
  obtain ⟨w₁, rfl, h₁, hpost⟩ := h a b₁ hstep
  obtain ⟨w₂, rfl, h₂, hpost'⟩ := hnext a w₁ h₁ hpost c b hrun
  exact ⟨w₂, rfl, h₁.trans h₂, hpost'⟩

/-- A step may look at the builder. -/
theorem bind_get {next : Builder → Build α} (h : Runs source root w (next w.builder) post) :
    Runs source root w (get >>= next) post :=
  h

/-- A result may be weakened. -/
theorem imp {post' : α → Trace → Prop} (h : Runs source root w step post)
    (hpost : ∀ a w', w.Leads source root w' → post a w' → post' a w') :
    Runs source root w step post' := by
  intro a b hrun
  obtain ⟨w', hb, hw, hp⟩ := h a b hrun
  exact ⟨w', hb, hw, hpost a w' hw hp⟩

theorem of_deed (h : ∀ a b, step w.builder = .ok (a, b) → ∃ w', Deed source root w w' ∧
      w'.builder = b ∧ w'.builder.graph.vertices = w.builder.graph.vertices ∧ post a w') :
    Runs source root w step post := by
  intro a b hrun
  obtain ⟨w', hdeed, hb, hvertices, hp⟩ := h a b hrun
  exact ⟨w', hb, .of_vertices_eq hdeed hvertices, hp⟩

theorem acts (h : Runs source root w step post) : Acts source root w step :=
  h.imp fun _ _ _ _ => trivial

end Runs

namespace Acts

variable {step : Build α}

theorem pure {a : α} : Acts source root w (pure a) :=
  Runs.pure trivial

theorem bind {next : α → Build β} (h : Acts source root w step)
    (hnext : ∀ a w', w.Leads source root w' → Acts source root w' (next a)) :
    Acts source root w (step >>= next) :=
  Runs.bind h fun a w' hw _ => hnext a w' hw

/-- A step that is taken if there is something. -/
theorem forM_option {x : Option γ} {visit : γ → Build Unit}
    (h : ∀ a, x = some a → Acts source root w (visit a)) : Acts source root w (x.forM visit) := by
  cases x with
  | none => exact .pure
  | some a => exact h a rfl

end Acts

/-- **Histories are a way to speak of steps**: a step meets leaves in a way that is as wanted. -/
def histories (source : String) (root : Node) (ok : Visited → Prop) : Logic Trace where
  builder := Trace.builder
  Later := Leads source root
  Says w step leaves post := Runs source root w step fun a w' => w'.Came ok leaves ∧ post a w'
  Met leaves w := w.Came ok leaves
  refl := .refl
  trans := .trans
  ret h := Runs.pure ⟨fun _ hleaf => absurd hleaf List.not_mem_nil, h⟩
  bind h hnext := Runs.bind h fun a w' hw hpost =>
    (hnext a w' hw hpost.2).imp fun _ _ hw' hend =>
      ⟨List.forall_mem_append.2 ⟨hpost.1.mono hw'.grows, hend.1⟩, hend.2⟩
  look h := h
  imp h hsub hpost := Runs.imp h fun a w' hw hend =>
    ⟨fun leaf hleaf => hend.1 leaf (hsub leaf hleaf), hpost a w' hw hend.2⟩
  met h := Runs.imp h fun _ _ _ hend => ⟨hend.1, hend.2, hend.1⟩
  met_later hw hcame := Came.mono hcame hw.grows

/-- What a step does, said in the logic of histories. -/
theorem Runs.to_logic {ok : Visited → Prop} {post : α → Trace → Prop} {step : Build α}
    (h : Runs source root w step post) : (histories source root ok).Says w step [] post :=
  Runs.imp h fun _ _ _ hpost => ⟨fun _ hleaf => absurd hleaf List.not_mem_nil, hpost⟩

/-- A loop of acts is made of acts. -/
theorem Acts.forM {ys : List γ} {visit : γ → Build Unit}
    (h : ∀ y ∈ ys, ∀ w', w.Leads source root w' → Acts source root w' (visit y)) :
    Acts source root w (ys.forM visit) := by
  have hloop : (histories source root Anywhere).Does w (ys.forM visit) [] :=
    Logic.forM_nil fun y hy w' hw => Runs.to_logic (h y hy w' hw)
  exact Runs.acts hloop

/-- A step meets all leaves of a list. -/
def Comes {α : Type} (source : String) (root : Node) (w : Trace) (ok : Visited → Prop)
    (step : Build α) (leaves : List Leaf) : Prop :=
  (histories source root ok).Does w step leaves

/-! ## Single steps -/

variable {scope : ScopeId} {during : Option Node} {n : Node}

/-- Noting or queueing something is an act. -/
theorem runs_note {change : Builder → Builder}
    (hgraph : (change w.builder).graph = w.builder.graph)
    (hscopes : (change w.builder).scopes = w.builder.scopes)
    (hcallables : (change w.builder).callables = w.builder.callables)
    (hexpanded : (change w.builder).expanded = w.builder.expanded)
    (hsites : w.SameCalls { w with builder := change w.builder }) :
    Runs source root w (modify change) fun _ w' => w' = { w with builder := change w.builder } := by
  refine .of_deed fun a b hrun => ?_
  cases hrun
  exact ⟨_, ⟨.note hgraph hscopes hcallables hexpanded, fun _ => hsites⟩, rfl,
    congrArg StatementGraph.vertices hgraph, rfl⟩

theorem acts_enqueue (key : Key) : Acts source root w (enqueue key) :=
  (runs_note rfl rfl rfl rfl ⟨rfl, rfl⟩).acts

theorem acts_noteReturn (vertex : VertexId) :
    Acts source root w (noteReturn vertex) := by
  refine (runs_note ?_ ?_ ?_ ?_ ⟨?_, ?_⟩).acts
  all_goals
    split <;> rfl

/-! ### Statements and edges -/

/-- Adding a statement is a deed, and it adds at most that one. -/
theorem exists_deed_of_addVertex {x : Vertex} {v : VertexId} {b : Builder} (hkey : x.key = n.key)
    (hmem : n ∈ root.nodes) (hown : root.HasStatement n)
    (hat : n.kind.form? = some .functionDecl → ∃ scope, w.At scope .link n)
    (hrun : addVertex x w.builder = .ok (v, b)) :
    ∃ w', w'.builder = b ∧ Deed source root w w' ∧ w'.builder.StandsFor v n ∧
      ∀ y ∈ w'.builder.graph.vertices, y ∈ w.builder.graph.vertices ∨ y = x ∧
        ∀ u, ¬ w.builder.StandsFor u n := by
  rw [addVertex, onGraph_apply] at hrun
  cases hrun
  refine ⟨_, rfl, ⟨.vertex hkey hmem hown hat, fun _ => ⟨rfl, rfl⟩⟩, ?_, fun y hy => ?_⟩
  · obtain ⟨found, hfound, hk⟩ := w.builder.graph.vertex?_addVertex x
    exact ⟨found, hfound, hk.trans hkey⟩
  · change y ∈ (w.builder.graph.addVertex x).2.vertices at hy
    unfold StatementGraph.addVertex at hy
    split at hy
    · exact .inl hy
    · next hnone =>
      rcases Array.mem_push.1 hy with hy | rfl
      · exact .inl hy
      · refine .inr ⟨rfl, fun u ⟨found, hfound, hfoundKey⟩ => ?_⟩
        have hall := Array.findIdx?_eq_none_iff.1 hnone found (Array.mem_of_getElem? hfound)
        simp [hfoundKey, hkey] at hall

/-- A statement that is added stands for its node. -/
theorem runs_addVertex {x : Vertex} (hkey : x.key = n.key) (hmem : n ∈ root.nodes)
    (hown : root.HasStatement n)
    (hat : n.kind.form? = some .functionDecl → ∃ scope, w.At scope .link n)
    (hkind : n.kind = .expressionStatement → ∃ v, w.builder.StandsFor v n) :
    Runs source root w (addVertex x) fun v w' => w'.builder.StandsFor v n := by
  intro v b hrun
  obtain ⟨w', hb, hdeed, hstands, hnew⟩ := exists_deed_of_addVertex hkey hmem hown hat hrun
  refine ⟨w', hb, .of_deed hdeed fun y hy hkind' => ?_, hstands⟩
  rcases hnew y hy with hy | ⟨rfl, hnone⟩
  · exact hy
  · rw [hkey] at hkind'
    obtain ⟨u, hu⟩ := hkind hkind'
    exact absurd hu (hnone u)

/-- Relating statements in another way than by names. -/
theorem acts_connect {u v : VertexId} {relation : Relation} (hkind : relation.kind.isName = false) :
    Acts source root w (connect u v relation) := by
  refine .of_deed fun a b hrun => ?_
  obtain ⟨id, graph, hconnect, rfl⟩ := exists_of_connect_ok hrun
  exact ⟨_, ⟨.connect hkind hconnect, fun _ => ⟨rfl, rfl⟩⟩, rfl,
    (StatementGraph.of_connect hconnect).2.2.1, trivial⟩

theorem acts_exported {u v : VertexId} {c : Node} {name : String} (hn : n ∈ root.nodes)
    (hc : c ∈ n.children) (hu : w.builder.StandsFor u n) (hv : w.builder.StandsFor v c) :
    Acts source root w (connect u v (.named .read name)) := by
  refine .of_deed fun a b hrun => ?_
  obtain ⟨id, graph, hconnect, rfl⟩ := exists_of_connect_ok hrun
  exact ⟨_, ⟨.exported hn hc hu hv hconnect, fun _ => ⟨rfl, rfl⟩⟩, rfl,
    (StatementGraph.of_connect hconnect).2.2.1, trivial⟩

/-! ### Scopes and bindings -/

/-- A block scope is added for a piece of the text that is visited in the scope around it. -/
theorem runs_addBlock {p : ScopePlace} (hcalm : w.Calm source) (hat : w.At scope p.visit p.node)
    (hplain : p.visit = .link ∨ p.visit = .resolve) :
    Runs source root w (addScope scope .block) fun new w' =>
      w'.places[new]? = some p ∧ new < w'.builder.scopes.size := by
  refine .of_deed fun new b hrun => ?_
  obtain ⟨scopes, hadd, rfl⟩ := exists_of_addScope_ok hrun
  obtain ⟨-, rfl, -⟩ := ScopeTree.frame_of_addScope hadd
  refine ⟨_, ⟨.block hcalm.fits hat hplain hadd, fun _ => ⟨rfl, rfl⟩⟩, rfl, rfl, ?_,
    ScopeTree.lt_size_of_addScope hadd⟩
  change (w.places ++ [p])[w.builder.scopes.size]? = some p
  rw [← hcalm.fits, List.getElem?_concat_length]

/-- Declaring a name is an act. -/
theorem acts_declare {binding : Binding} {hoist : Hoist}
    (hbinds : w.Binds source root scope binding hoist)
    (hrooted : binding.Rooted w.builder.graph.vertices.size) :
    Acts source root w (declare scope binding hoist) := by
  refine .of_deed fun a b hrun => ?_
  obtain ⟨target, scopes, hdeclare, rfl⟩ := exists_of_declare_ok hrun
  exact ⟨_, ⟨.declare hbinds hdeclare hrooted, fun _ => ⟨rfl, rfl⟩⟩, rfl, rfl, trivial⟩

theorem acts_declareNames {names : List String} {vertex : VertexId}
    (hbinds : ∀ name ∈ names, ∀ w', w.Leads source root w' →
      w'.Binds source root scope (.declared name vertex) .lexical) :
    Acts source root w (declareNames scope names vertex) :=
  .forM fun name hname w' hw =>
    acts_declare (hbinds name hname w' hw) (Binding.rooted_declared name vertex)

/-- Hoisting a `var` is an act at most. -/
theorem acts_hoistVar {name : String} {vertex : VertexId} {hasValue : Bool}
    (hbinds : w.Binds source root scope (.declared name vertex) .hoisted) :
    Acts source root w (hoistVar scope name vertex hasValue) := by
  refine .bind_get ?_
  dsimp only
  split
  · intro a b hrun
    cases hrun
  · split
    · exact .pure trivial
    · exact acts_declare hbinds (Binding.rooted_declared name vertex)

/-- A function is hoisted to a scope that takes it. -/
theorem runs_hoist {name : String} {v : VertexId} (hmem : n ∈ root.nodes)
    (hform : n.kind.form? = some .functionDecl) (hname : n.name? source = some name)
    (hv : w.builder.StandsFor v n) :
    Runs source root w
      (declare scope { Binding.declared name v with callable := some n.key } .hoisted)
      fun _ w' => w.builder.scopes.takesHoisted scope → (n, scope) ∈ w'.hoisted := by
  refine .of_deed fun a b hrun => ?_
  obtain ⟨target, scopes, hdeclare, rfl⟩ := exists_of_declare_ok hrun
  refine ⟨_, ⟨.hoist hmem hform hname hv hdeclare, fun _ => ⟨rfl, rfl⟩⟩, rfl, rfl, fun htakes => ?_⟩
  have hland := ScopeTree.landing_of_declare hdeclare
  rw [ScopeTree.landing, ScopeTree.hoistTarget_of_takesHoisted htakes] at hland
  cases hland
  exact List.mem_cons_self

/-- Storing what is assigned is an act. -/
theorem acts_store {left : Node} {chain : List String} {update : Binding → Binding}
    (hn : n ∈ root.nodes) (hkind : n.kind = .assignmentExpression)
    (hleft : n.child? .left = some left)
    (hchain : (left.memberChain? source).bind List.head? = chain.head?)
    (hmet : w.Came Anywhere (targetLeaves source left)) (hupdate : Binding.Keeps update)
    (hrooted : ∀ x, x.Rooted w.builder.graph.vertices.size →
      (update x).Rooted w.builder.graph.vertices.size) :
    Acts source root w (updateDeclared scope chain update) := by
  refine .of_deed fun a b hrun => ?_
  cases hrun
  refine ⟨_, ⟨.store hn hkind hleft hchain hmet ⟨fun x => ?_, fun x => ?_, fun x hx => ?_⟩
    (.guarded hupdate hrooted), fun _ => ⟨rfl, rfl⟩⟩, rfl, rfl, trivial⟩
  · split
    · exact hupdate.name x
    · rfl
  · split
    · exact hupdate.declaration x
    · rfl
  · split
    · exact hupdate.callable x hx
    · exact hx

/-! ### Callables -/

/-- A callable is left for later where it is registered. -/
theorem runs_register (during : Option Node) {ok : Visited → Prop}
    (hok : ∀ entry, Here scope during entry → ok entry) {visit : Visit} {owner : VertexId}
    (hmem : n ∈ root.nodes) (hat : w.At scope visit n) (hdefers : visit.defers n.kind)
    (howner : w.builder.Holds root owner n) :
    Runs source root w (register n scope owner) fun key w' =>
      key = n.key ∧ w'.Came ok [.defer n] := by
  refine .of_deed fun key b hrun => ?_
  cases hrun
  refine ⟨_, ⟨.register during hmem hat hdefers howner, fun _ => ⟨rfl, rfl⟩⟩, rfl, rfl, rfl,
    fun leaf hleaf => ?_⟩
  rw [List.mem_singleton] at hleaf
  exact ⟨_, List.mem_cons_self, hleaf.symm, hok _ ⟨rfl, rfl⟩⟩

/-- A class is registered once. -/
theorem acts_registerClass {owner : VertexId} (hmem : n ∈ root.nodes) (hclass : n.kind.isClass) :
    Acts source root w (registerClass n scope owner) := by
  cases hfound : w.builder.callable? n.key with
  | some c =>
    intro a b hrun
    simp only [registerClass, modify_apply, hfound] at hrun
    cases hrun
    exact ⟨w, rfl, .refl w, trivial⟩
  | none =>
    refine .of_deed fun a b hrun => ?_
    simp only [registerClass, modify_apply, hfound] at hrun
    cases hrun
    exact ⟨_, ⟨.registerClass hmem hclass hfound, fun _ => ⟨rfl, rfl⟩⟩, rfl, rfl, trivial⟩

/-! ### Uses -/

/-- **A use of names is met where it happens.** -/
theorem comes_use {u : Use} {step : Build Unit} {ok : Visited → Prop}
    (hok : ∀ entry, Here scope during entry → ok entry) (hu : u.Proper source)
    (hmem : u.node ∈ root.nodes) (hin : w.Within scope u.node) (hopen : w.Open source scope during)
    (h : ∀ b, step w.builder = .ok ((), b) → u.Performs source scope w.builder b) :
    Comes source root w ok step [.use u] := by
  refine .of_deed fun a b hrun => ?_
  have hperforms := h b hrun
  refine ⟨_, ⟨.use hu hmem hin hopen hperforms, fun hlog => absurd hlog (List.cons_ne_self _ _)⟩,
    rfl, (hperforms.relates hu).vertices, fun leaf hleaf => ?_, trivial⟩
  rw [List.mem_singleton] at hleaf
  exact ⟨_, List.mem_cons_self, hleaf.symm, hok _ ⟨rfl, rfl⟩⟩

end Build

end DeadCode
