import DeadCode.Proofs.Resolution.ForwardCalls
import DeadCode.Proofs.Resolution.HoistedNames
import DeadCode.Proofs.Resolution.Upkeep.Binding
import DeadCode.Proofs.Syntax.SourceOrder

/-! # Calls of functions that share their names

A body may declare a name as a function and by `var` as well. If the name is left to the last
function when hoisting ends, it stands for the function until a statement gives it a value, and the
calls up to there are related to the function. -/

namespace DeadCode

open Node

theorem Node.Nested.of_mem {root n : Node} (h : root.Nested) (hn : n ∈ root.nodes) : n.Nested :=
  fun m hm => h m (mem_nodes_trans hm hn)

theorem Node.Grammatical.of_mem {root n : Node} (h : root.Grammatical) (hn : n ∈ root.nodes) :
    n.Grammatical :=
  fun m hm => h m (mem_nodes_trans hm hn)

/-- A new scope is innermost. -/
theorem ScopeTree.chain_of_addScope {tree tree' : ScopeTree} {parent new : ScopeId}
    {kind : ScopeKind} (h : tree.addScope parent kind = .ok (new, tree')) :
    tree'.chain new = new :: tree.chain parent := by
  obtain ⟨hlt, rfl, hframe⟩ := frame_of_addScope h
  have hnew : tree'.scope? tree.size = some { parent := some parent, kind } := by
    unfold addScope at h
    split at h
    · cases h
    · cases h
      simp [scope?, size]
  rw [chain, hnew]
  dsimp only
  rw [if_pos hlt, chain_of_frame ⟨_, hframe.symm⟩ hlt]

/-- In a nested tree steps end well. -/
theorem Build.Outcome.exists_ok {β : Type} {root : Node} {declared : Node → Prop} {b : Builder}
    {post : β → Builder → Prop} {step : Build β} (h : Outcome root declared b step post)
    (hroot : root.Nested) :
    ∃ a b', step b = .ok (a, b') ∧ b.Reaches root declared b' ∧ post a b' := by
  unfold Outcome at h
  split at h
  · next a b' hstep => exact ⟨a, b', hstep, h⟩
  · exact absurd hroot h

/-! ## Names that stand for functions -/

/-- The `first` statements of a body leave a name to a function: no `var` declaration in them,
outside of callables, gives it a value, and no other declaration at their top has it. -/
structure Node.Spares (source : String) (body : Node) (first : List Node) (name : String) :
    Prop where
  hoisted : ∀ n, body.Outer n → (∃ c ∈ first, n ∈ c.nodes) → ¬ n.Initialises source name
  lexical : ∀ n, body.Standing n → (∃ c ∈ first, n ∈ c.nodes) →
    n.kind.form?.any Form.isHoisted = false → name ∉ n.statementNames source

namespace Builder

variable {b b' : Builder} {f : Node} {name : String} {x : Binding} {host : ScopeId}

/-- A binding stands for a function, and can be called. -/
structure Names (b : Builder) (f : Node) (x : Binding) : Prop where
  declaration : ∃ v, x.declaration = some v ∧ b.StandsFor v f
  callable : x.callable.isSome

/-- **On a scope that takes hoisted declarations a name stands for a function.** -/
structure Provides (host : ScopeId) (name : String) (f : Node) (b : Builder) : Prop where
  takes : b.scopes.takesHoisted host
  bound : ∃ x, b.scopes.local? host name = some x ∧ b.Names f x

/-- **A call is related to a function**: a statement around it has an edge to the function. -/
def HasCall (b : Builder) (call : Node) (name : String) (f : Node) : Prop :=
  ∃ u v x, b.graph.vertex? u = some x ∧ x.span.contains call.span ∧ b.StandsFor v f ∧
    (⟨u, v, .named .call name⟩ : Edge) ∈ b.graph.edges

theorem Names.of_extends (h : b.Names f x) (hgraph : b.graph.Extends b'.graph) : b'.Names f x := by
  obtain ⟨v, hv, hstands⟩ := h.declaration
  exact { h with declaration := ⟨v, hv, hstands.of_extends hgraph⟩ }

/-- A binding names a function after a change of its members. -/
theorem Names.change {change : Binding → Binding} (h : b.Names f x)
    (hchange : Binding.Keeps change) : b.Names f (change x) where
  declaration := by
    rw [hchange.declaration]
    exact h.declaration
  callable := hchange.callable x h.callable

theorem Names.of_hoist {v : VertexId} (hv : b.StandsFor v f) :
    b.Names f { Binding.declared name v with callable := some f.key } :=
  ⟨⟨v, rfl, hv⟩, rfl⟩

/-- Calls stay when the graph grows. -/
theorem HasCall.of_extends {call : Node} (h : b.HasCall call name f)
    (hgraph : b.graph.Extends b'.graph) (hedges : ∀ e ∈ b.graph.edges, e ∈ b'.graph.edges) :
    b'.HasCall call name f := by
  obtain ⟨u, v, x, hx, hcontains, hv, hedge⟩ := h
  exact ⟨u, v, x, hgraph u x hx, hcontains, hv.of_extends hgraph, hedges _ hedge⟩

end Builder

namespace Build

open Builder

variable {source name : String} {root body f : Node} {first : List Node} {host : ScopeId}

theorem aboutBinding_provides : AboutBinding host name (Provides host name f) where
  host_lt := fun _ hb => ScopeTree.lt_size_of_takesHoisted hb.takes
  of_map := by
    intro b b' change hb hgraph hframe hchange _ hlocal
    refine ⟨ScopeTree.takesHoisted_of_frame hframe hb.takes, ?_⟩
    obtain ⟨x, hx, hnames⟩ := hb.bound
    exact ⟨change x, by rw [hlocal, hx]; rfl, (hnames.change hchange).of_extends hgraph⟩

/-- **Statements that give a name no value leave it to its function.** -/
theorem upkeep_provides (hgrammar : root.Grammatical) (hbody : body ∈ root.nodes)
    (hspares : body.Spares source first name) :
    StatementUpkeep source root host (· ∈ root.nodes)
      (fun n => body.Outer n ∧ ∃ c ∈ first, n ∈ c.nodes) (fun n => True ∧ body.Standing n)
      (Provides host name f) := by
  refine aboutBinding_provides.upkeep hgrammar hbody ?_ ?_
  · intro b n v binding scopes _ hfirst _ hstanding hform _ _ _ hname _
    exact absurd hname (hspares.lexical n hstanding hfirst hform)
  · intro b n v scope binding scopes hb hfirst houter _ _ _ _ _ htaken _
    obtain ⟨x, hx, hnames⟩ := hb.bound
    -- The name stands for a function, so only a value takes it over.
    rw [hx] at htaken
    exact absurd (htaken hnames.callable) (hspares.hoisted n houter hfirst)

end Build

/-! ## Statements by themselves -/

namespace Node

/-- A node behind a piece of the text. -/
def beyond (n : Node) : Node :=
  { kind := .comment, span := ⟨n.span.stop + 1, n.span.stop + 1⟩ }

/-- There is a node that is not in the tree. -/
theorem beyond_not_mem_nodes {n : Node} (h : n.Nested) : n.beyond ∉ n.nodes := by
  intro hmem
  have hcontains := h.contains (self_mem_nodes n) hmem
  rw [Span.contains_iff] at hcontains
  exact absurd hcontains.2 (Nat.not_succ_le_self _)

theorem HasStatement.mono {root t n : Node} (h : t.HasStatement n) (ht : t ∈ root.nodes) :
    root.HasStatement n := by
  rcases h with h | ⟨e, he, hkind, hn⟩
  · exact .inl h
  · exact .inr ⟨e, mem_nodes_trans he ht, hkind, hn⟩

end Node

/-- The statements of a builder are statements of the tree, and its bindings are grounded. -/
structure Builder.Founded (root : Node) (b : Builder) : Prop where
  stands : b.graph.Stands root
  grounded : b.Grounded

/-- A builder grows into one that is founded, and loses no edge. -/
structure Builder.Furthers (root : Node) (b b' : Builder) : Prop where
  founded : b'.Founded root
  grows : b.Grows b'
  edges : ∀ e ∈ b.graph.edges, e ∈ b'.graph.edges

theorem Builder.Furthers.trans {root : Node} {b b' b'' : Builder} (h : b.Furthers root b')
    (h' : b'.Furthers root b'') : b.Furthers root b'' where
  founded := h'.founded
  grows := h.grows.trans h'.grows
  edges := fun e he => h'.edges e (h.edges e he)

namespace Trace

variable {source name : String} {root t n f : Node} {w w' : Trace} {b b' : Builder} {host : ScopeId}
  {p : ScopePlace} {owner : Option VertexId}

/-- **A history that begins at a builder** with one piece of the text in sight. It is the place of
the `host`; the places of all other scopes lie behind it. -/
def about (b : Builder) (host : ScopeId) (p : ScopePlace) : Trace where
  builder := b
  places := (List.replicate b.scopes.size ⟨.resolve, p.node.beyond⟩).set host p

theorem place_about (hlt : host < b.scopes.size) : (about b host p).places[host]? = some p := by
  simp [about, hlt]

theorem place_about_of_ne {scope : ScopeId} (hlt : scope < b.scopes.size) (hne : scope ≠ host) :
    (about b host p).places[scope]? = some ⟨.resolve, p.node.beyond⟩ := by
  rw [about, List.getElem?_set_ne hne.symm, List.getElem?_replicate_of_lt hlt]

/-- A trace about a statement is calm. -/
theorem calm_about (hb : b.Grounded) (hlt : host < b.scopes.size) (hp : p.hoists = []) :
    (about b host p).Calm source where
  fits := by simp [about]
  hoisted := by
    intro scope hscope _
    by_cases heq : scope = host
    · subst heq
      refine ⟨p, place_about hlt, fun g hg => ?_⟩
      rw [hp] at hg
      exact absurd hg List.not_mem_nil
    · exact ⟨_, place_about_of_ne hscope heq, fun g hg => absurd hg List.not_mem_nil⟩
  grounded := hb

theorem standing_about (source : String) (hb : b.Grounded) (hlt : host < b.scopes.size) (n : Node) :
    (about b host ⟨.ofStatement n.kind, n⟩).Standing source n host n where
  calm := by
    refine calm_about hb hlt ?_
    rw [Visit.ofStatement]
    split <;> rfl
  lt := hlt
  mem := self_mem_nodes n
  held := ⟨_, place_about hlt, .self rfl⟩

/-- The statements of the graph are those of the tree. -/
theorem Act.stands (h : Act source t w w') (ht : t ∈ root.nodes)
    (hstands : w.builder.graph.Stands root) : w'.builder.graph.Stands root := by
  rcases (Event.act h).vertices with heq | ⟨n, x, hkey, hmem, hown, -, heq⟩
  · exact hstands.of_vertices_eq heq
  · rw [heq]
    exact hstands.addVertex (mem_nodes_trans hmem ht) (hown.mono ht) hkey

/-- Acts further a founded builder. -/
theorem Leads.furthers (h : w.Leads source t w') (ht : t ∈ root.nodes)
    (hw : w.builder.Founded root) : w.builder.Furthers root w'.builder where
  founded := by
    refine ⟨?_, h.grows.grounded hw.grounded⟩
    obtain ⟨hdeeds, -⟩ := h
    induction hdeeds with
    | refl => exact hw.stands
    | tail _ hdeed ih => exact hdeed.act.stands ht ih
  grows := h.grows.grows
  edges := h.grows.edges

/-! ## Calls in a statement -/

/-- **The calls of a name in a statement lead to a function**, as far as they were met. Scopes from
`start` on were added since the statement is linked; on them and on the `host` the name stands for
the function, and all parts of the statement are visited in such scopes. -/
structure Serves (source : String) (root t f : Node) (name : String) (start : Nat) (host : ScopeId)
    (w : Trace) : Prop where
  calm : w.Calm source
  stands : w.builder.graph.Stands root
  start_le : start ≤ w.builder.scopes.size
  bound : ∃ x, w.builder.scopes.local? host name = some x ∧ w.builder.Names f x
  fresh : ∀ scope x, start ≤ scope → w.builder.scopes.local? scope name = some x →
    w.builder.Names f x
  inside : ∀ scope m, m ∈ t.nodes → w.Within scope m → ∃ inner outer,
    w.builder.scopes.chain scope = inner ++ host :: outer ∧ ∀ i ∈ inner, start ≤ i
  calls : ∀ entry ∈ w.log, ∀ call target, entry.leaf = .use (.call call target name) →
    w.builder.HasCall call name f

/-- A trace about a statement serves the function. -/
theorem serves_about (ht : t.Nested) (hb : b.Founded root) (hprovides : b.Provides host name f) :
    (about b host ⟨.ofStatement t.kind, t⟩).Serves source root t f name b.scopes.size host := by
  have hlt := ScopeTree.lt_size_of_takesHoisted hprovides.takes
  have hcalm := (standing_about source hb.grounded hlt t).calm
  refine ⟨hcalm, hb.stands, Nat.le_refl _, hprovides.bound, ?_, ?_,
    fun _ h => absurd h List.not_mem_nil⟩
  · intro scope x hle hx
    obtain ⟨s, hs, -⟩ := Option.bind_eq_some_iff.1 hx
    exact absurd (ScopeTree.lt_size_of_scope? hs) (Nat.not_lt.2 hle)
  · rintro scope m hm ⟨p, hp, hmp⟩
    have hscope : scope < b.scopes.size := by
      rw [show b.scopes.size = _ from hcalm.fits.symm]
      exact (List.getElem?_eq_some_iff.1 hp).1
    by_cases heq : scope = host
    · obtain ⟨outer, houter⟩ := ScopeTree.exists_chain_eq hlt
      exact ⟨[], outer, heq ▸ houter, fun _ h => absurd h List.not_mem_nil⟩
    · rw [place_about_of_ne hscope heq] at hp
      cases hp
      obtain rfl : m = t.beyond := List.mem_singleton.1 hmp
      exact absurd hm (beyond_not_mem_nodes ht)

namespace Serves

variable {start : Nat}

/-- **From a scope of the statement the name is seen as the function.** -/
theorem exists_lookup (h : w.Serves source root t f name start host) {scope : ScopeId} {m : Node}
    (hm : m ∈ t.nodes) (hin : w.Within scope m) :
    ∃ x, w.builder.scopes.lookup? scope name = some x ∧ w.builder.Names f x := by
  obtain ⟨inner, outer, hchain, hinner⟩ := h.inside scope m hm hin
  rw [ScopeTree.lookup?, hchain]
  clear hchain
  induction inner with
  | nil =>
    obtain ⟨x, hx, hnames⟩ := h.bound
    exact ⟨x, by rw [List.nil_append, List.findSome?_cons, hx], hnames⟩
  | cons i inner ih =>
    rw [List.cons_append, List.findSome?_cons]
    cases hx : w.builder.scopes.local? i name with
    | none => exact ih fun j hj => hinner j (List.mem_cons_of_mem _ hj)
    | some x => exact ⟨x, rfl, h.fresh i x (hinner i List.mem_cons_self) hx⟩

/-- After an act the name still stands for the function. -/
theorem names_of_act (hf : t.BindsOnly source f name) (hact : Act source t w w') {scope : ScopeId}
    {x : Binding} (hx : w'.builder.scopes.local? scope name = some x)
    (hold : ∀ y, w.builder.scopes.local? scope name = some y → w.builder.Names f y) :
    w'.builder.Names f x := by
  have hrebinds := (Event.act hact).rebinds scope name
  rw [hx] at hrebinds
  rcases hrebinds.of_bindsOnly hf with ⟨v, hv, rfl⟩ | ⟨y, update, hy, rfl, hupdate, -⟩
  · exact (Builder.Names.of_hoist hv).of_extends hact.grows.graph
  · exact ((hold y hy).change hupdate).of_extends hact.grows.graph

/-- **A call in a serving trace has its edge.** -/
theorem hasCall (hroot : root.WellLaid) (h : w.Serves source root t f name start host)
    {scope : ScopeId} {call target : Node} (hmem : call ∈ t.nodes) (hin : w.Within scope call)
    (hperforms : (Use.call call target name).Performs source scope w.builder b)
    (hgraph : w.builder.graph.Extends b.graph) : b.HasCall call name f := by
  obtain ⟨x, hlookup, hnames⟩ := h.exists_lookup hmem hin
  obtain ⟨v, hv, hstands⟩ := hnames.declaration
  obtain ⟨e, he, hrelation, hsource, y, hy, htarget⟩ :=
    Use.exists_edge_of_call hperforms hlookup hv hnames.callable
  obtain ⟨z, hz, hcontains⟩ := StatementGraph.exists_of_findVertex? hsource
  have htarget' : e.target = v :=
    Option.some.inj (htarget.symm.trans (h.stands.findVertex?_span hroot hy))
  refine ⟨e.source, v, z, hgraph _ z hz, hcontains, hstands.of_extends hgraph, ?_⟩
  rw [← htarget', ← hrelation]
  exact he

/-- **What one act keeps.** -/
theorem act (hroot : root.WellLaid) (ht : t ∈ root.nodes) (hf : t.BindsOnly source f name)
    (h : w.Serves source root t f name start host) (hact : Act source t w w') :
    w'.Serves source root t f name start host := by
  have hw := hact.grows
  refine ⟨hact.quiet h.calm, hact.stands ht h.stands, Nat.le_trans h.start_le hw.size_le,
    ?_, ?_, ?_, ?_⟩
  · obtain ⟨y, hy, hnames⟩ := h.bound
    obtain ⟨x, hx⟩ := ((Event.act hact).rebinds host name).exists_some hy
    refine ⟨x, hx, names_of_act hf hact hx fun z hz => ?_⟩
    rwa [← Option.some.inj (hy.symm.trans hz)]
  · exact fun scope x hle hx => names_of_act hf hact hx fun y hy => h.fresh scope y hle hy
  · rintro scope m hm ⟨p, hp, hmp⟩
    by_cases hlt : scope < w.builder.scopes.size
    · have hlt' : scope < w.places.length := by rwa [h.calm.fits]
      have hq := List.getElem?_eq_getElem hlt'
      obtain rfl := Option.some.inj ((hw.place hq).symm.trans hp)
      obtain ⟨inner, outer, hchain, hinner⟩ := h.inside scope m hm ⟨_, hq, hmp⟩
      exact ⟨inner, outer, (hw.chain hlt).trans hchain, hinner⟩
    · -- Only a block adds a scope, and its place lies in that of the scope around it.
      have hnone : w.places[scope]? = none :=
        List.getElem?_eq_none (by rw [h.calm.fits]; exact Nat.not_lt.1 hlt)
      cases hact with
      | @block parent new q scopes hfits hat hplain hadd =>
        have hend : scope < (w.places ++ [q]).length := (List.getElem?_eq_some_iff.1 hp).1
        rw [List.length_append, List.length_singleton, hfits] at hend
        obtain rfl : scope = w.builder.scopes.size :=
          Nat.le_antisymm (Nat.lt_succ_iff.1 hend) (Nat.not_lt.1 hlt)
        have hp' : (w.places ++ [q])[w.builder.scopes.size]? = some p := hp
        rw [← hfits, List.getElem?_concat_length] at hp'
        cases hp'
        obtain ⟨r, hr, hqr⟩ := hat.within
        obtain ⟨inner, outer, hchain, hinner⟩ :=
          h.inside parent m hm ⟨r, hr, mem_nodes_trans hmp hqr⟩
        have hnew := ScopeTree.chain_of_addScope hadd
        rw [(ScopeTree.frame_of_addScope hadd).2.1, hchain] at hnew
        exact ⟨_ :: inner, outer, hnew, List.forall_mem_cons.2 ⟨h.start_le, hinner⟩⟩
      | _ => exact absurd (hnone.symm.trans hp) nofun
  · have hold (entry : Visited) (hentry : entry ∈ w.log) (call target : Node)
        (hleaf : entry.leaf = .use (.call call target name)) : w'.builder.HasCall call name f :=
      (h.calls entry hentry call target hleaf).of_extends hw.graph hw.edges
    cases hact with
    | @use u scope during b hu hmem hin hopen hperforms =>
      intro entry hentry call target hleaf
      rcases List.mem_cons.1 hentry with rfl | hentry
      · cases hleaf
        exact h.hasCall hroot hmem hin hperforms hw.graph
      · exact hold entry hentry call target hleaf
    | register =>
      intro entry hentry call target hleaf
      rcases List.mem_cons.1 hentry with rfl | hentry
      · cases hleaf
      · exact hold entry hentry call target hleaf
    | _ => exact hold

/-- What holds along all acts. -/
theorem acts (hroot : root.WellLaid) (ht : t ∈ root.nodes) (hf : t.BindsOnly source f name)
    (h : w.Serves source root t f name start host)
    (hacts : Relation.ReflTransGen (Act source t) w w') :
    w'.Serves source root t f name start host := by
  induction hacts with
  | refl => exact h
  | tail _ hact ih => exact ih.act hroot ht hf hact

end Serves

end Trace

namespace Build

open Builder Trace

variable {source name : String} {root body t f : Node} {b b' : Builder} {host : ScopeId}
  {owner : Option VertexId}

/-- **Linking a statement is a history of its own**, which meets the leaves of the statement. -/
theorem exists_of_statement (hroot : root.Nested) (hgrammar : root.Grammatical)
    (ht : t ∈ root.nodes) (hb : b.Founded root) (hlt : host < b.scopes.size)
    (hrun : statement source t host owner b = .ok ((), b')) :
    ∃ w, w.builder = b' ∧ (about b host ⟨.ofStatement t.kind, t⟩).Leads source t w ∧
      w.Came Anywhere (statementLeaves source t) := by
  have hlinks := links_statement (hroot.of_mem ht) (hgrammar.of_mem ht) t _ host owner
    (standing_about source hb.grounded hlt t)
  obtain ⟨w, hw, hleads, hcame, -⟩ := hlinks () b' hrun
  exact ⟨w, hw, hleads, hcame⟩

/-- Linking a statement furthers a builder. -/
theorem furthers_statement (hroot : root.Nested) (hgrammar : root.Grammatical) (ht : t ∈ root.nodes)
    (hb : b.Founded root) (hlt : host < b.scopes.size)
    (hrun : statement source t host owner b = .ok ((), b')) : b.Furthers root b' := by
  obtain ⟨w, rfl, hleads, -⟩ := exists_of_statement hroot hgrammar ht hb hlt hrun
  exact hleads.furthers ht hb

theorem furthers_statements (hroot : root.Nested) (hgrammar : root.Grammatical) {cs : List Node}
    (hcs : ∀ c ∈ cs, c ∈ root.nodes) (hb : b.Founded root) (hlt : host < b.scopes.size)
    (hrun : (cs.forM fun c => statement source c host owner) b = .ok ((), b')) :
    b.Furthers root b' := by
  induction cs generalizing b with
  | nil =>
    cases hrun
    exact ⟨hb, .refl _, fun _ he => he⟩
  | cons c rest ih =>
    rw [List.forM_eq_forM, List.forM_cons] at hrun
    obtain ⟨_, b₁, hstatement, hrun⟩ := exists_of_bind_ok hrun
    have h₁ := furthers_statement hroot hgrammar (hcs c List.mem_cons_self) hb hlt hstatement
    exact h₁.trans (ih (fun d hd => hcs d (List.mem_cons_of_mem _ hd)) h₁.founded
      (Nat.lt_of_lt_of_le hlt h₁.grows.scopes) hrun)

/-- **Calls in a statement lead to the function** that their name stands for when the statement
begins, if nothing else in the statement binds the name. -/
theorem hasCall_statement (hroot : root.WellLaid) (hgrammar : root.Grammatical)
    (ht : t ∈ root.nodes) (hf : t.BindsOnly source f name) (hb : b.Founded root)
    (hprovides : b.Provides host name f) (hrun : statement source t host owner b = .ok ((), b'))
    {call target : Node} (hcall : .use (.call call target name) ∈ statementLeaves source t) :
    b'.HasCall call name f := by
  have hlt := ScopeTree.lt_size_of_takesHoisted hprovides.takes
  obtain ⟨w, rfl, hleads, hcame⟩ :=
    exists_of_statement hroot.laid.nested hgrammar ht hb hlt hrun
  obtain ⟨entry, hentry, hleaf, -⟩ := hcame _ hcall
  have hserves :=
    (serves_about (hroot.laid.nested.of_mem ht) hb hprovides).acts hroot ht hf hleads.acts
  exact hserves.calls entry hentry call target hleaf

/-- **Calls in a body lead to the function** that their name stands for when linking begins, if they
come before all statements that take the name over. -/
theorem hasCall_linkBody (hroot : root.WellLaid) (hgrammar : root.Grammatical)
    (hbody : body ∈ root.nodes) (hb : b.Founded root) (hprovides : b.Provides host name f)
    (hrun : linkBody source body host owner b = .ok ((), b')) {first rest : List Node}
    (hsplit : body.orderedChildren source = first ++ t :: rest)
    (hspares : body.Spares source first name) (hf : t.BindsOnly source f name) {call target : Node}
    (hcall : .use (.call call target name) ∈ statementLeaves source t) :
    b'.HasCall call name f := by
  have htop (c : Node) (hc : c ∈ first ++ t :: rest) : c ∈ body.namedChildren := by
    rw [← hsplit] at hc
    exact mem_namedChildren_of_orderedChildren hc
  have hmem (c : Node) (hc : c ∈ first ++ t :: rest) : c ∈ root.nodes :=
    mem_nodes_trans (child_mem_nodes (mem_children_of_namedChildren (htop c hc))) hbody
  rw [linkBody, hsplit, List.forM_eq_forM, List.forM_append] at hrun
  obtain ⟨_, b₁, hfirst, hrun⟩ := exists_of_bind_ok hrun
  rw [List.forM_cons] at hrun
  obtain ⟨_, b₂, hstatement, hrest⟩ := exists_of_bind_ok hrun
  have hlt := ScopeTree.lt_size_of_takesHoisted hprovides.takes
  -- The statements before leave the name to the function.
  have h₁ : b.Furthers root b₁ := furthers_statements hroot.laid.nested hgrammar
    (fun c hc => hmem c (List.mem_append_left _ hc)) hb hlt hfirst
  have hprovides₁ : b₁.Provides host name f := by
    have hkeeps : Keeps (Provides host name f) b (first.forM fun c => statement source c host owner)
        Anything := by
      refine .forM hprovides fun c hc b' hb' => ?_
      have hc' := htop c (List.mem_append_left _ hc)
      exact ((upkeep_provides hgrammar hbody hspares).nest.statement c
        ⟨.top hc', c, hc, self_mem_nodes c⟩ b' host owner hb'.holds
        fun _ => ⟨trivial, .top hc'⟩).anything
    exact (hkeeps () b₁ hfirst).1.holds
  -- The call is related in its own statement, and stays so.
  have htmem : t ∈ first ++ t :: rest := List.mem_append_right _ List.mem_cons_self
  have h₂ : b₂.HasCall call name f :=
    hasCall_statement hroot hgrammar (hmem t htmem) hf h₁.founded hprovides₁ hstatement hcall
  have hlt₁ := Nat.lt_of_lt_of_le hlt h₁.grows.scopes
  have hfurthers₂ := furthers_statement hroot.laid.nested hgrammar (hmem t htmem) h₁.founded hlt₁
    hstatement
  have h₃ : b₂.Furthers root b' := furthers_statements hroot.laid.nested hgrammar
    (fun c hc => hmem c (List.mem_append_right _ (List.mem_cons_of_mem _ hc))) hfurthers₂.founded
    (Nat.lt_of_lt_of_le hlt₁ hfurthers₂.grows.scopes) hrest
  exact h₂.of_extends h₃.grows.graph h₃.edges

/-- Hoisting furthers a builder. -/
theorem furthers_hoistBody (hbody : body ∈ root.nodes) (hb : b.Founded root)
    (htakes : b.scopes.takesHoisted host) {topLevel : Bool}
    (hrun : hoistBody source body host topLevel b = .ok ((), b')) : b.Furthers root b' := by
  have hlt := ScopeTree.lt_size_of_takesHoisted htakes
  have hhoists : Build.Hoists source body (about b host ⟨.file, body⟩) host
      (hoistBody source body host topLevel) body.bodyFunctions := by
    refine hoists_hoistBody topLevel fun c hc => ⟨child_mem_nodes hc, ?_, htakes⟩
    have hholds : ScopePlace.Holds ⟨.file, body⟩ c := .file rfl hc
    exact ⟨_, place_about hlt, hholds.along⟩
  obtain ⟨w, rfl, hleads, -⟩ := hhoists () b' hrun
  exact hleads.furthers hbody hb

end Build

namespace Trace

variable {path : Path} {ambient : List String} {source name : String} {root body f : Node}
  {w : Trace} {host : ScopeId} {owner : Option VertexId} {topLevel : Bool}
  {before after : List HoistedName}

/-- **A function wins its name unless it is taken.** Let `f` be the last function that a body
declares by a name, and `after` the other declarations of the name that are hoisted later. If all of
them are `var` names without a value, the name is bound to `f` after hoisting, and when the body is
linked the calls of the name get edges to `f`, up to the first statement that gives the name a
value. If one of them is not, the name is bound to the last of them. -/
theorem Reached.function_wins_unless_taken (hroot : root.WellLaid) (hgrammar : root.Grammatical)
    (hreached : Reached path ambient source root w) (hvalid : w.builder.Valid root)
    (hbody : body ∈ root.nodes) (hhost : w.builder.scopes.takesHoisted host)
    (howner : ∀ v, owner = some v → ∀ c ∈ body.children, w.builder.Owns root v c)
    (hnames : (body.bodyHoistedNames source topLevel).filter (·.name = name) =
      before ++ ⟨f, name, .function⟩ :: after)
    (hlast : ∀ g ∈ after, g.isFunction = false) :
    ∃ b b', Build.hoistBody source body host topLevel w.builder = .ok ((), b) ∧
      Build.linkBody source body host owner b = .ok ((), b') ∧
      ((∀ g ∈ after, g.yields) →
        (∃ v, b.StandsFor v f ∧ b.scopes.local? host name =
          some { Binding.declared name v with callable := some f.key }) ∧
        ∀ first t rest call target, body.orderedChildren source = first ++ t :: rest →
          body.Spares source first name → t.BindsOnly source f name →
          .use (.call call target name) ∈ statementLeaves source t → b'.HasCall call name f) ∧
      ((∃ g ∈ after, g.yields = false) → ∃ g v, after.getLast? = some g ∧ b.StandsFor v g.node ∧
        b.scopes.local? host name = some (g.binding v)) := by
  have hnested := hroot.laid.nested
  have hlt := ScopeTree.lt_size_of_takesHoisted hhost
  obtain ⟨b, hhoist, hhoists⟩ := Build.hoistsAs_hoistBody source body topLevel hhost
  have hfurthers := Build.furthers_hoistBody hbody ⟨hreached.stands, hreached.grounded⟩ hhost hhoist
  -- Linking the body does not fail either.
  have hreaches : w.builder.Reaches root (fun _ => True) b := by
    have hout : Build.Outcome root (fun _ => True) w.builder
        (Build.hoistBody source body host topLevel) _ :=
      Build.outcome_hoistBody hvalid source hbody hlt topLevel fun _ _ _ _ => trivial
    rw [Build.Outcome, hhoist] at hout
    exact hout.1
  obtain ⟨_, b', hlink, -⟩ : ∃ a b', Build.linkBody source body host owner b = .ok (a, b') ∧
      b.Reaches root (fun _ => True) b' ∧ Build.Anything a b' := by
    refine Build.Outcome.exists_ok (Build.outcome_linkBody hreaches.valid source hbody
      (Nat.lt_of_lt_of_le hlt hreaches.grows.scopes) (fun v hv c hc => ?_)
      fun _ _ _ _ => trivial) hnested
    exact (howner v hv c hc).mono hreaches.grows
  refine ⟨b, b', hhoist, hlink, fun hyields => ?_, fun htaken => ?_⟩
  · obtain ⟨v, hv, hbound⟩ := hhoists.heldBy_function hnames rfl hyields
    refine ⟨⟨v, hv, hbound⟩, fun first t rest call target hsplit hspares hf hcall => ?_⟩
    have hprovides : b.Provides host name f := ⟨hhoists.takes hhost, _, hbound, .of_hoist hv⟩
    exact Build.hasCall_linkBody hroot hgrammar hbody hfurthers.founded hprovides hlink hsplit
      hspares hf hcall
  · have hheld := hhoists.heldBy_last hnames hlast htaken
    cases hg : after.getLast? with
    | none =>
      obtain ⟨g, hmem, -⟩ := htaken
      rw [List.getLast?_eq_none_iff.1 hg] at hmem
      cases hmem
    | some g =>
      rw [hg] at hheld
      obtain ⟨v, hv, hbound⟩ := hheld
      exact ⟨g, v, rfl, hv, hbound⟩

end Trace

/-! In `var f; f(); var f = 1; function f() {} var f;` the name is left to the function when hoisting
ends, and the call stands before the statement that gives the name a value. -/

/-- The text `var f; f(); var f = 1; function f() {} var f;`. -/
def sharedNameText : String :=
  "var f; f(); var f = 1; function f() {} var f;"

/-- The name `f` at some byte, as the child under a field. -/
def sharedName (start : Nat) (field : Field) : Node :=
  .part field (.of .identifier start (start + 1))

/-- A call `f()` that starts at some byte. -/
def sharedCall (start : Nat) : Node :=
  .of .callExpression start (start + 3)
    [sharedName start .function,
     .part .arguments (.of (.other "arguments") (start + 1) (start + 3)
       [.token "(" (start + 1) (start + 2), .token ")" (start + 2) (start + 3)])]

/-- A statement `f();` that starts at some byte. -/
def sharedStatement (start : Nat) : Node :=
  .of .expressionStatement start (start + 4) [sharedCall start, .token ";" (start + 3) (start + 4)]

/-- A statement `var f;` that starts at some byte. -/
def bareVar (start : Nat) : Node :=
  .of .variableDeclaration start (start + 6)
    [.token "var" start (start + 3),
     .of .variableDeclarator (start + 4) (start + 5) [sharedName (start + 4) .name],
     .token ";" (start + 5) (start + 6)]

/-- A statement `var f = 1;` that starts at some byte. -/
def valuedVar (start : Nat) : Node :=
  .of .variableDeclaration start (start + 10)
    [.token "var" start (start + 3),
     .of .variableDeclarator (start + 4) (start + 9)
       [sharedName (start + 4) .name, .token "=" (start + 6) (start + 7),
        .part .value (.of .numberLiteral (start + 8) (start + 9))],
     .token ";" (start + 9) (start + 10)]

/-- A declaration `function f() {}` that starts at some byte. -/
def sharedFunction (start : Nat) : Node :=
  .of .functionDeclaration start (start + 15)
    [.keyword .functionLiteral start (start + 8), sharedName (start + 9) .name,
     .part .parameters (.of .formalParameters (start + 10) (start + 12)
       [.token "(" (start + 10) (start + 11), .token ")" (start + 11) (start + 12)]),
     .part .body (.of .statementBlock (start + 13) (start + 15)
       [.token "\x7b" (start + 13) (start + 14), .token "\x7d" (start + 14) (start + 15)])]

/-- The tree of the text. -/
def sharedNameFile : Node :=
  .of (.other "program") 0 45
    [bareVar 0, sharedStatement 7, valuedVar 12, sharedFunction 23, bareVar 39]

/-- The name is bound to the function when hoisting ends, and the call leads to it. -/
theorem function_wins_sharedNameFile : ∃ b b',
    Build.hoistBody sharedNameText sharedNameFile ScopeTree.globalId true (.start ⟨"a.js"⟩ []) =
      .ok ((), b) ∧
    Build.linkBody sharedNameText sharedNameFile ScopeTree.globalId none b = .ok ((), b') ∧
    (∃ v, b.StandsFor v (sharedFunction 23) ∧ b.scopes.local? ScopeTree.globalId "f" =
      some { Binding.declared "f" v with callable := some (sharedFunction 23).key }) ∧
    b'.HasCall (sharedCall 7) "f" (sharedFunction 23) := by
  have hroot : sharedNameFile.WellLaid ∧ sharedNameFile.Grammatical := by decide +kernel
  have hnames : (sharedNameFile.bodyHoistedNames sharedNameText true).filter (·.name = "f") =
      [⟨bareVar 0, "f", .var false⟩, ⟨valuedVar 12, "f", .var true⟩] ++
        ⟨sharedFunction 23, "f", .function⟩ :: [⟨bareVar 39, "f", .var false⟩] := by
    have htext : (∀ start ∈ [4, 16, 43], patternNames sharedNameText (sharedName start .name) =
        ["f"]) ∧ (sharedFunction 23).name? sharedNameText = some "f" := by decide +kernel
    have hhere : (bareVar 0).hoistsHere sharedNameText true ∧ (bareVar 39).hoistsHere sharedNameText true ∧
        (valuedVar 12).hoistsHere sharedNameText true ∧
        (sharedFunction 23).hoistsHere sharedNameText true ∧
        (sharedStatement 7).hoistsHere sharedNameText true = false := by decide +kernel
    have hbare (start : Nat) (h : start + 4 ∈ [4, 16, 43]) :
        (bareVar start).ownHoistedNames sharedNameText = [⟨bareVar start, "f", .var false⟩] := by
      simp [ownHoistedNames, bareVar, Kind.form?, declarators, namedChildren, child?, sharedName, of,
        part, token, keyword, ← htext.1 (start + 4) h]
    have hvalued : (valuedVar 12).ownHoistedNames sharedNameText =
        [⟨valuedVar 12, "f", .var true⟩] := by
      simp [ownHoistedNames, valuedVar, Kind.form?, declarators, namedChildren, child?, sharedName, of,
        part, token, keyword, ← htext.1 16 (by decide)]
    have hvisits : sharedNameFile.bodyVisits true = [(bareVar 0, true), (sharedStatement 7, true),
        (valuedVar 12, true), (sharedFunction 23, true), (bareVar 39, true)] := by cbv
    have hfunction : (sharedFunction 23).ownHoistedNames sharedNameText =
        [⟨sharedFunction 23, "f", .function⟩] := by
      rw [ownHoistedNames, htext.2]
      rfl
    simp [bodyHoistedNames, hvisits, hhere, hbare 0, hbare 39, hvalued, hfunction]
  have hsplit : sharedNameFile.orderedChildren sharedNameText =
      [bareVar 0] ++ sharedStatement 7 :: [valuedVar 12, sharedFunction 23, bareVar 39] :=
    inSourceOrder_eq_self _ (by decide)
  have hcall : .use (.call (sharedCall 7) (sharedName 7 .function) "f") ∈
      statementLeaves sharedNameText (sharedStatement 7) := by
    have hcalls : (sharedStatement 7).Calls sharedNameText (sharedCall 7) (sharedName 7 .function) "f" :=
      ⟨rfl, List.mem_cons_self, rfl, rfl, rfl, by decide +kernel⟩
    rw [statementLeaves]
    exact hcalls.mem_leaves
  have hspares : sharedNameFile.Spares sharedNameText [bareVar 0] "f" := by
    have hbare : ∀ n ∈ (bareVar 0).nodes, (n.kind.form?.any Form.isHoisted = false →
          "f" ∉ n.statementNames sharedNameText) ∧ ∀ d ∈ n.declarators,
            (d.child? .value).isNone ∧ (d.child? .name).all (·.kind = .identifier) := by
      decide +kernel
    refine ⟨?_, ?_⟩
    · rintro n - ⟨c, hc, hn⟩ ⟨-, d, hd, pattern, hpattern, -, hvalue⟩
      rw [List.mem_singleton.1 hc] at hn
      obtain ⟨hnone, hkind⟩ := (hbare n hn).2 d hd
      rw [hpattern] at hkind
      rcases hvalue with hvalue | hvalue
      · rw [Option.isNone_iff_eq_none.1 hnone] at hvalue
        cases hvalue
      · exact hvalue (by simpa using hkind)
    · rintro n - ⟨c, hc, hn⟩
      rw [List.mem_singleton.1 hc] at hn
      exact (hbare n hn).1
  have hbinds : (sharedStatement 7).BindsOnly sharedNameText (sharedFunction 23) "f" := by
    have hstatement : ∀ m ∈ (sharedStatement 7).nodes, m.kind.form? ≠ some .functionDecl ∧
        "f" ∉ m.otherNames sharedNameText := by decide +kernel
    exact ⟨fun m hm hform => absurd hform (hstatement m hm).1, fun m hm => (hstatement m hm).2,
      by decide⟩
  have hreached : Trace.Reached ⟨"a.js"⟩ [] sharedNameText sharedNameFile
      (.start ⟨"a.js"⟩ [] sharedNameFile) := .refl
  have howner (v : VertexId) (hv : none = some v) (c : Node) (_ : c ∈ sharedNameFile.children) :
      (Builder.start ⟨"a.js"⟩ []).Owns sharedNameFile v c := by cases hv
  obtain ⟨b, b', hhoist, hlink, hwins, -⟩ := hreached.function_wins_unless_taken hroot.1 hroot.2
    (Builder.valid_start _ _ _) (self_mem_nodes _)
    (ScopeTree.wellFormed_ofAmbient []).takesHoisted_globalId
    howner hnames (by simp [HoistedName.isFunction])
  obtain ⟨hbound, hcalls⟩ := hwins (by simp [HoistedName.yields])
  exact ⟨b, b', hhoist, hlink, hbound, hcalls _ _ _ _ _ hsplit hspares hbinds hcall⟩

/-! In `f(); function f() {} var f = 1;` the `var` declaration comes last and takes the name over,
so that the call is not related to the function. -/

/-- The tree of `f(); function f() {} var f = 1;`. -/
def takenNameFile : Node :=
  .of (.other "program") 0 31 [sharedStatement 0, sharedFunction 5, valuedVar 21]

/-- The name is bound to the `var` declaration when hoisting ends, and the call leads there. -/
theorem takenName_unrelated : ∃ b x graph scopes,
    Build.hoistBody "f(); function f() {} var f = 1;" takenNameFile ScopeTree.globalId true
      (.start ⟨"a.js"⟩ []) = .ok ((), b) ∧
    b.scopes.local? ScopeTree.globalId "f" = some x ∧ x.callable = none ∧
    StatementGraph.build? ⟨"a.js"⟩ "f(); function f() {} var f = 1;" takenNameFile [] =
      .ok (graph, scopes) ∧
    graph.vertexByKey? (sharedFunction 5).key = some 0 ∧
    graph.vertexByKey? (valuedVar 21).key = some 1 ∧ x.declaration = some 1 ∧
    graph.vertexByKey? (sharedStatement 0).key = some 2 ∧ graph.edges = #[⟨2, 1, .named .read "f"⟩] := by
  obtain ⟨⟨⟨⟩, b⟩, hhoist, hbound⟩ := exists_ok_of_decide
    (x := Build.hoistBody "f(); function f() {} var f = 1;" takenNameFile ScopeTree.globalId true
      (.start ⟨"a.js"⟩ []))
    (p := fun r => (r.2.scopes.local? ScopeTree.globalId "f").any fun x =>
      x.callable = none ∧ x.declaration = some 1) (by decide +kernel)
  obtain ⟨x, hx, hplain⟩ := (Option.any_eq_true _ _).1 hbound
  obtain ⟨hplain, hdeclaration⟩ := of_decide_eq_true hplain
  obtain ⟨⟨graph, scopes⟩, hbuild, hfunction, hvar, hcall, hedges⟩ := exists_ok_of_decide
    (x := StatementGraph.build? ⟨"a.js"⟩ "f(); function f() {} var f = 1;" takenNameFile [])
    (p := fun r => r.1.vertexByKey? (sharedFunction 5).key = some 0 ∧
      r.1.vertexByKey? (valuedVar 21).key = some 1 ∧
      r.1.vertexByKey? (sharedStatement 0).key = some 2 ∧
      r.1.edges = #[⟨2, 1, .named .read "f"⟩]) (by decide +kernel)
  exact ⟨b, x, graph, scopes, hhoist, hx, hplain, hbuild, hfunction, hvar, hdeclaration, hcall, hedges⟩

end DeadCode
