import DeadCode.Proofs.Resolution.Upkeep.Statement

/-! # Invariants about one binding

Some invariants are about what one name is bound to on one scope. Statements touch the binding in
two ways only: they store in it, and they declare the name on the scope anew. -/

namespace DeadCode

theorem Binding.callable_updateAt_guarded {update : Binding → Binding} {x : Binding}
    (hx : x.declaration = none) (segments : List String) :
    (updateAt (fun binding => if binding.declaration.isSome then update binding else binding)
      segments x).callable = x.callable := by
  induction segments with
  | nil => simp [updateAt, hx]
  | cons segment rest ih =>
    rw [updateAt]
    split
    · exact ih
    · rfl

namespace Build

open Builder Node

/-- **An invariant about what a name is bound to on a scope**, the `host`: it holds in larger graphs
and beside more scopes, and whatever is stored in the binding. What no statement declares does not
become callable that way. -/
structure AboutBinding (host : ScopeId) (name : String) (inv : Builder → Prop) : Prop where
  host_lt : ∀ b, inv b → host < b.scopes.size
  of_map : ∀ (b b' : Builder) (change : Binding → Binding), inv b → b.graph.Extends b'.graph →
    b.scopes.frame <+: b'.scopes.frame → Binding.Keeps change →
    (∀ x, x.declaration = none → (change x).callable = x.callable) →
    b'.scopes.local? host name = (b.scopes.local? host name).map change → inv b'

namespace AboutBinding

variable {source name : String} {host : ScopeId} {inv : Builder → Prop} {b b' : Builder}

theorem of_local (h : AboutBinding host name inv) (hb : inv b) (hgraph : b.graph.Extends b'.graph)
    (hframe : b.scopes.frame <+: b'.scopes.frame)
    (hlocal : b'.scopes.local? host name = b.scopes.local? host name) : inv b' :=
  h.of_map b b' id hb hgraph hframe .id (fun _ _ => rfl) (by rw [hlocal, Option.map_id, id])

theorem of_extends (h : AboutBinding host name inv) (hb : inv b) {graph : StatementGraph}
    (hgraph : b.graph.Extends graph) : inv { b with graph } :=
  h.of_local hb hgraph (List.prefix_refl _) rfl

/-- A name is declared: if it is this one on the host, the invariant holds by assumption. -/
theorem declare (h : AboutBinding host name inv) (hb : inv b) {scope target : ScopeId}
    {binding : Binding} {hoist : Hoist} {scopes : ScopeTree}
    (hdeclare : b.scopes.declare scope binding hoist = .ok (target, scopes))
    (hhit : target = host → binding.name = name → inv { b with scopes }) :
    inv { b with scopes } := by
  by_cases heq : target = host ∧ binding.name = name
  · exact hhit heq.1 heq.2
  · refine h.of_local hb (.refl _) ?_ ?_
    · exact ScopeTree.prefix_of_frame_eq (ScopeTree.frame_of_declare hdeclare)
    · rw [ScopeTree.local?_of_declare hdeclare, if_neg]
      rintro ⟨htarget, hname⟩
      exact heq ⟨htarget.symm, hname.symm⟩

/-- **Statements keep an invariant about a binding**, if those of `top` that declare the name on the
host do: at the top of the body when they are linked, or hoisted from anywhere outside of
callables. -/
theorem upkeep (h : AboutBinding host name inv) {root body : Node} {top : List Node}
    {linking : Prop} (hgrammar : root.Grammatical) (hbody : body ∈ root.nodes)
    (hlexical : ∀ (b : Builder) n v binding scopes, inv b → (∃ c ∈ top, n ∈ c.nodes) →
      linking → body.Standing n → n.kind.form?.any Form.isHoisted = false → b.StandsFor v n →
      binding.declaration = some v → binding.name = name → name ∈ n.statementNames source →
      b.scopes.declare host binding .lexical = .ok (host, scopes) → inv { b with scopes })
    (hlinked : ∀ (b : Builder) n v scope binding scopes, inv b → (∃ c ∈ top, n ∈ c.nodes) →
      body.Outer n → n.kind.form?.any Form.isHoisted → b.StandsFor v n →
      binding.declaration = some v → binding.name = name → name ∈ n.statementNames source →
      ((b.scopes.local? host name).any (·.callable.isSome) → n.Initialises source name) →
      b.scopes.declare scope binding .hoisted = .ok (host, scopes) → inv { b with scopes }) :
    StatementUpkeep source root host (· ∈ root.nodes)
      (fun n => body.Outer n ∧ ∃ c ∈ top, n ∈ c.nodes) (fun n => linking ∧ body.Standing n)
      inv where
  child := fun n c hn hc => mem_nodes_trans (child_mem_nodes hc) hn
  noted := by
    intro b b' hb hgraph hscopes _
    refine h.of_local hb ?_ ?_ ?_
    · rw [hgraph]
      exact .refl _
    · exact ScopeTree.prefix_of_frame_eq (congrArg ScopeTree.frame hscopes)
    · rw [hscopes]
  relate := fun b n u v relation id graph hb _ _ _ _ hconnect =>
    h.of_extends hb (StatementGraph.extends_of_connect hconnect)
  method := fun b n x hb _ _ _ _ => h.of_extends hb (b.graph.extends_addVertex x)
  own := fun b u v id graph hb hconnect =>
    h.of_extends hb (StatementGraph.extends_of_connect hconnect)
  register := fun b n scope owner hb _ => h.of_local hb (.refl _) (List.prefix_refl _) rfl
  store := by
    intro b scope chain update hb hupdate
    have hframe : b.scopes.frame <+: (b.scopes.updateChain scope chain fun binding =>
        if binding.declaration.isSome then update binding else binding).frame :=
      ScopeTree.prefix_of_frame_eq (ScopeTree.frame_updateChain ..)
    rcases ScopeTree.local?_updateChain _ scope chain host name
      with hlocal | ⟨-, rest, hlocal⟩
    · exact h.of_local hb (.refl _) hframe hlocal
    · exact h.of_map _ _ _ hb (.refl _) hframe (hupdate.guarded.updateAt rest)
        (fun x hx => Binding.callable_updateAt_guarded hx rest) hlocal
  grammatical := hgrammar
  mem_nodes := fun n hn => mem_nodes_trans hn.1.mem_nodes hbody
  region_of_within := fun n hn => mem_nodes_trans hn.1.mem_nodes hbody
  nested := by
    rintro n c ⟨houter, t, ht, hn⟩ hkind hc
    have hcallable :=
      Kind.isCallable_of_holdsStatements (Kind.holdsStatements_of_holdsDirectly hkind)
    exact ⟨houter.child hcallable hc, t, ht, mem_nodes_trans (child_mem_nodes hc) hn⟩
  carried := by
    rintro n c ⟨houter, t, ht, hn⟩ hkind hc
    have hmem := mem_children_of_child? hc
    exact ⟨houter.child (by rw [hkind]; rfl) hmem, t, ht, mem_nodes_trans (child_mem_nodes hmem) hn⟩
  standing_exported := fun n c hn hkind hc => ⟨hn.1, .exported hn.2 hkind hc⟩
  standing_labeled := fun n c hn hkind hc => ⟨hn.1, .labeled hn.2 hkind hc⟩
  vertex := fun b n x hb _ _ _ _ => h.of_extends hb (b.graph.extends_addVertex x)
  exported := fun b n u v _ id graph hb _ _ _ hconnect =>
    h.of_extends hb (StatementGraph.extends_of_connect hconnect)
  host_lt := h.host_lt
  scope := by
    intro b parent kind scope scopes hb hadd
    refine h.of_local hb (.refl _) ?_ (ScopeTree.local?_of_addScope hadd _ _)
    rw [(ScopeTree.frame_of_addScope hadd).2.2]
    exact List.prefix_append _ _
  inner := by
    intro b scope binding target scopes hb hscope hdeclare
    refine h.declare hb hdeclare fun htarget => absurd ?_ hscope
    rw [← htarget]
    exact Except.ok.inj (ScopeTree.landing_of_declare hdeclare)
  lexical := by
    rintro b n v binding target scopes hb ⟨-, htop⟩ ⟨hlinking, hstanding⟩ hform hv hdeclaration
      hname hdeclare
    refine h.declare hb hdeclare fun htarget heq => ?_
    subst htarget heq
    exact hlexical b n v binding scopes hb htop hlinking hstanding hform hv hdeclaration rfl hname
      hdeclare
  linked := by
    rintro b n v scope binding target scopes hb ⟨houter, htop⟩ hform hv hdeclaration hname htaken
      hdeclare
    refine h.declare hb hdeclare fun htarget heq => ?_
    subst htarget heq
    exact hlinked b n v scope binding scopes hb htop houter hform hv hdeclaration rfl hname htaken
      hdeclare

end AboutBinding

end Build

end DeadCode
