import DeadCode.Proofs.Resolution.History

/-! # What names stand for in a history

An event touches the binding of a name on a scope in one of three ways: it hoists a function,
declares some other name, or stores what is assigned. All that is known of bindings follows from
this. -/

namespace DeadCode

open Node

namespace Trace

/-! ## What events do to bindings -/

/-- **What an event can do to the binding of a name on a scope.** -/
inductive Rebinds (source : String) (root : Node) (w : Trace) (scope : ScopeId) (name : String) :
    Option Binding → Prop where
  | keep : Rebinds source root w scope name (w.builder.scopes.local? scope name)
  | hoist {f : Node} {v : VertexId} (hmem : f ∈ root.nodes)
      (hform : f.kind.form? = some .functionDecl) (hname : f.name? source = some name)
      (hv : w.builder.StandsFor v f) :
      Rebinds source root w scope name (some { Binding.declared name v with callable := some f.key })
  | declare {binding : Binding} {hoist : Hoist} {origin : ScopeId}
      (hbinds : w.Binds source root origin binding hoist) (hname : binding.name = name)
      (hland : hoist = .lexical → origin = scope) :
      Rebinds source root w scope name (some binding)
  | store {n left : Node} {update : Binding → Binding} (hn : n ∈ root.nodes)
      (hkind : n.kind = .assignmentExpression) (hleft : n.child? .left = some left)
      (hchain : (left.memberChain? source).bind List.head? = some name)
      (hmet : w.Came Anywhere (targetLeaves source left)) (hupdate : Binding.Keeps update) :
      Rebinds source root w scope name ((w.builder.scopes.local? scope name).map update)

section Events

variable {source : String} {root : Node} {w w' : Trace}

/-- What is bound stays bound. -/
theorem Rebinds.exists_some {scope : ScopeId} {name : String} {new : Option Binding} {y : Binding}
    (h : Rebinds source root w scope name new) (hy : w.builder.scopes.local? scope name = some y) :
    ∃ x, new = some x := by
  cases h with
  | keep => exact ⟨y, hy⟩
  | hoist => exact ⟨_, rfl⟩
  | declare => exact ⟨_, rfl⟩
  | store =>
    rw [hy]
    exact ⟨_, rfl⟩

/-- **What every event can do to a binding.** -/
theorem Event.rebinds (h : Event source root w w') (scope : ScopeId) (name : String) :
    Rebinds source root w scope name (w'.builder.scopes.local? scope name) := by
  have hkeep (heq : w'.builder.scopes.local? scope name = w.builder.scopes.local? scope name) :
      Rebinds source root w scope name (w'.builder.scopes.local? scope name) := by
    rw [heq]
    exact .keep
  cases h with
  | enter _ _ _ hadd => exact hkeep (ScopeTree.local?_of_addScope hadd scope name)
  | act hact =>
    cases hact with
    | use hu _ _ _ hperforms => exact hkeep (by rw [(hperforms.relates hu).scopes])
    | block _ _ _ hadd => exact hkeep (ScopeTree.local?_of_addScope hadd scope name)
    | @hoist f name' v origin target scopes hmem hform hname hv hdeclare =>
      have hlocal := ScopeTree.local?_of_declare hdeclare scope name
      change scopes.local? scope name = _ at hlocal
      split at hlocal
      · next heq =>
        obtain ⟨-, rfl⟩ := heq
        change Rebinds source root w scope name (scopes.local? scope name)
        rw [hlocal]
        exact .hoist hmem hform hname hv
      · exact hkeep hlocal
    | @declare binding hoist origin target scopes hbinds hdeclare =>
      have hlocal := ScopeTree.local?_of_declare hdeclare scope name
      split at hlocal
      · next heq =>
        obtain ⟨rfl, rfl⟩ := heq
        change Rebinds source root w scope binding.name (scopes.local? scope binding.name)
        rw [hlocal]
        refine .declare hbinds rfl fun hlexical => ?_
        have hland := ScopeTree.landing_of_declare hdeclare
        rw [hlexical] at hland
        cases hland
        rfl
      · exact hkeep hlocal
    | @store n left chain origin update hn hkind hleft hchain hmet hupdate =>
      rcases ScopeTree.local?_updateChain update origin chain scope name with
        heq | ⟨hhead, rest, heq⟩
      · exact hkeep heq
      · change Rebinds source root w scope name
          ((w.builder.scopes.updateChain origin chain update).local? scope name)
        rw [heq]
        exact .store hn hkind hleft (hchain.trans hhead) hmet (hupdate.updateAt rest)
    | note _ hscopes => exact hkeep (by rw [hscopes])
    | _ => exact hkeep rfl

/-- A function that an event hoists is bound by it. -/
theorem Event.hoisted (h : Event source root w w') {f : Node} {scope : ScopeId} {name : String}
    (hname : f.name? source = some name) (hf : (f, scope) ∈ w'.hoisted) :
    (f, scope) ∈ w.hoisted ∨ ∃ v, w.builder.StandsFor v f ∧
      w'.builder.scopes.local? scope name =
        some { Binding.declared name v with callable := some f.key } := by
  cases h with
  | enter => exact .inl hf
  | act hact =>
    cases hact with
    | @hoist _ name' v origin target scopes _ _ hname' hv hdeclare =>
      rcases List.mem_cons.1 hf with heq | hf
      · cases heq
        obtain rfl : name' = name := Option.some.inj (hname'.symm.trans hname)
        refine .inr ⟨v, hv, ?_⟩
        rw [ScopeTree.local?_of_declare hdeclare, if_pos ⟨rfl, rfl⟩]
      · exact .inl hf
    | _ => exact .inl hf

end Events

/-! ## Declarations in their places -/

/-- A declaration is bound on the scope where it belongs: it stands in the place of the scope, or
the place is a callable with its header in it. -/
def Houses (root : Node) (w : Trace) (scope : ScopeId) (v : VertexId) : Prop :=
  ∃ p, w.places[scope]? = some p ∧
    ((∃ d ∈ root.nodes, w.builder.StandsFor v d ∧ p.Holds d) ∨
      p.visit = .callable ∧ w.builder.Holds root v p.node)

theorem Houses.mono {root : Node} {w w' : Trace} {scope : ScopeId} {v : VertexId}
    (h : w.Houses root scope v) (hw : w.Extends w') : w'.Houses root scope v := by
  obtain ⟨p, hp, ⟨d, hd, hstands, hholds⟩ | ⟨hvisit, howner⟩⟩ := h
  · exact ⟨p, hw.place hp, .inl ⟨d, hd, hstands.mono hw.grows, hholds⟩⟩
  · exact ⟨p, hw.place hp, .inr ⟨hvisit, howner.mono hw.grows⟩⟩

/-- **What a `let` or `const` declaration binds is bound where the declaration belongs.** -/
theorem Reached.houses {path : Path} {ambient : List String} {source : String} {root : Node}
    {w : Trace} (h : Reached path ambient source root w) {scope : ScopeId} {name : String}
    {x : Binding} {v : VertexId} (hx : w.builder.scopes.local? scope name = some x)
    (hv : x.declaration = some v) :
    ∃ l, w.builder.graph.vertex? v = some l ∧
      (l.key.kind = .lexicalDeclaration → w.Houses root scope v) := by
  induction h generalizing x with
  | refl =>
    obtain ⟨-, hnone, -⟩ := ScopeTree.of_local?_ofAmbient hx
    rw [hnone] at hv
    cases hv
  | @tail w₁ w₂ _ hevent ih =>
    have hw := hevent.grows
    have hold {x : Binding} (hx : w₁.builder.scopes.local? scope name = some x)
        (hv : x.declaration = some v) : ∃ l, w₂.builder.graph.vertex? v = some l ∧
          (l.key.kind = .lexicalDeclaration → w₂.Houses root scope v) := by
      obtain ⟨l, hl, hhouses⟩ := ih hx hv
      exact ⟨l, hw.graph v l hl, fun hkind => (hhouses hkind).mono hw⟩
    have hrebinds := hevent.rebinds scope name
    rw [hx] at hrebinds
    generalize hnew : some x = new at hrebinds
    cases hrebinds with
    | keep => exact hold hnew.symm hv
    | @hoist f u _ hform _ hstands =>
      cases hnew
      cases hv
      obtain ⟨l, hl, hkey⟩ := hstands
      refine ⟨l, hw.graph v l hl, fun hkind => ?_⟩
      have hkind' : f.kind = .lexicalDeclaration := by
        rw [← hkind, hkey]
        rfl
      rw [hkind'] at hform
      cases hform
    | @declare binding hoist origin hbinds _ hland =>
      cases hnew
      cases hbinds with
      | implicit => cases hv
      | @statement _ _ u _ n _ _ hdeclaration hstands hlexical =>
        obtain rfl : v = u := Option.some.inj (hv.symm.trans hdeclaration)
        obtain ⟨l, hl, hkey⟩ := hstands
        refine ⟨l, hw.graph v l hl, fun hkind => ?_⟩
        have hkind' : n.kind = .lexicalDeclaration := by
          rw [← hkind, hkey]
          rfl
        obtain ⟨rfl, hmem, p, hp, hholds⟩ := hlexical hkind'
        rw [hland rfl] at hp
        have hhouses : w₁.Houses root scope v := ⟨p, hp, .inl ⟨n, hmem, ⟨l, hl, hkey⟩, hholds⟩⟩
        exact hhouses.mono hw
      | @header _ owner _ _ _ hdeclaration howner hplace =>
        obtain rfl : v = owner := Option.some.inj (hv.symm.trans hdeclaration)
        have hhouses : w₁.Houses root scope v := by
          rw [hland rfl] at hplace
          exact ⟨_, hplace, .inr ⟨rfl, howner⟩⟩
        obtain ⟨l, hl, -⟩ := howner
        exact ⟨l, hw.graph v l hl, fun _ => hhouses.mono hw⟩
    | @store n left update _ _ _ _ _ hupdate =>
      obtain ⟨y, hy, rfl⟩ := Option.map_eq_some_iff.1 hnew.symm
      rw [hupdate.declaration] at hv
      exact hold hy hv

/-! ## Functions whose names are bound once -/

end Trace

/-- Somewhere in a tree a name is assigned, or a member of it, by a left side as wanted. -/
def Node.Assigned (source : String) (root : Node) (name : String) (wanted : Node → Prop) : Prop :=
  ∃ n ∈ root.nodes, n.kind = .assignmentExpression ∧ ∃ left ∈ n.child? .left,
    (left.memberChain? source).bind List.head? = some name ∧ wanted left

instance (source : String) (root : Node) (name : String) (wanted : Node → Prop)
    [DecidablePred wanted] : Decidable (root.Assigned source name wanted) :=
  inferInstanceAs (Decidable (∃ n ∈ root.nodes, n.kind = .assignmentExpression ∧
    ∃ left ∈ n.child? .left, (left.memberChain? source).bind List.head? = some name ∧ wanted left))

/-- A function declaration whose name is bound by nothing else in its file. -/
structure Node.NamedOnce (source : String) (root f : Node) (name : String) : Prop where
  mem : f ∈ root.nodes
  form : f.kind.form? = some .functionDecl
  named : f.name? source = some name
  once : root.BoundOnce source name
  free : name ∉ implicitNames

namespace Node.NamedOnce

variable {source name : String} {root f m : Node}

/-- No other function declaration has the name. -/
theorem eq (h : root.NamedOnce source f name) (hm : m ∈ root.nodes)
    (hform : m.kind.form? = some .functionDecl) (hname : m.name? source = some name) : m = f :=
  h.once.eq h.mem hm (List.mem_append_left _ (mem_functionNames h.form h.named))
    (List.mem_append_left _ (mem_functionNames hform hname))

theorem not_mem_otherNames (h : root.NamedOnce source f name) (hm : m ∈ root.nodes) :
    name ∉ m.otherNames source :=
  h.once.not_mem_otherNames h.mem (mem_functionNames h.form h.named) hm

end Node.NamedOnce

/-- Nothing in a tree binds a name but one function declaration, which may also lie elsewhere. -/
structure Node.BindsOnly (source : String) (root f : Node) (name : String) : Prop where
  functions : ∀ m ∈ root.nodes, m.kind.form? = some .functionDecl → m.name? source = some name →
    m = f
  others : ∀ m ∈ root.nodes, name ∉ m.otherNames source
  free : name ∉ implicitNames

/-- A function that is named once is all that binds its name. -/
theorem Node.NamedOnce.bindsOnly {source name : String} {root f : Node}
    (h : root.NamedOnce source f name) : root.BindsOnly source f name where
  functions := fun _ => h.eq
  others := fun _ => h.not_mem_otherNames
  free := h.free

namespace Trace

/-- A binding stands for a function. -/
structure Denotes (w : Trace) (f : Node) (x : Binding) : Prop where
  declaration : ∃ v, x.declaration = some v ∧ w.builder.StandsFor v f
  callable : x.callable.isSome

/-- A name stands for a function where it is known, and it is known where the function was hoisted.
Only the host environment may provide the same name, on the global scope. -/
structure Knows (w : Trace) (f : Node) (name : String) : Prop where
  bindings : ∀ scope x, w.builder.scopes.local? scope name = some x →
    scope = ScopeTree.globalId ∨ w.Denotes f x
  hoisted : ∀ scope, (f, scope) ∈ w.hoisted →
    ∃ x, w.builder.scopes.local? scope name = some x ∧ w.Denotes f x

section Functions

variable {path : Path} {ambient : List String} {source name : String} {root f : Node} {w w' : Trace}

theorem Denotes.mono {x : Binding} (h : w.Denotes f x) (hw : w.Extends w') : w'.Denotes f x := by
  obtain ⟨v, hv, hstands⟩ := h.declaration
  exact { h with declaration := ⟨v, hv, hstands.mono hw.grows⟩ }

theorem Denotes.of_hoist {v : VertexId} (hv : w.builder.StandsFor v f) :
    w.Denotes f { Binding.declared name v with callable := some f.key } where
  declaration := ⟨v, rfl, hv⟩
  callable := rfl

/-- **What events do to a name that only a function binds**: they bind it to the function, or change
in place what it is bound to, after the left side of an assignment to it was visited. -/
theorem Rebinds.of_bindsOnly (hf : root.BindsOnly source f name) {scope : ScopeId} {x : Binding}
    (h : Rebinds source root w scope name (some x)) :
    (∃ v, w.builder.StandsFor v f ∧
      x = { Binding.declared name v with callable := some f.key }) ∨
    ∃ y update, w.builder.scopes.local? scope name = some y ∧ x = update y ∧ Binding.Keeps update ∧
      (x = y ∨ root.Assigned source name fun left =>
        w.Came Anywhere (targetLeaves source left)) := by
  generalize hnew : some x = new at h
  cases h with
  | keep => exact .inr ⟨x, id, hnew.symm, rfl, .id, .inl rfl⟩
  | @hoist g v hmem hform hname hv =>
    cases hnew
    obtain rfl := hf.functions g hmem hform hname
    exact .inl ⟨v, hv, rfl⟩
  | declare hbinds hname _ =>
    -- No other piece of the text declares the name.
    cases hnew
    cases hbinds with
    | implicit himplicit =>
      have heq : _ = name := hname
      rw [← heq] at hf
      exact absurd himplicit hf.free
    | statement hm hother =>
      rw [hname] at hother
      exact absurd hother (hf.others _ hm)
    | header hn hother =>
      rw [hname] at hother
      exact absurd hother (hf.others _ hn)
  | @store n left update hn hkind hleft hchain hmet hupdate =>
    obtain ⟨y, hy, rfl⟩ := Option.map_eq_some_iff.1 hnew.symm
    exact .inr ⟨y, update, hy, rfl, hupdate, .inr ⟨n, hn, hkind, left, hleft, hchain, hmet⟩⟩

/-- A name that stands for a function goes on to do so. -/
theorem Denotes.rebinds (hf : root.NamedOnce source f name) {scope : ScopeId} {new : Option Binding}
    (h : Rebinds source root w scope name new) {x : Binding} (hx : new = some x) :
    w.Denotes f x ∨ ∃ y, w.builder.scopes.local? scope name = some y ∧
      (w.Denotes f y → w.Denotes f x) := by
  rw [hx] at h
  rcases h.of_bindsOnly hf.bindsOnly with ⟨v, hv, rfl⟩ | ⟨y, update, hy, rfl, hupdate, -⟩
  · exact .inl (.of_hoist hv)
  · refine .inr ⟨y, hy, fun h => ⟨?_, hupdate.callable y h.callable⟩⟩
    rw [hupdate.declaration]
    exact h.declaration

/-- **A name that is bound once stands for its function** in the whole history. -/
theorem Reached.knows (hf : root.NamedOnce source f name) (h : Reached path ambient source root w) :
    w.Knows f name := by
  induction h with
  | refl =>
    refine ⟨fun scope x hx => ?_, fun scope hscope => ?_⟩
    · exact .inl (ScopeTree.of_local?_ofAmbient hx).1
    · cases hscope
  | @tail w₁ w₂ _ hevent ih =>
    have hw := hevent.grows
    refine ⟨fun scope x hx => ?_, fun scope hscope => ?_⟩
    · rcases Denotes.rebinds hf (hevent.rebinds scope name) hx with hx | ⟨y, hy, hxy⟩
      · exact .inr (hx.mono hw)
      · exact (ih.bindings scope y hy).imp_right fun h => (hxy h).mono hw
    · rcases hevent.hoisted hf.named hscope with hold | ⟨v, hv, hlocal⟩
      · -- What was known before is kept, or bound anew to the function.
        obtain ⟨y, hy, hdenotes⟩ := ih.hoisted scope hold
        have hrebinds := hevent.rebinds scope name
        obtain ⟨x, hx⟩ := hrebinds.exists_some hy
        refine ⟨x, hx, ?_⟩
        rcases Denotes.rebinds hf hrebinds hx with hx | ⟨y', hy', hxy⟩
        · exact hx.mono hw
        · obtain rfl : y = y' := Option.some.inj (hy.symm.trans hy')
          exact (hxy hdenotes).mono hw
      · exact ⟨_, hlocal, (Denotes.of_hoist hv).mono hw⟩

/-- **A hoisted function is found from every scope inside the one it was hoisted to.** -/
theorem Knows.lookup? (h : w.Knows f name) (htree : w.builder.scopes.WellFormed)
    {scope outer : ScopeId} (hlt : scope < w.builder.scopes.size)
    (houter : outer ∈ w.builder.scopes.chain scope) (hf : (f, outer) ∈ w.hoisted) :
    ∃ x, w.builder.scopes.lookup? scope name = some x ∧ w.Denotes f x := by
  obtain ⟨x, hx, hdenotes⟩ := h.hoisted outer hf
  -- The induction goes outwards along the chain: the first binding that is met is the function's.
  induction scope using Nat.strongRecOn with
  | _ scope ih =>
    unfold ScopeTree.lookup?
    rcases htree.chain_eq hlt with ⟨rfl, hchain⟩ | ⟨parent, hparent, -, hchain⟩
    · rw [hchain, List.mem_singleton] at houter
      rw [houter] at hx
      rw [hchain, List.findSome?_cons, hx]
      exact ⟨x, rfl, hdenotes⟩
    · rw [hchain] at houter
      rw [hchain, List.findSome?_cons]
      cases hlocal : w.builder.scopes.local? scope name with
      | some y =>
        refine ⟨y, rfl, (h.bindings scope y hlocal).resolve_left fun hzero => ?_⟩
        rw [hzero] at hparent
        exact Nat.not_lt_zero parent hparent
      | none =>
        rcases List.mem_cons.1 houter with heq | houter
        · rw [heq, hlocal] at hx
          cases hx
        · exact ih parent hparent (Nat.lt_trans hparent hlt) houter

end Functions

end Trace

end DeadCode
