import DeadCode.Proofs.Resolution.Arranged

/-! # Invariants that every change keeps

Resolving an expression changes a builder in a few ways only: it relates statements, adds those of
methods, registers callables and stores what is assigned. An invariant that each of these changes
keeps, as far as they are made for nodes of some region of the tree, is kept by every expression of
that region. -/

namespace DeadCode

namespace Build

open Builder Node

/-- **Upkeep of an invariant by expressions**: what an expression of a region does to a builder
keeps the invariant. -/
structure Upkeep (region : Node → Prop) (inv : Builder → Prop) : Prop where
  /-- With a node all that lies in it belongs to the region. -/
  child : ∀ n c, region n → c ∈ n.children → region c
  /-- The calls that are noted and queued do not matter. -/
  steady : SteadyInCalls inv
  /-- The statement around a node is related to another. -/
  relate : ∀ (b : Builder) n u v relation id graph, inv b → region n → n.Refers →
    relation.kind.isReference → b.graph.findVertex? n.span = some u →
    b.graph.connect u v relation = .ok (id, graph) → inv { b with graph }
  /-- A method gets a statement. -/
  method : ∀ (b : Builder) n x, inv b → region n → n.kind = .methodDefinition → x.key = n.key →
    x.isDeclaration = n.kind.isDeclaration → inv { b with graph := (b.graph.addVertex x).2 }
  /-- A statement is related to one that it owns. -/
  own : ∀ (b : Builder) u v id graph, inv b →
    b.graph.connect u v { kind := .decl } = .ok (id, graph) → inv { b with graph }
  /-- A callable is registered. -/
  register : ∀ (b : Builder) n scope owner, inv b → region n →
    inv { b with callables := setCallable b.callables n.key ⟨n, scope, owner⟩ }
  /-- What is assigned is stored in a declared binding or in a member of one. -/
  store : ∀ (b : Builder) scope chain update, inv b → Binding.Keeps update →
    inv { b with
      scopes := b.scopes.updateChain scope chain fun binding =>
        if binding.declaration.isSome then update binding else binding }

namespace Upkeep

variable {region : Node → Prop} {inv : Builder → Prop} {b : Builder} {n : Node}
  {scope : ScopeId} {owner : VertexId}

/-! ## Single steps -/

theorem named (h : Upkeep region inv) {c : Node} (hn : region n) (hc : c ∈ n.namedChildren) :
    region c :=
  h.child n c hn (mem_children_of_namedChildren hc)

theorem field (h : Upkeep region inv) {c : Node} {field : Field} (hn : region n)
    (hc : n.child? field = some c) : region c :=
  h.child n c hn (mem_children_of_child? hc)

/-- What is below a node of the region is in the region. -/
theorem mem_nodes_closed (h : Upkeep region inv) {m : Node} (hn : region n) (hm : m ∈ n.nodes) :
    region m := by
  induction n using childInduction with
  | step n ih =>
    rcases mem_nodes_iff.1 hm with rfl | hm
    · exact hn
    · obtain ⟨c, hc, hmc⟩ := mem_descendants_iff.1 hm
      exact ih c hc (h.child n c hn hc) hmc

/-- The nodes of the region can be related. -/
theorem relatable (h : Upkeep region inv) (b : Builder) (hn : region n) (hrefers : n.Refers) :
    Relatable inv b n :=
  fun b' hb' u v relation id graph hkind hfound hconnect =>
    h.relate b' n u v relation id graph hb'.holds hn hrefers hkind hfound hconnect

theorem keeps_own (h : Upkeep region inv) (hb : inv b) (u v : VertexId) :
    Keeps inv b (connect u v { kind := .decl }) Anything :=
  .of_connect fun _ _ hconnect => h.own _ _ _ _ _ hb hconnect

theorem keeps_register (h : Upkeep region inv) (hb : inv b) (hn : region n) :
    Keeps inv b (Build.register n scope owner) fun key _ => key = n.key :=
  .of_register (h.register b n scope owner hb hn)

/-- Storing keeps the invariant. -/
theorem keeps_storeShape (h : Upkeep region inv) (hb : inv b) (chain : List String)
    (shape : ValueShape) : Keeps inv b (storeShape scope chain shape owner) Anything := by
  unfold storeShape
  split
  · exact .pure hb trivial
  · refine .of_updateDeclared (h.store _ _ _ _ hb ⟨fun _ => rfl, fun _ => rfl, fun x hx => ?_⟩)
    simp [ValueShape.assign, hx]
  · exact .of_updateDeclared (h.store _ _ _ _ hb ⟨fun _ => rfl, fun _ => rfl, fun _ hx => hx⟩)

theorem keeps_classMethod (h : Upkeep region inv) (hb : inv b) (hn : region n)
    (hkind : n.kind = .methodDefinition) (source : String) :
    Keeps inv b (classMethod source n scope owner) Anything := by
  refine (Keeps.of_addVertex (h.method _ n _ hb hn hkind rfl (by rw [hkind]; rfl))).andThen
    fun vertex b₁ h₁ => ?_
  refine (h.keeps_own h₁.holds _ _).andThen fun _ b₂ h₂ => ?_
  exact (h.keeps_register h₂.holds hn).andThen fun _ b₃ h₃ => .pure h₃.holds trivial

/-! ## Expressions -/

/-- The steps of an expression of the region keep the invariant. -/
def walk (h : Upkeep region inv) (source : String) (scope : ScopeId) :
    Walk (keeping inv) source scope where
  held _ _ n := region n
  backs _ _ _ := True
  placed _ _ := True
  known _ := True
  formed _ _ := True
  held_later _ hn := hn
  backs_later _ _ := trivial
  formed_later _ _ := trivial
  backs_placed _ := trivial
  backs_below _ _ _ := trivial
  part hn _ _ hc := h.child _ _ hn hc
  objectPart hn _ _ hc := h.child _ _ hn hc
  argument hn _ _ hlist hc := h.child _ _ (h.field hn hlist) hc
  base hn _ hmem _ hc := h.child _ _ (h.child _ _ hn hmem) hc
  classPart hn _ hbody hc _ := h.child _ _ (h.field hn hbody) hc
  reference {s _ _ _} hn _ hspells hkind := (relating inv).reference
    (h.relatable s.1 hn (.inl hspells)) (by rcases hkind with rfl | rfl <;> rfl)
  memberReference {s _ _ _ _} hn _ hk hkind := (relating inv).memberReference
    (h.relatable s.1 hn (.of_member hk)) (by rcases hkind with rfl | rfl | rfl <;> rfl)
  pattern {s _} hn hspells := (relating inv).patternReferences (h.relatable s.1 hn (.inl hspells))
  call {s _ _ _ _ _} hn _ hcall _ htarget hk _ := keeps_namedCallee h.steady
    (h.relatable s.1 hn (.of_call hcall)) (h.relatable s.1 htarget (.inl (.inl hk))) rfl
  memberCall {s _ _ _ _ _} hn _ hcall _ htarget hk _ := keeps_namedCallee h.steady
    (h.relatable s.1 hn (.of_call hcall)) (h.relatable s.1 htarget (.of_member hk)) rfl
  passed {s _ _} hn hk := (relating inv).argumentReference (h.relatable s.1 hn (.inl (.inl hk)))
  found _ _ _ := trivial
  lost {s _ _} _ _ _ _ := Keeps.does (.pure s.2 trivial)
  enqueue {s} key := (keeps_enqueue h.steady s.2 key).does
  register {s _ _ _} hn _ _ := (h.keeps_register s.2 hn).to_logic fun _ _ hkey => ⟨hkey, trivial⟩
  method {s _ _ _ _ _} hn _ hbody hc hkind _ :=
    (h.keeps_classMethod s.2 (h.child _ _ (h.field hn hbody) hc) hkind source).to_logic
      fun _ _ _ => ⟨trivial, trivial⟩
  registerClass {s _ n owner} hn _ _ :=
    (Keeps.of_registerClass s.2 fun _ => h.register s.1 n scope owner s.2 hn).does
  store {s _ _ _ _ shape _} _ _ _ _ _ _ _ := (h.keeps_storeShape s.2 _ shape).does
  formed_plain _ _ := trivial
  formed_callable _ _ := trivial
  formed_lookup _ _ := trivial
  formed_bind _ _ _ := trivial
  formed_method _ _ _ := trivial

variable {source : String}

/-- **An expression keeps the invariant.** -/
theorem expression (h : Upkeep region inv) (hn : region n) (hb : inv b) :
    Keeps inv b (Build.expression source n scope) Anything :=
  .of_does hb ((h.walk source scope).expression hn)

theorem valueShape (h : Upkeep region inv) (hn : region n) (hb : inv b) :
    Keeps inv b (Build.valueShape source n scope owner) Anything :=
  .of_does hb ((h.walk source scope).valueShape hn trivial)

theorem classShape (h : Upkeep region inv) {visit : Visit} (hvisit : IsClassVisit visit n)
    (hn : region n) (hb : inv b) :
    Keeps inv b (Build.classShape source n scope owner) Anything :=
  .of_does hb ((h.walk source scope).classShape hn hvisit trivial)

end Upkeep

end Build

end DeadCode
