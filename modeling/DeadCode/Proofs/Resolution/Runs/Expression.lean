import DeadCode.Proofs.Resolution.Expression
import DeadCode.Proofs.Resolution.Runs

/-! # The leaves of an expression are met

Resolving an expression meets all its leaves, in the scope and in the course of the statement in which
the expression is visited. -/

namespace DeadCode

open Node

/-! ## Chains of members -/

namespace Node

variable {source : String} {n : Node} {chain : List String}

/-- Chains are not empty. -/
theorem ne_nil_of_memberChain? (h : n.memberChain? source = some chain) : chain ≠ [] := by
  induction hsize : n.size using Nat.strongRecOn generalizing n chain with
  | ind size ih =>
    subst hsize
    rw [memberChain?] at h
    split at h
    · obtain ⟨text, -, rfl⟩ := Option.map_eq_some_iff.1 h
      simp
    · obtain ⟨text, -, rfl⟩ := Option.map_eq_some_iff.1 h
      simp
    · unfold withChild at h
      split at h
      · simp only [Option.bind_eq_bind, Option.bind_eq_some_iff] at h
        obtain ⟨base, -, _, -, key, -, hend⟩ := h
        cases hend
        simp
      · cases h
    · unfold withChild at h
      split at h
      · simp only [Option.bind_eq_bind, Option.bind_eq_some_iff] at h
        obtain ⟨base, -, index, -, h⟩ := h
        split at h
        · cases h
        · obtain ⟨key, -, hend⟩ := Option.bind_eq_some_iff.1 h
          cases hend
          simp
      · cases h
    · unfold withSole at h
      split at h
      · next inner hinner => exact ih inner.size (size_lt_of_sole? hinner) h rfl
      · cases h
    · cases h

/-- The chain of a member expression has the name of the member after that of the object. -/
theorem one_lt_length_of_memberChain? (h : n.memberChain? source = some chain)
    (hkind : n.kind = .memberExpression ∨ n.kind = .subscriptExpression) : 1 < chain.length := by
  have hlength {base : List String} {key : String} {object : Node}
      (hbase : object.memberChain? source = some base) : 1 < (base ++ [key]).length := by
    have := List.length_pos_iff.2 (ne_nil_of_memberChain? hbase)
    simp only [List.length_append, List.length_singleton]
    omega
  rw [memberChain?] at h
  rcases hkind with hkind | hkind <;> simp only [hkind] at h <;> unfold withChild at h <;> split at h
  · simp only [Option.bind_eq_bind, Option.bind_eq_some_iff] at h
    obtain ⟨base, hbase, _, -, key, -, hend⟩ := h
    cases hend
    exact hlength hbase
  · cases h
  · simp only [Option.bind_eq_bind, Option.bind_eq_some_iff] at h
    obtain ⟨base, hbase, index, -, h⟩ := h
    split at h
    · cases h
    · obtain ⟨key, -, hend⟩ := Option.bind_eq_some_iff.1 h
      cases hend
      exact hlength hbase
  · cases h

end Node

/-! ## Shapes of values -/

namespace ValueShape

/-- The members of a value are grounded. -/
def Rooted (vertices : Nat) (shape : ValueShape) : Prop :=
  ∀ m ∈ shape.members, Binding.Grounded vertices m.1 m.2

variable {vertices vertices' : Nat} {shape : ValueShape}

theorem rooted_of_members_eq_nil (h : shape.members = []) : shape.Rooted vertices := by
  simp [Rooted, h]

theorem Rooted.mono (h : shape.Rooted vertices) (hle : vertices ≤ vertices') :
    shape.Rooted vertices' :=
  fun m hm => (h m hm).mono hle

theorem Rooted.bind (h : shape.Rooted vertices) (name : String) {v : VertexId} (hv : v < vertices) :
    Binding.Grounded vertices name (shape.bind name v) :=
  .declared rfl hv h

theorem Rooted.withMember (h : shape.Rooted vertices) {name : String} {member : Binding}
    (hm : Binding.Grounded vertices name member) : (shape.withMember name member).Rooted vertices :=
  Binding.grounded_insert h hm

theorem Rooted.assign (h : shape.Rooted vertices) (b : Binding) (hb : b.Rooted vertices) :
    (shape.assign b).Rooted vertices :=
  Binding.grounded_insertAll hb h

theorem rooted_ofBinding {tree : ScopeTree} (h : tree.Grounded vertices) (scope : ScopeId)
    (name : String) : (ofBinding (tree.lookup? scope name)).Rooted vertices := by
  cases hfound : tree.lookup? scope name with
  | none => exact rooted_of_members_eq_nil rfl
  | some b => exact (h.lookup? hfound).2

end ValueShape

/-! ## Visiting a node -/

namespace Trace

/-- A node of the tree is visited in a scope, in the course of a statement. -/
structure Visits (source : String) (root : Node) (w : Trace) (scope : ScopeId)
    (during : Option Node) (visit : Visit) (n : Node) : Prop where
  mem : n ∈ root.nodes
  reached : w.At scope visit n
  opened : w.Open source scope during
  covered : w.builder.graph.Covers n.span

namespace Visits

variable {source : String} {root n c : Node} {w w' : Trace} {scope : ScopeId}
  {during : Option Node} {visit : Visit}

theorem mono (h : w.Visits source root scope during visit n) (hw : w.Extends w') :
    w'.Visits source root scope during visit n where
  mem := h.mem
  reached := h.reached.mono hw
  opened := h.opened.mono hw
  covered := hw.graph.covers h.covered

theorem child (h : w.Visits source root scope during visit n) (hroot : root.Nested)
    (hdefers : visit.defers n.kind = false) (hc : c ∈ n.children) :
    w.Visits source root scope during (visit.below n.kind c.kind) c where
  mem := mem_nodes_trans (child_mem_nodes hc) h.mem
  reached := h.reached.child hdefers hc
  opened := h.opened
  covered := h.covered.of_contains (hroot n h.mem c hc)

theorem part (h : w.Visits source root scope during visit n) (hroot : root.Nested)
    (hreads : visit.Reads n.kind) (hplain : n.kind.isPlain) (hc : c ∈ n.children) :
    w.Visits source root scope during .resolve c := by
  obtain ⟨hvalue, hclass, hobject⟩ := Kind.isPlain_iff.1 hplain
  have hbelow : visit.below n.kind c.kind = .resolve := by
    rw [hreads.below_eq]
    simp [Visit.below, hclass, hobject]
  rw [← hbelow]
  exact h.child hroot (hreads.defers_eq.trans hvalue) hc

theorem objectPart (h : w.Visits source root scope during visit n) (hroot : root.Nested)
    (hreads : visit.Reads n.kind) (hkind : n.kind = .objectLiteral) (hc : c ∈ n.children) :
    w.Visits source root scope during .member c := by
  have hbelow : visit.below n.kind c.kind = .member := by
    rw [hreads.below_eq, hkind]
    rfl
  rw [← hbelow]
  exact h.child hroot (by rw [hreads.defers_eq, hkind]; rfl) hc

theorem classPart (h : w.Visits source root scope during visit n) (hroot : root.Nested)
    (hvisit : Build.IsClassVisit visit n) (hc : c ∈ n.children) :
    w.Visits source root scope during (.ofClassPart c.kind) c := by
  rw [← hvisit.below]
  exact h.child hroot hvisit.defers hc

theorem classMember {body : Node} (h : w.Visits source root scope during visit n)
    (hnested : root.Nested) (hroot : root.Grammatical) (hvisit : Build.IsClassVisit visit n)
    (hbody : n.child? .body = some body) (hc : c ∈ body.children) :
    w.Visits source root scope during .member c := by
  have hmem := mem_children_of_child? hbody
  -- The body is no heritage, so its parts are visited as members.
  have hbody' := h.classPart hnested hvisit hmem
  rw [Visit.ofClassPart, if_neg ((hroot n h.mem).body hvisit.isClass body hmem
    (field_of_child? hbody))] at hbody'
  exact hbody'.child hnested rfl hc

end Visits

end Trace

namespace Build

open Trace

/-! ## The steps of an expression -/

section Single

variable {source : String} {root n : Node} {w : Trace} {scope : ScopeId} {during : Option Node}
  {visit : Visit} {owner : VertexId} {ok : Visited → Prop} {α : Type} {step : Build α}
  {leaves : List Leaf}

theorem does_use (hok : ∀ entry, Here scope during entry → ok entry) {u : Use}
    {step : Build Unit} (h : w.Visits source root scope during visit u.node)
    (hu : u.Proper source)
    (hstep : ∀ b, step w.builder = .ok ((), b) → u.Performs source scope w.builder b) :
    (histories source root ok).Does w step [.use u] :=
  comes_use hok hu h.mem h.reached.within h.opened hstep

theorem keeps_assign (shape : ValueShape) : Binding.Keeps shape.assign where
  name := fun _ => rfl
  declaration := fun _ => rfl
  callable := fun x hx => by
    cases hshape : shape.callable <;> simp [ValueShape.assign, hshape, hx]

theorem keeps_withMember (x : Binding) : Binding.Keeps (·.withMember x) where
  name := fun _ => rfl
  declaration := fun _ => rfl
  callable := fun _ hx => hx

/-- Storing a shape is an act at most. -/
theorem acts_storeShape {left : Node} {chain : List String} (hn : n ∈ root.nodes)
    (hkind : n.kind = .assignmentExpression) (hleft : n.child? .left = some left)
    (hchain : left.memberChain? source = some chain)
    (hmet : w.Came Anywhere (targetLeaves source left)) {shape : ValueShape}
    (hshape : shape.Rooted w.builder.graph.vertices.size)
    (howner : owner < w.builder.graph.vertices.size) :
    Acts source root w (storeShape scope chain shape owner) := by
  unfold storeShape
  split
  · exact .pure
  · exact acts_store hn hkind hleft (by rw [hchain]; rfl) hmet (keeps_assign shape) hshape.assign
  · next property object hsingle hreverse =>
    refine acts_store hn hkind hleft ?_ hmet (keeps_withMember _) fun b hb =>
      Binding.grounded_insert hb (hshape.bind property howner)
    -- The chain and the chain without its last name start with the same name.
    have hchain' : chain = object.reverse ++ [property] := by
      rw [← List.reverse_reverse chain, hreverse, List.reverse_cons]
    rw [hchain, hchain']
    rcases List.eq_nil_or_concat object with rfl | ⟨_, _, rfl⟩
    · exact absurd rfl hsingle
    · simp

theorem runs_classMethod (hok : ∀ entry, Here scope during entry → ok entry) {method : Node}
    (hv : w.Visits source root scope during .member method)
    (hkind : method.kind = .methodDefinition) (owner : VertexId) :
    Runs source root w (classMethod source method scope owner) fun r w' =>
      w'.Came ok [.defer method] ∧ r.1 < w'.builder.graph.vertices.size := by
  unfold classMethod methodVertex
  refine Runs.bind (runs_addVertex rfl hv.mem (.inl (.inr hkind)) ?_ ?_) fun vertex w₁ h₁ hvertex => ?_
  · intro hform
    simp [hkind, Kind.form?] at hform
  · intro hstatement
    simp [hkind] at hstatement
  refine Runs.bind (acts_connect rfl) fun _ w₂ h₂ _ => ?_
  have hv₂ := (hv.mono h₁.grows).mono h₂.grows
  have hvertex₂ := hvertex.mono h₂.grows.grows
  refine Runs.bind (runs_register during hok hv₂.mem hv₂.reached (by rw [hkind]; rfl)
    hvertex₂.holds) fun _ _ h₃ hkey =>
    Runs.pure ⟨hkey.2, (hvertex₂.mono h₃.grows.grows).lt_size⟩

end Single

/-- **The steps of an expression meet its leaves.** -/
def historyWalk {source : String} {root : Node} (hnested : root.Nested) (hroot : root.Grammatical)
    (scope : ScopeId) (during : Option Node) {ok : Visited → Prop}
    (hok : ∀ entry, Here scope during entry → ok entry) :
    Walk (histories source root ok) source scope where
  held w visit n := w.Visits source root scope during visit n
  backs w owner n := w.builder.Holds root owner n
  placed w v := v < w.builder.graph.vertices.size
  known _ := True
  formed shape w := shape.Rooted w.builder.graph.vertices.size
  held_later h hv := Visits.mono hv h.grows
  backs_later h howner := howner.mono h.grows.grows
  formed_later h hshape := ValueShape.Rooted.mono hshape h.grows.graph.size_le
  backs_placed howner := howner.lt_size
  backs_below hv howner hm := howner.descend hv.mem hm
  part hv hreads hplain hc := hv.part hnested hreads hplain hc
  objectPart hv hreads hkind hc := hv.objectPart hnested hreads hkind hc
  argument {_ _ n list _} hv hreads hplain hlist hc := by
    have hmem := mem_children_of_child? hlist
    -- The arguments stand in a list of their own, which is no value.
    exact (hv.part hnested hreads hplain hmem).part hnested (.inl rfl)
      (Kind.isPlain_of_not_isEnclosure <| (hroot n hv.mem).list list hmem
        (by rw [field_of_child? hlist]; rfl)) hc
  base hv hvisit hmem hk hc := by
    have hheritage := hv.classPart hnested hvisit hmem
    rw [hk] at hheritage
    exact hheritage.part hnested (.inl rfl) (by rw [hk]; rfl) hc
  classPart hv hvisit hbody hc _ := hv.classMember hnested hroot hvisit hbody hc
  reference hv _ hn hkind := does_use hok hv ⟨hn, hkind⟩ fun _ hrun => hrun
  memberReference hv _ _ hkind := does_use hok hv hkind fun _ hrun => hrun
  pattern hv hn := does_use hok hv hn fun _ hrun => hrun
  call hv _ _ hmem _ hk htext := does_use hok hv ⟨hmem, hk, htext⟩ fun _ hrun => ⟨_, hrun⟩
  memberCall hv _ _ hmem _ hk hchain :=
    does_use hok hv ⟨hmem, one_lt_length_of_memberChain? hchain hk⟩ fun _ hrun => ⟨_, hrun⟩
  passed hv hk := does_use hok hv (.inl hk) fun _ hrun => ⟨_, hrun⟩
  found {_ _ n _} _ _ hfound := by
    obtain ⟨vertex, hvertex, hc⟩ := StatementGraph.exists_of_findVertex? hfound
    exact ⟨vertex, hvertex, fun _ => hc⟩
  lost _ hv _ hnone := absurd hnone
    (Option.isSome_iff_ne_none.1 ((StatementGraph.findVertex?_isSome_iff _ _).2 hv.covered))
  enqueue key := Runs.to_logic (acts_enqueue key)
  register hv hdefers howner := (runs_register during hok hv.mem hv.reached hdefers howner).imp
    fun _ _ _ hkey => ⟨hkey.2, hkey.1, trivial⟩
  method hv hvisit hbody hc hkind _ :=
    (runs_classMethod hok (hv.classMember hnested hroot hvisit hbody hc) hkind _).imp
      fun _ _ _ hr => ⟨hr.1, hr.2, trivial⟩
  registerClass hv hvisit _ := Runs.to_logic (acts_registerClass hv.mem hvisit.isClass)
  store hv hkind hleft hchain hmet hshape howner :=
    Runs.to_logic (acts_storeShape hv.mem hkind hleft hchain hmet.anywhere hshape howner)
  formed_plain _ hmembers := ValueShape.rooted_of_members_eq_nil hmembers
  formed_callable hshape _ := hshape
  formed_lookup name hv := ValueShape.rooted_ofBinding hv.opened.grounded scope name
  formed_bind hshape hvalue howner :=
    ValueShape.Rooted.withMember hshape (ValueShape.Rooted.bind hvalue _ howner)
  formed_method {_ _ name vertex _} hshape hvertex _ :=
    ValueShape.Rooted.withMember hshape (.declared rfl hvertex (Binding.rooted_declared name vertex))

/-- **Every expression meets its leaves.** -/
theorem comes_expression {source : String} {root n : Node} {w : Trace} {scope : ScopeId}
    {during : Option Node} (hnested : root.Nested) (hroot : root.Grammatical)
    (hv : w.Visits source root scope during .resolve n) :
    Comes source root w Anywhere (expression source n scope) (expressionLeaves source n) :=
  (historyWalk hnested hroot scope during fun _ _ => trivial).expression hv

end Build

end DeadCode
