import DeadCode.Proofs.Resolution.Steps
import DeadCode.Proofs.Resolution.Walk

/-! # What resolving an expression can do

Resolving an expression is made of moves, whatever the expression is, and the callables it registers
are those that a visit of the expression comes upon: it registers a function and does not look into
it. -/

namespace DeadCode

namespace Build

open Builder Node

variable {root : Node} {b : Builder}

/-- The shape of a value refers to statements of the builder and to callables of the tree. -/
def SoundShape (root : Node) (shape : ValueShape) (b : Builder) : Prop :=
  shape.Sound b.graph.vertices.size root.HasCallable

/-- **A node is related to any statement, unless no statement encloses the node.** -/
def naming (root : Node) (declared : Node → Prop) : Naming (outcomes root declared) where
  refers s n := root.Nested → s.1.graph.Covers n.span
  target s v := v < s.1.graph.vertices.size
  refers_later h hn hnest := h.grows.graph.covers (hn hnest)
  target_later h hv := h.grows.graph.lt_size hv
  declared {s _ _ _} h := s.2.bindings.declarationOf? h
  chained {s _ _ _ _} h hd := (s.2.bindings.lookupChain? h).declaration_lt hd
  resolved {s _ _ _ _} h hd := (s.2.bindings.resolvePrefix? h).declaration_lt hd
  relate {s _ _ _} hn hv hkind :=
    (outcome_relate s.2 hn hv (RelationKind.ne_decl_of_isReference hkind)).does

theorem outcome_namedCallee {declared : Node → Prop} {s : { b : Builder // b.Valid root }}
    {source : String} {n callee : Node} {scope : ScopeId} {count : Nat} {chain : List String}
    {fallback : RelationKind} (hn : s.1.Ready root n scope) (hcallee : s.1.Ready root callee scope)
    (hkind : fallback.isReference) :
    (outcomes root declared).Does s (namedCallee source n callee scope count chain fallback) [] := by
  refine (naming root declared).namedCallee (outcome_noteLinked s.2 _ _ _).does
    (fun s key site hsite => ?_) (fun s key => (outcome_enqueue s.2 key).does) hn.covered hcallee.covered hkind
  obtain ⟨x, hx, -⟩ := StatementGraph.exists_of_findVertex? hsite
  exact (outcome_noteCall s.2 key (StatementGraph.lt_size_of_vertex? hx)).does

/-- What a visit of a member of a class comes upon is met in the class. -/
theorem met_classPart {visit : Visit} {n body c d : Node} (hn : n ∈ root.nodes)
    (hvisit : IsClassVisit visit n) (hbody : n.child? .body = some body) (hc : c ∈ body.children)
    (hd : Met root .member c d) : Met root visit n d := by
  have hmem := mem_children_of_child? hbody
  -- The body is no heritage, so its parts are visited as members.
  have hbelow (hroot : root.Grammatical) : visit.below n.kind body.kind = .members := by
    rw [hvisit.below, Visit.ofClassPart,
      if_neg ((hroot n hn).body hvisit.isClass body hmem (field_of_child? hbody))]
  have hd' : Met root .members body d := hd.child hc (fun _ => rfl) fun _ => rfl
  exact hd'.child hmem (fun _ => hvisit.defers) hbelow

/-- **The outcomes of the steps of an expression.** A node is visited where it can be, and the callables
that the visit comes upon are declared. -/
def outcomeWalk (root : Node) (declared : Node → Prop) (source : String) (scope : ScopeId) :
    Walk (outcomes root declared) source scope where
  held s visit n := s.1.Ready root n scope ∧ ∀ d, Met root visit n d → declared d
  backs s owner n := s.1.Holds root owner n
  placed s v := v < s.1.graph.vertices.size
  known := root.HasCallable
  formed shape s := SoundShape root shape s.1
  held_later h hv := ⟨hv.1.mono h.grows, hv.2⟩
  backs_later h howner := Holds.mono howner h.grows
  formed_later h hshape := ValueShape.Sound.mono hshape h.grows.graph.size_le
  backs_placed howner := Holds.lt_size howner
  backs_below hv howner hm := Holds.descend howner hv.1.mem hm
  part hv hreads hplain hc := by
    refine ⟨hv.1.child hc, fun d hd => hv.2 d ?_⟩
    have hd' := hd.part (fun _ => hplain) hc
    rcases hreads with rfl | ⟨rfl, hmethod⟩
    · exact hd'
    · exact hd'.member hmethod
  objectPart hv hreads hkind hc := by
    refine ⟨hv.1.child hc, fun d hd => hv.2 d ?_⟩
    have hd' := hd.objectPart hkind hc
    rcases hreads with rfl | ⟨rfl, hmethod⟩
    · exact hd'
    · exact hd'.member hmethod
  argument {_ _ n list c} hv hreads hplain hlist hc := by
    have hmem := mem_children_of_child? hlist
    refine ⟨(hv.1.child hmem).child hc, fun d hd => hv.2 d ?_⟩
    -- The arguments stand in a list of their own, which is no value.
    have hd' := (hd.part (fun hroot => Kind.isPlain_of_not_isEnclosure <| (hroot n hv.1.mem).list list
      hmem (by rw [field_of_child? hlist]; rfl)) hc).part (fun _ => hplain) hmem
    rcases hreads with rfl | ⟨rfl, hmethod⟩
    · exact hd'
    · exact hd'.member hmethod
  base hv hvisit hmem hk hc := by
    refine ⟨(hv.1.child hmem).child hc, fun d hd => hv.2 d ?_⟩
    exact (hd.part (fun _ => by rw [hk]; rfl) hc).child hmem (fun _ => hvisit.defers)
      fun _ => by rw [hvisit.below, hk]; rfl
  classPart {_ visit n body c} hv hvisit hbody hc _ := by
    have hmem := mem_children_of_child? hbody
    refine ⟨(hv.1.child hmem).child hc, fun d hd => hv.2 d ?_⟩
    exact met_classPart hv.1.mem hvisit hbody hc hd
  reference hv _ _ hkind := (naming root declared).reference hv.1.covered
    (by rcases hkind with rfl | rfl <;> rfl)
  memberReference hv _ _ hkind := (naming root declared).memberReference hv.1.covered
    (by rcases hkind with rfl | rfl | rfl <;> rfl)
  pattern hv _ := (naming root declared).patternReferences hv.1.covered
  call hv _ _ _ htarget _ _ := outcome_namedCallee hv.1 htarget.1 rfl
  memberCall hv _ _ _ htarget _ _ := outcome_namedCallee hv.1 htarget.1 rfl
  passed hv _ := (naming root declared).argumentReference hv.1.covered
  found {s _ n _} _ _ hfound := by
    obtain ⟨vertex, hvertex, hc⟩ := StatementGraph.exists_of_findVertex? hfound
    exact ⟨vertex, hvertex, fun _ => hc⟩
  lost _ _ _ _ := Outcome.does (.pure (Subtype.prop _) trivial)
  enqueue key := (outcome_enqueue (Subtype.prop _) key).does
  register hv hdefers howner :=
    (outcome_register (Subtype.prop _) hv.1 (Visit.isCallable_of_defers hdefers).1 howner
      (.inr (hv.2 _ (.self hdefers)))).to_logic fun _ _ hkey => hkey
  method {s visit n body c owner} hv hvisit hbody hc hkind howner := by
    have hmem := mem_children_of_child? hbody
    have hdesc : c ∈ n.descendants := mem_descendants_of_child hmem (child_mem_nodes hc)
    refine (outcome_classMethod s.2 source ((hv.1.child hmem).child hc) hkind
      ⟨n, hv.1.mem, hdesc, .inr (Kind.isCallable_of_isClass hvisit.isClass), howner⟩ (hv.2 c ?_)).to_logic
        fun _ _ hpost => hpost
    exact met_classPart hv.1.mem hvisit hbody hc (.self (by rw [hkind]; rfl))
  registerClass {s visit n owner} hv hvisit howner := by
    have hcallable := Kind.isCallable_of_isClass hvisit.isClass
    exact (outcome_registerClass s.2 hv.1 hcallable hvisit.isClass howner).to_logic fun _ _ _ =>
      ⟨n, Node.mem_callables.2 ⟨hv.1.mem, hcallable⟩, rfl⟩
  store _ _ _ _ _ hshape howner :=
    (outcome_storeShape (Subtype.prop _) scope _ hshape howner).does
  formed_plain := by
    rintro s ⟨callable, members, origin⟩ rfl rfl
    exact ValueShape.sound_origin origin
  formed_callable hshape hkey := ValueShape.Sound.withCallable hshape hkey
  formed_lookup {s _ _} name _ := ValueShape.sound_ofBinding fun _ hx => s.2.bindings.lookup? hx
  formed_bind hshape hvalue howner :=
    ValueShape.Sound.withMember hshape rfl (ValueShape.Sound.bind hvalue _ howner)
  formed_method hshape hvertex hkey :=
    ValueShape.Sound.withMember hshape rfl (sound_declaredCallable hvertex hkey)

theorem outcome_expression (source : String) {n : Node} {scope : ScopeId} (hb : b.Valid root)
    (hready : b.Ready root n scope) :
    Outcome root (Met root .resolve n) b (expression source n scope) Anything :=
  .of_logic hb ((outcomeWalk root _ source scope).expression ⟨hready, fun _ h => h⟩)

end Build

end DeadCode
