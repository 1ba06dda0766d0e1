import DeadCode.Proofs.Resolution.Arranged

/-! # Expressions keep statements arranged

An expression is resolved in the course of the statement that holds it, so what it uses is used by
that statement, and the callables and classes in it belong to that statement. -/

namespace DeadCode

namespace Build

open Builder Node

/-! ## Single steps -/

section Single

variable {source : String} {root o n : Node} {b : Builder} {visit : Visit} {scope : ScopeId}
  {owner : VertexId}

theorem steady_arranged : Steady (Arranged source root) :=
  fun _ _ hb hgraph _ hcallables => hb.of_eq hgraph hcallables

theorem relatable_arranged (hroot : root.Regular) (hn : b.Held source root visit o n)
    (hvisit : visit = .resolve ∨ visit = .member) (hrefers : n.Refers) :
    Relatable (Arranged source root) b n := by
  intro b' hb' u v relation id graph hkind hfound hconnect
  refine hb'.holds.connect hconnect
    (fun h => absurd h (RelationKind.ne_decl_of_isReference hkind)) fun hnames _ _ => ?_
  obtain ⟨w, hw, hstands⟩ := hb'.holds.findVertex? (hn.later hb') hroot.spaced hvisit
    (hnames.refers n hn.way.mem_nodes hrefers)
  obtain rfl : u = w := Option.some.inj (hfound.symm.trans hw)
  exact ⟨o, hn.seated, hstands, hn.exposes hnames⟩

/-- The statement around what is held is its holder. -/
theorem backs_of_findVertex? (hroot : root.Regular) (hb : b.Arranged source root)
    (hn : b.Held source root visit o n) (hvisit : visit = .resolve ∨ visit = .member)
    (hfound : b.graph.findVertex? n.span = some owner) : b.Backs owner o n := by
  intro hne
  obtain ⟨v, hv, hstands⟩ := hb.findVertex? hn hroot.spaced hvisit hne
  obtain rfl : owner = v := Option.some.inj (hfound.symm.trans hv)
  exact hstands

theorem arranged_statementVertex (hb : b.Arranged source root) (hn : Seated root n) :
    Keeps (Arranged source root) b (statementVertex source n scope) fun v b' => b'.StandsFor v n :=
  (Keeps.of_addVertex (hb.addVertex hn rfl id)).imp fun _ _ _ h => h.2

/-- A statement may own what is seated in it. -/
theorem arranged_own (hb : b.Arranged source root) {u v : VertexId} (hu : b.StandsFor u o)
    (hv : b.StandsFor v n) (hseated : Seated root n) (howner : Owner root o n) :
    Keeps (Arranged source root) b (connect u v { kind := .decl }) Anything :=
  .of_connect fun _ _ hconnect =>
    hb.connect hconnect (fun _ => ⟨rfl, o, n, hu, hv, hseated, howner⟩) fun _ hkind => absurd rfl hkind

theorem arranged_addScope (hb : b.Arranged source root) (parent : ScopeId) (kind : ScopeKind) :
    Keeps (Arranged source root) b (addScope parent kind) Anything :=
  .of_addScope fun _ _ _ => hb.of_eq rfl rfl

theorem arranged_declare (hb : b.Arranged source root) (binding : Binding) (hoist : Hoist) :
    Keeps (Arranged source root) b (declare scope binding hoist) Anything :=
  .of_declare fun _ _ _ => hb.of_eq rfl rfl

theorem arranged_declareNames (hb : b.Arranged source root) (names : List String)
    (vertex : VertexId) :
    Keeps (Arranged source root) b (declareNames scope names vertex) Anything :=
  .forM hb fun _ _ _ hb' => arranged_declare hb'.holds _ _

theorem arranged_hoistVar (hb : b.Arranged source root) (name : String) (vertex : VertexId)
    (hasValue : Bool) :
    Keeps (Arranged source root) b (hoistVar scope name vertex hasValue) Anything := by
  refine .bind_get ?_
  dsimp only
  split
  · exact .throw
  · split
    · exact .pure hb trivial
    · exact arranged_declare hb _ _

theorem arranged_register (hb : b.Arranged source root) (hn : b.Deferred source root n owner) :
    Keeps (Arranged source root) b (register n scope owner) fun key _ => key = n.key :=
  .of_register (hb.register fun _ => hn)

theorem arranged_storeShape (hb : b.Arranged source root) (chain : List String)
    (shape : ValueShape) :
    Keeps (Arranged source root) b (storeShape scope chain shape owner) Anything := by
  unfold storeShape
  split
  · exact .pure hb trivial
  · exact .of_updateDeclared (hb.of_eq rfl rfl)
  · exact .of_updateDeclared (hb.of_eq rfl rfl)

/-- A method of a class is owned by the statement that holds the class, and registered with its
own. -/
theorem arranged_classMethod (hb : b.Arranged source root) (hseated : Seated root n)
    (hway : Way root .member n) (hkind : n.kind = .methodDefinition)
    (howner : b.StandsFor owner o) (hown : Owner root o n) :
    Keeps (Arranged source root) b (classMethod source n scope owner) Anything := by
  have hvertex : Keeps (Arranged source root) b (methodVertex source n scope) fun v b' =>
      b'.StandsFor v n :=
    (Keeps.of_addVertex (hb.addVertex hseated rfl fun h => Bool.noConfusion h)).imp fun _ _ _ h => h.2
  refine hvertex.bind fun vertex b₁ h₁ hstands => ?_
  refine (arranged_own h₁.holds (howner.mono h₁.grows) hstands hseated hown).andThen
    fun _ b₂ h₂ => ?_
  have hstands₂ := hstands.mono h₂.grows
  refine (arranged_register h₂.holds ⟨.member, n, .self hway hseated hstands₂ ?_, ?_,
    fun _ => hstands₂⟩).andThen fun _ b₃ h₃ => .pure h₃.holds trivial
  · intro _ hexport
    rw [hkind] at hexport
    cases hexport
  · rw [hkind]
    rfl

end Single

/-! ## Expressions -/

/-- **The steps of an expression keep the statements arranged**, in the course of the statement that
holds the expression. -/
def arrangedWalk {root : Node} (hroot : root.Regular) (source : String) (o : Node)
    (scope : ScopeId) : Walk (keeping (Arranged source root)) source scope where
  held s visit n := s.1.Held source root visit o n
  backs s owner n := s.1.Backs owner o n
  placed _ _ := True
  known _ := True
  formed _ _ := True
  held_later h hn := Held.later hn h
  backs_later h howner := Backs.later howner h
  formed_later _ _ := trivial
  backs_placed _ := trivial
  backs_below hn howner hm hne :=
    howner (hne.of_contains (hroot.spaced.laid.nested.contains hn.way.mem_nodes hm))
  part hn hreads hplain hc := hn.part hroot.spaced hreads hplain hc
  objectPart hn hreads hkind hc := hn.objectPart hroot.spaced hreads hkind hc
  argument {_ _ n list _} hn hreads hplain hlist hc := by
    have hmem := mem_children_of_child? hlist
    -- A list of arguments is no value of its own, so its parts are expressions.
    exact (hn.part hroot.spaced hreads hplain hmem).part hroot.spaced (.inl rfl)
      (Kind.isPlain_of_not_isEnclosure ((hroot.grammatical n hn.way.mem_nodes).list list hmem
        (by rw [field_of_child? hlist]; rfl))) hc
  base hn hvisit hmem hk hc := by
    have hheritage := hn.classPart hroot.spaced hvisit hmem
    rw [Visit.ofClassPart, if_pos hk] at hheritage
    exact hheritage.part hroot.spaced (.inl rfl) (by rw [hk]; rfl) hc
  classPart hn hvisit hbody hc hmethod :=
    (hn.classBody hroot hvisit hbody).child hroot.spaced hc hmethod
  reference hn hreads hspells hkind := (relating _).reference
    (relatable_arranged hroot hn hreads.visit_eq (.inl hspells))
    (by rcases hkind with rfl | rfl <;> rfl)
  memberReference hn hreads hk hkind := (relating _).memberReference
    (relatable_arranged hroot hn hreads.visit_eq (.of_member hk))
    (by rcases hkind with rfl | rfl | rfl <;> rfl)
  pattern hn hspells := (relating _).patternReferences
    (relatable_arranged hroot hn (.inl rfl) (.inl hspells))
  call hn hreads hcall _ htarget hk _ := keeps_namedCallee steady_arranged.inCalls
    (relatable_arranged hroot hn hreads.visit_eq (.of_call hcall))
    (relatable_arranged hroot htarget (.inl rfl) (.inl (.inl hk))) rfl
  memberCall hn hreads hcall _ htarget hk _ := keeps_namedCallee steady_arranged.inCalls
    (relatable_arranged hroot hn hreads.visit_eq (.of_call hcall))
    (relatable_arranged hroot htarget (.inl rfl) (.of_member hk)) rfl
  passed hn hk := (relating _).argumentReference
    (relatable_arranged hroot hn (.inl rfl) (.inl (.inl hk)))
  found {s _ _ _} hn hvisit hfound := backs_of_findVertex? hroot s.2 hn hvisit hfound
  lost {s _ _} _ _ _ _ := Keeps.does (.pure s.2 trivial)
  enqueue {s} key := (keeps_enqueue steady_arranged.inCalls s.2 key).does
  register {s _ _ _} hn hdefers howner := (arranged_register s.2 ⟨_, o, hn, hdefers, howner⟩).to_logic
    fun _ _ hkey => ⟨hkey, trivial⟩
  method {s _ _ _ _ _} hn hvisit hbody hc hkind howner := by
    have hbody' := hn.classBody hroot hvisit hbody
    have hseated : Seated root _ := ⟨.members, _, hbody'.way, hc, hkind⟩
    have hne := hseated.nonempty hroot.spaced
    refine Keeps.to_logic (arranged_classMethod s.2 hseated (hbody'.way.child hc) hkind
      ?_ (hbody'.owner hroot.spaced hc hne)) fun _ _ _ => ⟨trivial, trivial⟩
    exact ((howner.child hroot.spaced hn.way.mem_nodes (mem_children_of_child? hbody)).child
      hroot.spaced hbody'.way.mem_nodes hc) hne
  registerClass {s _ _ _} _ hvisit _ := by
    refine (Keeps.of_registerClass s.2 fun _ => s.2.register fun hclass => ?_).does
    rw [hvisit.isClass] at hclass
    cases hclass
  store {s _ _ _ _ shape _} _ _ _ _ _ _ _ := (arranged_storeShape s.2 _ shape).does
  formed_plain _ _ := trivial
  formed_callable _ _ := trivial
  formed_lookup _ _ := trivial
  formed_bind _ _ _ := trivial
  formed_method _ _ _ := trivial

/-- **Expressions keep what is arranged.** -/
theorem arranged_expression {source : String} {root o n : Node} {b : Builder} {scope : ScopeId}
    (hroot : root.Regular) (hb : b.Arranged source root) (hn : b.Held source root .resolve o n) :
    Keeps (Arranged source root) b (expression source n scope) Anything :=
  .of_does hb ((arrangedWalk hroot source o scope).expression hn)

end Build

end DeadCode
