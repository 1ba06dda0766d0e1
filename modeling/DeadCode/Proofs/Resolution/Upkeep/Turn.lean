import DeadCode.Proofs.Resolution.Upkeep.Statement

/-! # Declarations that establish an invariant

A declaration declares its names one after another. An invariant that says of one of the names that
it is bound holds from that name's turn on; up to there a weaker one is kept, and both are kept by
the other names. -/

namespace DeadCode

namespace Build

open Builder Node

/-- **Declaring a name leads from one invariant to another**: where a declaration declares it in a
scope, or leaves it to a function that has it already. All other names of the declaration keep both
invariants. -/
structure TurnUpkeep (source : String) (root : Node) (host : ScopeId)
    (region within standing : Node → Prop) (d : Node) (name : String) (scope : ScopeId)
    (inv inv' : Builder → Prop) : Prop where
  before : NameUpkeep source root host region within standing inv
  after : NameUpkeep source root host region within standing inv'
  bind : ∀ (b : Builder) v binding hoist target scopes, inv b → b.StandsFor v d →
    binding.declaration = some v → binding.name = name →
    b.scopes.declare scope binding hoist = .ok (target, scopes) → inv' { b with scopes }
  held : ∀ (b : Builder) target, inv b → b.scopes.hoistTarget scope = .ok target →
    (b.scopes.local? target name).any (·.callable.isSome) → inv' b

namespace TurnUpkeep

variable {source name : String} {root d : Node} {host scope : ScopeId}
  {region within standing : Node → Prop} {inv inv' : Builder → Prop} {b : Builder} {v : VertexId}
  (h : TurnUpkeep source root host region within standing d name scope inv inv')

include h

theorem declare (hb : inv b) {binding : Binding} (hname : binding.name = name)
    (hdeclaration : binding.declaration = some v) (hv : b.StandsFor v d) (hoist : Hoist) :
    Keeps inv' b (Build.declare scope binding hoist) Anything :=
  .of_declare fun _ _ hdeclare => h.bind b v binding hoist _ _ hb hv hdeclaration hname hdeclare

theorem hoistVar (hb : inv b) (hv : b.StandsFor v d) (hasValue : Bool) :
    Keeps inv' b (Build.hoistVar scope name v hasValue) Anything := by
  refine .bind_get ?_
  dsimp only
  split
  · exact .throw
  · next target htarget =>
    split
    · next hfunction =>
      exact .pure (h.held b target hb htarget (Bool.and_eq_true_iff.1 hfunction).1) trivial
    · exact h.declare hb rfl rfl hv .hoisted

/-! ## In the hoisting pass -/

/-- **Hoisting the names of the declaration leads to the other invariant.** -/
theorem hoistHere {topLevel : Bool} {g : HoistedName} (hd : within d)
    (hhere : d.hoistsHere source topLevel) (hg : g ∈ d.ownHoistedNames source) (hname : g.name = name)
    (hvertex : Keeps inv b (Build.statementVertex source d scope) fun v b' => b'.StandsFor v d) :
    Keeps inv' b (Build.hoistHere source d scope topLevel) Anything := by
  rw [Build.hoistHere, if_pos hhere]
  refine hvertex.turn fun vertex b₁ h₁ hv => .forM_turn hg h₁.holds
    (fun other hother b₂ h₂ => h.before.hoistName h₂.holds hd hhere (hv.mono h₂.grows) hother)
    (fun b₂ h₂ => ?_)
    fun other hother b₂ h₂ => h.after.hoistName h₂.holds hd hhere (hv.mono h₂.grows) hother
  obtain ⟨node, other, sort⟩ := g
  obtain ⟨rfl, -⟩ := of_mem_ownHoistedNames hhere hg
  obtain rfl : other = name := hname
  have hv₂ := hv.mono h₂.grows
  cases sort with
  | function =>
    refine (h.before.keeps_register h₂.holds (h.before.region_of_within node hd)).turn
      fun key b₃ h₃ _ => ?_
    exact h.declare h₃.holds rfl rfl (hv₂.mono h₃.grows) .hoisted
  | var hasValue => exact h.hoistVar h₂.holds hv₂ hasValue
  | imported origin => exact h.declare h₂.holds rfl rfl hv₂ .hoisted

/-! ## In the linking pass -/

theorem classDeclaration (hd : within d) (hb : inv b)
    (hform : d.kind.form? = some .classDecl) (hv : b.StandsFor v d)
    (hname : d.name? source = some name) :
    Keeps inv' b (Build.classDeclaration source d scope v) Anything := by
  refine (h.before.classShape (isClassVisit_of_form hform) (h.before.region_of_within d hd) hb).turn
    fun shape b₁ h₁ _ => ?_
  rw [hname]
  exact h.declare h₁.holds rfl rfl (hv.mono h₁.grows) .lexical

theorem declarator (hd : within d) (hpatterns : root.PatternsFit)
    (hstanding : scope = host → standing d) (hform : d.kind.form? = some .lexicalDecl) (hb : inv b)
    (hv : b.StandsFor v d) {declarator pattern : Node} (hdeclarator : declarator ∈ d.declarators)
    (hpattern : declarator.child? .name = some pattern)
    (hname : name ∈ pattern.patternNames source) :
    Keeps inv' b (Build.declarator source declarator scope v false) Anything := by
  have hmem : declarator ∈ d.namedChildren := (List.mem_filter.1 hdeclarator).1
  have hregion : region declarator :=
    h.before.named (h.before.region_of_within d hd) hmem
  unfold Build.declarator
  refine (Keeps.forM_option hb fun value hvalue =>
    h.before.expression (h.before.field hregion hvalue) hb).turn fun _ b₁ h₁ _ => ?_
  have hv₁ := hv.mono h₁.grows
  rw [hpattern]
  dsimp only
  split
  · next hkind =>
    rw [patternNames_of_name (.inl hkind), Option.mem_toList] at hname
    rw [hname]
    cases hvalue : declarator.child? .value with
    | none => exact h.declare h₁.holds rfl rfl hv₁ .lexical
    | some value =>
      refine (h.before.valueShape (h.before.field hregion hvalue) h₁.holds).turn
        fun shape b₂ h₂ _ => ?_
      exact h.declare h₂.holds rfl rfl (hv₁.mono h₂.grows) .lexical
  · -- The names of the pattern are declared one after another, with their keys.
    have hnode : pattern ∈ root.nodes :=
      mem_nodes_trans (child_mem_nodes (mem_children_of_child? hpattern))
        (mem_nodes_trans (child_mem_nodes (mem_children_of_namedChildren hmem))
          (h.before.mem_nodes d hd))
    rw [← map_fst_patternKeys hpatterns hnode] at hname
    obtain ⟨entry, hentry, rfl⟩ := List.mem_map.1 hname
    have hnames {other : String × Option String} (hother : other ∈ pattern.patternKeys source) :
        other.1 ∈ d.statementNames source :=
      mem_statementNames_of_declarator (.inl hform) hdeclarator hpattern
        (mem_declaredNames_of_patternKeys hother)
    refine .forM_turn hentry h₁.holds (fun other hother b₂ h₂ => ?_) (fun b₂ h₂ => ?_)
      fun other hother b₂ h₂ => ?_
    · exact h.before.declareLexical h₂.holds hd hstanding (by rw [hform]; rfl)
        (hv₁.mono h₂.grows) rfl (hnames hother)
    · exact h.declare h₂.holds rfl rfl (hv₁.mono h₂.grows) .lexical
    · exact h.after.declareLexical h₂.holds hd hstanding (by rw [hform]; rfl)
        (hv₁.mono h₂.grows) rfl (hnames hother)

theorem variableDeclaration (hd : within d) (hpatterns : root.PatternsFit)
    (hstanding : scope = host → standing d)
    (hform : d.kind.form? = some .lexicalDecl) (hb : inv b) (hv : b.StandsFor v d)
    (hname : name ∈ d.declaratorNames source) :
    Keeps inv' b (Build.variableDeclaration source d scope v false) Anything := by
  obtain ⟨declarator, hdeclarator, hname⟩ := List.mem_flatMap.1 hname
  cases hpattern : declarator.child? .name with
  | none => simp [hpattern] at hname
  | some pattern =>
    rw [hpattern] at hname
    refine .forM_turn hdeclarator hb (fun other hother b₁ h₁ => ?_) (fun b₁ h₁ => ?_)
      fun other hother b₁ h₁ => ?_
    · exact h.before.declarator h₁.holds hd hstanding false hform (hv.mono h₁.grows) hother
    · exact h.declarator hd hpatterns hstanding hform h₁.holds (hv.mono h₁.grows) hdeclarator
        hpattern hname
    · exact h.after.declarator h₁.holds hd hstanding false hform (hv.mono h₁.grows) hother

/-- **Linking a class, `let` or `const` declaration leads to the other invariant.** -/
theorem statement (hd : within d) (hpatterns : root.PatternsFit)
    (hstanding : scope = host → standing d)
    (hvertex : Keeps inv b (Build.statementVertex source d scope) fun v b' => b'.StandsFor v d)
    (hhoisted : ¬ d.kind.form?.any Form.isHoisted) (hname : name ∈ d.boundNames source)
    (owner : Option VertexId) : Keeps inv' b (Build.statement source d scope owner) Anything := by
  have howner {b' : Builder} (hb' : inv b') (v : VertexId) :
      Keeps inv b' (owner.forM fun owner => connect owner v { kind := .decl }) Anything :=
    .forM_option hb' fun _ _ => h.before.keeps_own hb' _ _
  unfold boundNames at hname
  split at hname
  · next hform => simp [hform, Form.isHoisted] at hhoisted
  · next hform =>
    rw [Build.statement, hform]
    refine hvertex.turn fun v b₁ h₁ hv => (howner h₁.holds v).turn fun _ b₂ h₂ _ => ?_
    exact h.classDeclaration hd h₂.holds hform (hv.mono h₂.grows) (Option.mem_toList.1 hname)
  · next hform =>
    rw [Build.statement, hform]
    refine hvertex.turn fun v b₁ h₁ hv => (howner h₁.holds v).turn fun _ b₂ h₂ _ => ?_
    exact h.variableDeclaration hd hpatterns hstanding hform h₂.holds (hv.mono h₂.grows) hname
  · next hform => simp [hform, Form.isHoisted] at hhoisted
  · cases hname

end TurnUpkeep

end Build

end DeadCode
