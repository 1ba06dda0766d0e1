import DeadCode.Proofs.Resolution.Statement
import DeadCode.Resolution.Callable

/-! # What entering a callable can do

Entering a callable notes that it was entered, adds a function scope, and goes on in moves. The
callables that are registered on the way lie strictly inside the one that is entered. -/

namespace DeadCode

namespace Builder

/-- A callable that may be registered while another one is entered: it lies strictly inside. -/
structure Inside (root n d : Node) : Prop where
  inner : d ∈ n.inner
  met : Node.Met root .callable n d

/-- Entering a callable: it is noted with the scope it was declared in and gets a new scope. -/
def entering (b : Builder) (key : Key) (callable : Callable) (scopes : ScopeTree) : Builder :=
  { b with expanded := (key, callable.scope) :: b.expanded, scopes }

variable {root : Node} {b : Builder}

/-- Entering a callable leaves a builder valid. -/
theorem Valid.entering (hb : b.Valid root) {parent scope : ScopeId} {scopes : ScopeTree}
    {key : Key} {callable : Callable}
    (h : b.scopes.addScope parent .function = .ok (scope, scopes)) :
    (b.entering key callable scopes).Valid root := by
  obtain ⟨hparent, -, hframe⟩ := ScopeTree.frame_of_addScope h
  have hsize := Nat.le_of_lt (ScopeTree.lt_size_of_addScope h)
  exact hb.of_grows ⟨.refl _, hsize⟩ (hb.scopes.of_frame_append hparent hframe)
    (hb.bindings.addScope h) (fun x hx => Nat.lt_of_lt_of_le (hb.statements x hx) hsize) rfl rfl rfl

theorem Inside.of_child {n c d : Node} {visit : Visit} (hc : c ∈ n.children)
    (hbelow : root.Grammatical → Visit.callable.below n.kind c.kind = visit)
    (h : Node.Met root visit c d) : Inside root n d where
  inner := by
    obtain ⟨hmem, hkind⟩ := Node.mem_callables.1 h.mem
    exact Node.mem_inner.2 ⟨Node.mem_descendants_of_child hc hmem, hkind⟩
  met := h.child hc (fun _ => rfl) hbelow

end Builder

namespace Build

open Builder Node

variable {root : Node} {b : Builder} {callable : Callable} {key : Key} {scope : ScopeId}

theorem outcome_ownNames {declared : Node → Prop} (hb : b.Valid root) (source : String)
    (hplaced : b.Placed root key callable) (hscope : scope < b.scopes.size) :
    Outcome root declared b (ownNames source key callable scope) Anything := by
  unfold ownNames
  split
  · exact .pure hb trivial
  refine (Outcome.forM hb fun name _ b' hr => outcome_declare hr.valid
    (Nat.lt_of_lt_of_le hscope hr.grows.scopes) (Binding.sound_placeholder name) _).andThen
      fun _ b₁ h₁ => ?_
  split
  · refine .forM_option h₁.valid fun name _ => outcome_declare h₁.valid
      (Nat.lt_of_lt_of_le hscope h₁.grows.scopes) ?_ _
    exact sound_declaredCallable (hplaced.owner.mono h₁.grows).lt_size
      ⟨callable.node, hplaced.mem, hplaced.key⟩
  · exact .pure h₁.valid trivial

theorem mem_children_of_parameters? {n parameters : Node} (h : n.parameters? = some parameters) :
    parameters ∈ n.children ∧ parameters.field.any Field.isList := by
  unfold parameters? at h
  split at h
  · rcases Option.or_eq_some_iff.1 h with h | ⟨-, h⟩
    · exact ⟨mem_children_of_child? h, by rw [field_of_child? h]; rfl⟩
    · exact ⟨mem_children_of_child? h, by rw [field_of_child? h]; rfl⟩
  · cases h

/-- What is no value and no block is visited as an expression in a callable. -/
theorem Visit.below_callable {kind inner : Kind} (h : ¬ inner.isEnclosure) :
    Visit.callable.below kind inner = .resolve :=
  if_neg fun hk => h (by rw [hk]; rfl)

theorem mem_children_of_defaultValue? {parameter value : Node}
    (h : defaultValue? parameter = some value) :
    value ∈ parameter.children ∧ parameter.kind.isPlain := by
  have hmem (h : (parameter.child? .right).or (parameter.child? .value) = some value) :
      value ∈ parameter.children := by
    rcases Option.or_eq_some_iff.1 h with h | ⟨-, h⟩ <;> exact mem_children_of_child? h
  unfold defaultValue? at h
  split at h
  · next hk => exact ⟨hmem h, by rw [hk]; rfl⟩
  · next hk => exact ⟨hmem h, by rw [hk]; rfl⟩
  · next hk => exact ⟨hmem h, by rw [hk]; rfl⟩
  · cases h

/-- Declaring the parameters of a callable. -/
theorem outcome_parameters (hb : b.Valid root) (source : String)
    (hplaced : b.Placed root key callable) (hready : b.Ready root callable.node scope) :
    Outcome root (Inside root callable.node) b (parameters source callable scope) Anything := by
  refine .forM_option hb fun parameters hparameters => ?_
  obtain ⟨hmem, hfield⟩ := mem_children_of_parameters? hparameters
  -- The list of parameters is no value and no block, so its parts are expressions.
  have hlist (hroot : root.Grammatical) : ¬ parameters.kind.isEnclosure :=
    (hroot callable.node hready.mem).list parameters hmem hfield
  refine (outcome_declareNames hb hready.scope hplaced.owner.lt_size _).andThen fun _ b₁ h₁ => ?_
  refine .forM h₁.valid fun parameter hparameter b₂ h₂ => .forM_option h₂.valid fun value hvalue => ?_
  have hparameter' := mem_children_of_namedChildren hparameter
  obtain ⟨hvalue', hplain⟩ := mem_children_of_defaultValue? hvalue
  have hready₂ := ((hready.mono (h₁.trans h₂).grows).child hmem).child hparameter'
  refine (outcome_expression source h₂.valid (hready₂.child hvalue')).weaken
    fun d hd => ?_
  have hpart := (hd.part (fun _ => hplain) hvalue').part
    (fun hroot => Kind.isPlain_of_not_isEnclosure (hlist hroot)) hparameter'
  exact .of_child hmem (fun hroot => Visit.below_callable (hlist hroot)) hpart

theorem outcome_focus {declared : Node → Prop} (hb : b.Valid root) (current : Option Key) :
    Outcome root declared b (modify ({ · with current })) Anything :=
  .of_move hb (.focus current) rfl trivial

/-- Linking the body of a callable. -/
theorem outcome_body (hb : b.Valid root) (source : String) (hplaced : b.Placed root key callable)
    (hready : b.Ready root callable.node scope) :
    Outcome root (Inside root callable.node) b (body source key callable scope) Anything := by
  refine .forM_option hb fun body hbody => .bind_get ?_
  have hmem := mem_children_of_child? hbody
  refine (outcome_focus hb (some key)).andThen fun _ b₁ h₁ => ?_
  have hready₁ := hready.mono h₁.grows
  have hscope₁ := hready₁.scope
  split
  · next hk =>
    have hstatements (c : Node) (hc : c ∈ body.children) (d : Node)
        (hd : Met root (.ofStatement c.kind) c d) : Inside root callable.node d :=
      .of_child hmem (fun _ => by rw [hk]; rfl) (hd.nested (fun _ => by rw [hk]; rfl) hc)
    have hbody' := (hready.child hmem).mem
    refine (outcome_hoistBody h₁.valid source hbody' hscope₁ false hstatements).bind
      fun _ b₂ h₂ _ => ?_
    refine (outcome_linkBody h₂.valid source hbody' (hready₁.mono h₂.grows).scope ?_
      hstatements).andThen fun _ b₃ h₃ => outcome_focus h₃.valid _
    -- The statement that declares the callable owns the statements of its body.
    rintro _ ⟨⟩ c hc
    exact ⟨callable.node, hready.mem, mem_descendants_of_child hmem (child_mem_nodes hc),
      .inr (mem_callables.1 hplaced.mem).2, hplaced.owner.mono (h₁.trans h₂).grows⟩
  · next hk =>
    refine ((outcome_expression source h₁.valid (hready₁.child hmem)).weaken
      fun d hd => ?_).andThen fun _ b₂ h₂ => outcome_focus h₂.valid _
    exact .of_child hmem (fun _ => if_neg hk) hd

theorem enter_apply (source : String) (h : b.callable? key = some callable) {scopes : ScopeTree}
    (hadd : b.scopes.addScope callable.scope .function = .ok (scope, scopes)) :
    enter source key b = (do
      ownNames source key callable scope
      parameters source callable scope
      body source key callable scope : Build Unit) (b.entering key callable scopes) := by
  rw [enter, get_bind_apply, h]
  refine (bind_apply_of_ok (modify_apply _ b) _).trans (bind_apply_of_ok ?_ _)
  rw [addScope, onScopes_apply, hadd]
  rfl

/-- In its new scope a callable is linked by moves that register callables inside it. -/
theorem outcome_entering (hb : b.Valid root) (source : String) (h : b.callable? key = some callable)
    {scopes : ScopeTree} (hadd : b.scopes.addScope callable.scope .function = .ok (scope, scopes)) :
    Outcome root (Inside root callable.node) (b.entering key callable scopes) (do
      ownNames source key callable scope
      parameters source callable scope
      body source key callable scope) Anything := by
  have hplaced := hb.callables _ (mem_of_callable? h)
  have hb₀ : (b.entering key callable scopes).Valid root := hb.entering hadd
  have hscope : b.scopes.size < scopes.size := ScopeTree.lt_size_of_addScope hadd
  obtain ⟨-, rfl, -⟩ := ScopeTree.frame_of_addScope hadd
  have hplaced₀ : (b.entering key callable scopes).Placed root key callable :=
    hplaced.mono ⟨.refl _, Nat.le_of_lt hscope⟩
  have hready₀ : (b.entering key callable scopes).Ready root callable.node b.scopes.size :=
    ⟨(mem_callables.1 hplaced.mem).1, hscope, hplaced₀.owner.covers⟩
  refine (outcome_ownNames hb₀ source hplaced₀ hscope).andThen fun _ b₁ h₁ => ?_
  refine (outcome_parameters h₁.valid source (hplaced₀.mono h₁.grows)
    (hready₀.mono h₁.grows)).andThen fun _ b₂ h₂ => ?_
  exact outcome_body h₂.valid source (hplaced₀.mono (h₁.trans h₂).grows)
    (hready₀.mono (h₁.trans h₂).grows)

/-- **Entering a callable** adds a function scope, and the rest is moves that register callables
inside the one entered. -/
theorem outcome_enter (hb : b.Valid root) (source : String) (h : b.callable? key = some callable) :
    ∃ scope scopes, b.scopes.addScope callable.scope .function = .ok (scope, scopes) ∧
      match enter source key b with
      | .ok (_, b') => (b.entering key callable scopes).Reaches root (Inside root callable.node) b'
      | .error _ => ¬ root.Nested := by
  obtain ⟨scopes, hadd⟩ :=
    ScopeTree.exists_addScope (hb.callables _ (mem_of_callable? h)).scope .function
  refine ⟨_, scopes, hadd, ?_⟩
  have hrest := outcome_entering hb source h hadd
  rw [Outcome, ← enter_apply source h hadd] at hrest
  cases hrun : enter source key b with
  | ok r =>
    rw [hrun] at hrest
    exact hrest.1
  | error e =>
    rw [hrun] at hrest
    exact hrest

end Build

end DeadCode
