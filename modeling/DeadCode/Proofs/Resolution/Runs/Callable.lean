import DeadCode.Proofs.Resolution.Runs.Hoisting
import DeadCode.Proofs.Resolution.Callable

/-! # The leaves of a callable are met

A callable is entered in a scope of its own. Until the functions of its body are hoisted to this scope
only the names of its header can be used there. After that it is as any other scope. -/

namespace DeadCode

open Node

namespace Trace

/-- A callable is being entered: it is the place of a scope, and the functions of all other scopes were
hoisted. -/
structure Entering (source : String) (root : Node) (w : Trace) (scope : ScopeId) (n : Node)
    (owner : VertexId) : Prop where
  quiet : w.Quiet source (some scope)
  lt : scope < w.builder.scopes.size
  pos : 0 < scope
  takes : w.builder.scopes.takesHoisted scope
  mem : n ∈ root.nodes
  place : w.places[scope]? = some ⟨.callable, n⟩
  owner : w.builder.Holds root owner n

/-- The trace with which entering a callable begins: its scope is added. -/
def entered (w : Trace) (key : Key) (callable : Callable) (scopes : ScopeTree) : Trace :=
  { w with
    builder := w.builder.entering key callable scopes
    places := w.places ++ [⟨.callable, callable.node⟩] }

theorem extends_entered {w : Trace} {key : Key} {callable : Callable} {scope : ScopeId}
    {scopes : ScopeTree} (h : w.builder.scopes.addScope callable.scope .function = .ok (scope, scopes)) :
    w.Extends (w.entered key callable scopes) :=
  { Extends.refl w with
    frame := ⟨_, (ScopeTree.frame_of_addScope h).2.2.symm⟩
    places := List.prefix_append _ _
    grounded := fun hw => hw.addScope h }

namespace Entering

variable {source : String} {root n : Node} {w w' : Trace} {scope : ScopeId} {owner : VertexId}

theorem of_calm (hcalm : w.Calm source) (hvalid : w.builder.Valid root) {key : Key}
    {callable : Callable} {scopes : ScopeTree} (hfound : w.builder.callable? key = some callable)
    (hadd : w.builder.scopes.addScope callable.scope .function = .ok (scope, scopes)) :
    (w.entered key callable scopes).Entering source root scope callable.node callable.owner := by
  have hextends : w.Extends (w.entered key callable scopes) := extends_entered hadd
  have hplaced := hvalid.callables _ (Builder.mem_of_callable? hfound)
  have hsize := ScopeTree.size_of_addScope hadd
  obtain ⟨-, rfl, -⟩ := ScopeTree.frame_of_addScope hadd
  refine ⟨⟨?_, fun other hlt hbusy => ?_, hextends.grounded hcalm.grounded⟩, ?_,
    hvalid.scopes.size_pos, ?_,
    (mem_callables.1 hplaced.mem).1, ?_, hplaced.owner.mono hextends.grows⟩
  · change (w.places ++ [_]).length = scopes.size
    rw [List.length_append, hcalm.fits, hsize, List.length_singleton]
  · -- The scopes before the new one were hoisted to.
    refine (hcalm.hoisted other ?_ nofun).mono hextends
    change other < scopes.size at hlt
    have hne : w.builder.scopes.size ≠ other := fun heq => hbusy (congrArg some heq)
    omega
  · change w.builder.scopes.size < scopes.size
    omega
  · exact ScopeTree.takesHoisted_of_addScope hadd
  · change (w.places ++ [_])[w.builder.scopes.size]? = _
    rw [← hcalm.fits, List.getElem?_concat_length]

theorem after (h : w.Entering source root scope n owner) (hw : w.Leads source root w') :
    w'.Entering source root scope n owner where
  quiet := hw.quiet h.quiet
  lt := Nat.lt_of_lt_of_le h.lt hw.grows.size_le
  pos := h.pos
  takes := ScopeTree.takesHoisted_of_frame hw.grows.frame h.takes
  mem := h.mem
  place := hw.grows.place h.place
  owner := h.owner.mono hw.grows.grows

theorem binds (h : w.Entering source root scope n owner) {binding : Binding}
    (hname : binding.name ∈ n.otherNames source) (hdeclaration : binding.declaration = some owner) :
    w.Binds source root scope binding .lexical :=
  .header h.mem hname hdeclaration h.owner h.place

theorem visits (h : w.Entering source root scope n owner) (hnested : root.Nested) :
    w.Visits source root scope none .callable n where
  mem := h.mem
  reached := ⟨_, h.place, .refl⟩
  opened := {
    lt := h.lt
    primed := by
      intro outer houter
      by_cases heq : outer = scope
      · exact .inr ⟨rfl, heq, by rw [heq]; exact h.pos⟩
      · have hlt := Nat.lt_of_le_of_lt (ScopeTree.le_of_mem_chain houter) h.lt
        exact .inl (h.quiet.hoisted outer hlt fun h => heq (Option.some.inj h).symm)
    during := nofun
    grounded := h.quiet.grounded }
  covered := h.owner.covers hnested

end Entering

end Trace

namespace Build

open Trace

variable {source : String} {root : Node} {w : Trace} {key : Key} {callable : Callable}
  {scope : ScopeId}

/-! ## The header -/

theorem acts_ownNames (h : w.Entering source root scope callable.node callable.owner) :
    Acts source root w (ownNames source key callable scope) := by
  unfold ownNames
  split
  · exact .pure
  refine .bind (.forM fun name hname w' _ =>
    acts_declare (.implicit hname) (Binding.rooted_placeholder name)) fun _ w₁ h₁ => ?_
  split
  · next hliteral =>
    refine .forM_option fun name hname => acts_declare ((h.after h₁).binds ?_ rfl)
      (Binding.rooted_declared name callable.owner)
    change name ∈ _
    generalize hk : callable.node.kind = kind at hliteral
    refine List.mem_append_right _ ?_
    cases kind <;> simp [Kind.isFunctionLiteral, hk, hname] at hliteral ⊢
  · exact .pure

theorem comes_parameters (hnested : root.Nested) (hroot : root.Grammatical)
    (h : w.Entering source root scope callable.node callable.owner) :
    Comes source root w Anywhere (parameters source callable scope)
      (callable.node.parameters?.toList.flatMap fun parameters =>
        parameters.namedChildren.flatMap fun parameter =>
          ((defaultValue? parameter).map (expressionLeaves source)).getD []) := by
  unfold parameters
  cases hparameters : callable.node.parameters? with
  | none => exact Logic.Does.ret
  | some parameters =>
    obtain ⟨hmem, hfield⟩ := mem_children_of_parameters? hparameters
    -- The list of parameters is no value and no block, so its parts are expressions.
    have hlist : ¬ parameters.kind.isEnclosure :=
      (hroot callable.node h.mem).list parameters hmem hfield
    rw [Option.toList_some, List.flatMap_singleton]
    refine Logic.after (Runs.to_logic (acts_declareNames fun name hname w' hw =>
      (h.after hw).binds ?_ rfl)) fun _ w₁ h₁ _ => ?_
    · change name ∈ _
      simp [otherNames, parameterNames, hparameters, hname]
    refine Logic.forM fun parameter hparameter w₂ h₂ => Logic.forM_option fun value hvalue => ?_
    have hparameter' := mem_children_of_namedChildren hparameter
    obtain ⟨hvalue', hplain⟩ := mem_children_of_defaultValue? hvalue
    have hparameters' := ((h.after (h₁.trans h₂)).visits hnested).child hnested rfl hmem
    rw [Visit.below_callable hlist] at hparameters'
    have hpart := hparameters'.part hnested (.inl rfl)
      (Kind.isPlain_of_not_isEnclosure hlist) hparameter'
    exact comes_expression hnested hroot (hpart.part hnested (.inl rfl) hplain hvalue')

/-! ## The body -/

/-- **The body of a callable** is linked, and then the functions of all scopes are hoisted. -/
theorem runs_body (hnested : root.Nested) (hroot : root.Grammatical)
    (h : w.Entering source root scope callable.node callable.owner) :
    Runs source root w (body source key callable scope) fun _ w' => w'.Calm source ∧
      w'.Came Anywhere (match callable.node.child? .body with
        | some body =>
          if body.kind = .statementBlock then bodyLeaves source body
          else expressionLeaves source body
        | none => []) := by
  unfold body
  cases hbody : callable.node.child? .body with
  | none =>
    refine Runs.pure ⟨h.quiet.calm h.place fun f hf => ?_, fun _ hleaf => absurd hleaf List.not_mem_nil⟩
    simp [ScopePlace.hoists, hbody] at hf
  | some body =>
    refine Runs.bind_get (Runs.bind (runs_note rfl rfl rfl rfl ⟨rfl, rfl⟩) fun _ w₁ h₁ _ => ?_)
    have h' := h.after h₁
    -- The last step only notes which callable is linked again.
    have hend {leaves : List Leaf} {w₂ : Trace} (hcalm : w₂.Calm source)
        (hcame : w₂.Came Anywhere leaves) :
        Runs source root w₂ (modify ({ · with current := w.builder.current })) fun _ w' =>
          w'.Calm source ∧ w'.Came Anywhere leaves :=
      (runs_note rfl rfl rfl rfl ⟨rfl, rfl⟩).imp fun _ w₃ h₃ _ => ⟨h₃.calm hcalm, hcame.mono h₃.grows⟩
    dsimp only
    split
    · next hkind =>
      rw [← bind_assoc]
      refine Runs.bind (runs_wholeBody hnested hroot h'.quiet h'.takes h'.place
        (mem_nodes_trans (child_mem_nodes (mem_children_of_child? hbody)) h.mem)
        (fun c hc => .body rfl hbody hkind hc) ?_ false _) fun _ w₂ _ hpost => hend hpost.1 hpost.2
      simp [ScopePlace.hoists, hbody, hkind]
    · next hkind =>
      have hcalm : w₁.Calm source := by
        refine h'.quiet.calm h'.place fun f hf => ?_
        simp [ScopePlace.hoists, hbody, hkind] at hf
      have hvisits := (h'.visits hnested).child hnested rfl (mem_children_of_child? hbody)
      rw [show Visit.callable.below callable.node.kind body.kind = .resolve from if_neg hkind] at hvisits
      exact Runs.bind (comes_expression hnested hroot hvisits)
        fun _ w₂ h₂ hcame => hend (h₂.calm hcalm) hcame.1

/-- **Entering a callable meets its leaves**, and in the end the functions of all scopes are hoisted
again. -/
theorem comes_enter (hnested : root.Nested) (hroot : root.Grammatical) {b : Builder}
    {scopes : ScopeTree} (hcalm : w.Calm source) (hvalid : w.builder.Valid root)
    (hfound : w.builder.callable? key = some callable)
    (hadd : w.builder.scopes.addScope callable.scope .function = .ok (scope, scopes))
    (hrun : enter source key w.builder = .ok ((), b)) :
    ∃ w', w'.builder = b ∧ (w.entered key callable scopes).Leads source root w' ∧ w'.Calm source ∧
      w'.Came Anywhere (callableLeaves source callable.node) := by
  have h := Entering.of_calm hcalm hvalid hfound hadd
  rw [enter_apply source hfound hadd] at hrun
  have hruns : Runs source root (w.entered key callable scopes) (do
      ownNames source key callable scope
      parameters source callable scope
      body source key callable scope) fun _ w' => w'.Calm source ∧
        w'.Came Anywhere (callableLeaves source callable.node) := by
    refine Runs.bind (acts_ownNames h) fun _ w₁ h₁ _ => ?_
    refine Runs.bind (comes_parameters hnested hroot (h.after h₁)) fun _ w₂ h₂ hcame₂ => ?_
    refine (runs_body hnested hroot ((h.after h₁).after h₂)).imp fun _ w₃ h₃ hpost => ?_
    exact ⟨hpost.1, List.forall_mem_append.2 ⟨hcame₂.1.mono h₃.grows, hpost.2⟩⟩
  exact hruns () b hrun

end Build

end DeadCode
