import DeadCode.Proofs.Resolution.Steps
import DeadCode.Proofs.Scope.Lookup
import DeadCode.Proofs.Syntax.FileScope

/-! # Names declared by a pattern

A `var` pattern is read twice. Hoisting declares the names of the pattern, and linking declares the
names that are listed with their keys. Where only names have default values in object patterns, both
readings list the same names, so both passes declare the same names on the same scope. -/

namespace DeadCode

theorem ScopeTree.hoistTarget_of_frame_eq {tree tree' : ScopeTree}
    (hframe : tree'.frame = tree.frame) (i : ScopeId) : tree'.hoistTarget i = tree.hoistTarget i := by
  have htakes : tree'.takesHoisted = tree.takesHoisted := by
    funext j
    rw [Bool.eq_iff_iff]
    exact ⟨takesHoisted_of_frame (prefix_of_frame_eq hframe.symm),
      takesHoisted_of_frame (prefix_of_frame_eq hframe)⟩
  have hscope : (tree'.scope? i).isSome = (tree.scope? i).isSome := by
    have h := congrArg Option.isSome (congrArg (·[i]?) hframe)
    simpa [frame_getElem?] using h
  unfold hoistTarget
  rw [chain_of_frame_eq hframe, htakes]
  cases hs : tree.scope? i <;> cases hs' : tree'.scope? i <;> simp [hs, hs'] at hscope ⊢

namespace Builder

variable {b b' b'' : Builder} {scope target : ScopeId} {names names' : List String}

/-- A builder has come to bind names on a scope: scopes and all other names are as before. -/
structure Binds (b : Builder) (target : ScopeId) (names : List String) (b' : Builder) : Prop where
  frame : b'.scopes.frame = b.scopes.frame
  bound : ∀ i name, (b'.scopes.local? i name).isSome ↔
    (b.scopes.local? i name).isSome ∨ i = target ∧ name ∈ names

theorem Binds.trans (h : b.Binds target names b') (h' : b'.Binds target names' b'') :
    b.Binds target (names ++ names') b'' where
  frame := h'.frame.trans h.frame
  bound := by
    intro i name
    rw [h'.bound, h.bound, List.mem_append, and_or_left, or_assoc]

/-- A hoisted declaration in a scope lands on another one. -/
structure Lands (b : Builder) (scope target : ScopeId) : Prop where
  wellFormed : b.scopes.WellFormed
  lt_size : scope < b.scopes.size
  target : b.scopes.hoistTarget scope = .ok target

theorem Lands.of_binds (h : b.Lands scope target) (hbinds : b.Binds target names b') :
    b'.Lands scope target where
  wellFormed := h.wellFormed.of_frame_eq hbinds.frame
  lt_size := ScopeTree.size_of_frame_eq hbinds.frame ▸ h.lt_size
  target := (ScopeTree.hoistTarget_of_frame_eq hbinds.frame scope).trans h.target

end Builder

namespace Build

open Builder

variable {b : Builder} {scope target : ScopeId}

/-- A declaration binds its name where it lands. -/
theorem exists_binds_declare (h : b.Lands scope target) (binding : Binding) :
    ∃ b', declare scope binding .hoisted b = .ok ((), b') ∧ b.Binds target [binding.name] b' := by
  obtain ⟨target', scopes, hdeclare⟩ := h.wellFormed.exists_declare h.lt_size binding .hoisted
  obtain rfl : target' = target :=
    Except.ok.inj ((ScopeTree.landing_of_declare hdeclare).symm.trans h.target)
  refine ⟨{ b with scopes }, ?_, ScopeTree.frame_of_declare hdeclare, fun i name => ?_⟩
  · rw [declare, onScopes_apply, hdeclare]
    rfl
  · rw [ScopeTree.local?_of_declare hdeclare, List.mem_singleton]
    split <;> simp [*]

/-- A name that is left to a function is bound already. -/
theorem exists_binds_hoistVar (h : b.Lands scope target) (name : String) (vertex : VertexId)
    (hasValue : Bool) :
    ∃ b', hoistVar scope name vertex hasValue b = .ok ((), b') ∧ b.Binds target [name] b' := by
  rw [hoistVar, get_bind_apply, h.target]
  dsimp only
  split
  · next hfunction =>
    obtain ⟨x, hx, -⟩ := (Option.any_eq_true _ _).1 (Bool.and_eq_true_iff.1 hfunction).1
    refine ⟨b, rfl, rfl, fun i other => ⟨.inl, ?_⟩⟩
    rintro (hother | ⟨rfl, hother⟩)
    · exact hother
    · rw [List.mem_singleton.1 hother, hx]
      rfl
  · exact exists_binds_declare h _

/-- **Declaring one name after the other binds all of them.** -/
theorem exists_binds_forM {α : Type} {xs : List α} (name : α → String) {visit : α → Build Unit}
    (h : b.Lands scope target)
    (hvisit : ∀ x b, Lands b scope target →
      ∃ b', visit x b = .ok ((), b') ∧ b.Binds target [name x] b') :
    ∃ b', xs.forM visit b = .ok ((), b') ∧ b.Binds target (xs.map name) b' := by
  induction xs generalizing b with
  | nil => exact ⟨b, rfl, rfl, by simp⟩
  | cons x rest ih =>
    obtain ⟨b₁, hfirst, hbinds⟩ := hvisit x b h
    obtain ⟨b₂, hrest, hbinds'⟩ := ih (h.of_binds hbinds)
    refine ⟨b₂, ?_, hbinds.trans hbinds'⟩
    rw [List.forM_eq_forM, List.forM_cons]
    change (visit x b).bind (fun r => rest.forM visit r.2) = _
    rw [hfirst]
    exact hrest

end Build

namespace Node

open Build

/-- **The two readings of a pattern agree.** If only names have default values in the object
patterns of a pattern, the names listed with their keys are the names of the pattern, in the same
order and as often. So both hoisting the pattern and linking it bind these names on the scope that
hoisted declarations land on, and change no other scope or name. -/
theorem patternKeys_agree (source : String) {pattern : Node} (h : pattern.PatternsFit) :
    (pattern.patternKeys source).map Prod.fst = pattern.patternNames source ∧
    ∀ (b : Builder) (scope target : ScopeId) (vertex : VertexId), b.Lands scope target →
      (∀ hasValue, ∃ b', (pattern.patternNames source).forM
          (fun name => hoistVar scope name vertex hasValue) b = .ok ((), b') ∧
        b.Binds target (pattern.patternNames source) b') ∧
      ∀ value, ∃ b', destructure source pattern value scope vertex .hoisted b = .ok ((), b') ∧
        b.Binds target (pattern.patternNames source) b' := by
  have hnames : (pattern.patternKeys source).map Prod.fst = pattern.patternNames source :=
    map_fst_patternKeys h pattern.self_mem_nodes
  refine ⟨hnames, fun b scope target vertex hlands => ⟨fun hasValue => ?_, fun value => ?_⟩⟩
  · obtain ⟨b', hrun, hbinds⟩ := exists_binds_forM id hlands fun name _ hlands =>
      exists_binds_hoistVar hlands name vertex hasValue
    rw [List.map_id] at hbinds
    exact ⟨b', hrun, hbinds⟩
  · rw [← hnames]
    exact exists_binds_forM Prod.fst hlands fun _ _ hlands => exists_binds_declare hlands _

/-- The pattern `{a, b: [c], d = 1, ...a}`. -/
def nestedPattern : Node :=
  .of .objectPattern 0 24
    [.token "\x7b" 0 1, .of .shorthandPropertyIdentifierPattern 1 2, .token "," 2 3,
     .of .pairPattern 4 10
       [.part .key (.of .propertyIdentifier 4 5), .token ":" 5 6,
        .part .value (.of .arrayPattern 7 10
          [.token "[" 7 8, .of .identifier 8 9, .token "]" 9 10])],
     .token "," 10 11,
     .of .objectAssignmentPattern 12 17
       [.part .left (.of .shorthandPropertyIdentifierPattern 12 13), .token "=" 14 15,
        .part .right (.of .numberLiteral 16 17)],
     .token "," 17 18, .of .restPattern 19 23 [.token "..." 19 22, .of .identifier 22 23],
     .token "\x7d" 23 24]

/-- Both readings list the name `a` twice, and linking binds the names on the scope of the file. -/
theorem patternKeys_agree_nestedPattern :
    let source := "\x7ba, b: [c], d = 1, ...a\x7d"
    let b : Builder := { graph := { path := ⟨"a.js"⟩ }, scopes := .ofAmbient [] }
    nestedPattern.PatternsFit ∧ b.Lands 0 0 ∧
      (nestedPattern.patternKeys source).map Prod.fst = ["a", "c", "d", "a"] ∧
      ∃ b', destructure source nestedPattern none 0 7 .hoisted b = .ok ((), b') ∧
        b.Binds 0 ["a", "c", "d", "a"] b' := by
  intro source b
  have hfits : nestedPattern.PatternsFit := by decide
  have hlands : b.Lands 0 0 := ⟨ScopeTree.wellFormed_ofAmbient [], by decide, by decide +kernel⟩
  have hnames : nestedPattern.patternNames source = ["a", "c", "d", "a"] := by decide +kernel
  obtain ⟨hagree, hpasses⟩ := patternKeys_agree source hfits
  rw [hnames] at hagree hpasses
  exact ⟨hfits, hlands, hagree, (hpasses b 0 0 7 hlands).2 none⟩

end Node

end DeadCode
