import DeadCode.Proofs.Resolution.Runs.Statement

/-! # The functions of a body are hoisted

Before the statements of a body are linked, its function declarations are declared on the scope of the
body, from any depth of nested statements. -/

namespace DeadCode

open Node

namespace Trace

/-- A statement is visited in a scope that takes what is hoisted out of it. -/
structure Hoistable (root : Node) (w : Trace) (scope : ScopeId) (visit : Visit) (n : Node) :
    Prop where
  mem : n ∈ root.nodes
  reached : w.At scope visit n
  takes : w.builder.scopes.takesHoisted scope

namespace Hoistable

variable {root n c : Node} {w w' : Trace} {scope : ScopeId} {visit : Visit}

theorem mono (h : w.Hoistable root scope visit n) (hw : w.Extends w') :
    w'.Hoistable root scope visit n where
  mem := h.mem
  reached := h.reached.mono hw
  takes := ScopeTree.takesHoisted_of_frame hw.frame h.takes

theorem inner (h : w.Hoistable root scope (.ofStatement n.kind) n) (hkind : n.kind.holdsStatements)
    (hc : c ∈ n.children) : w.Hoistable root scope (.ofStatement c.kind) c where
  mem := mem_nodes_trans (child_mem_nodes hc) h.mem
  reached := by
    have hat := h.reached
    rw [Visit.ofStatement_eq_link hkind] at hat
    rw [← Visit.below_link hkind]
    exact hat.child (Visit.defers_link hkind) hc
  takes := h.takes

end Hoistable

/-- Once the functions of the one busy scope are hoisted, those of all scopes are. -/
theorem Quiet.calm {source : String} {w : Trace} {scope : ScopeId} {p : ScopePlace}
    (h : w.Quiet source (some scope)) (hplace : w.places[scope]? = some p)
    (hhoists : ∀ f ∈ p.hoists, (f.name? source).isSome → (f, scope) ∈ w.hoisted) :
    w.Calm source where
  fits := h.fits
  hoisted := by
    intro other hlt _
    by_cases heq : other = scope
    · rw [heq]
      exact ⟨p, hplace, hhoists⟩
    · exact h.hoisted other hlt fun h => heq (Option.some.inj h).symm
  grounded := h.grounded

end Trace

namespace Build

open Trace

variable {source : String} {root n : Node} {w : Trace} {scope : ScopeId}

/-- **A statement binds the names that it hoists.** -/
theorem binds_hoisted {topLevel : Bool} {h : HoistedName} {v : VertexId} {binding : Binding}
    (hn : n ∈ root.nodes) (hhere : n.hoistsHere source topLevel)
    (hmem : h ∈ n.ownHoistedNames source) (hsort : h.sort ≠ .function)
    (hname : binding.name = h.name) (hdeclaration : binding.declaration = some v)
    (hv : w.builder.StandsFor v n) : w.Binds source root scope binding .hoisted := by
  suffices hother : ∃ m ∈ n.nodes, h.name ∈ m.otherNames source by
    obtain ⟨m, hm, hother⟩ := hother
    refine .statement (mem_nodes_trans hm hn) (hname ▸ hother) hdeclaration hv fun hk => ?_
    simp [hoistsHere, hk, Kind.form?] at hhere
  unfold hoistsHere at hhere
  unfold ownHoistedNames at hmem
  split at hmem
  · obtain ⟨name, -, rfl⟩ := List.mem_map.1 hmem
    exact absurd rfl hsort
  · obtain ⟨d, hd, hmem⟩ := List.mem_flatMap.1 hmem
    obtain ⟨name, hmem', rfl⟩ := List.mem_map.1 hmem
    obtain ⟨pattern, hpattern, hmem'⟩ := List.mem_flatMap.1 hmem'
    have hkind : d.kind = .variableDeclarator := by simpa using (List.mem_filter.1 hd).2
    refine ⟨d, child_mem_nodes (mem_children_of_declarators hd), List.mem_append_right _ ?_⟩
    simpa [hkind, Option.mem_toList.1 hpattern] using mem_declaredNames_of_patternNames hmem'
  · next himport =>
    obtain ⟨entry, hentry, rfl⟩ := List.mem_map.1 hmem
    refine ⟨n, self_mem_nodes n, List.mem_append_right _ ?_⟩
    simpa [show n.kind = .importStatement from Kind.eq_of_form himport rfl] using ⟨_, hentry⟩
  · next hloop =>
    obtain ⟨name, hmem', rfl⟩ := List.mem_map.1 hmem
    obtain ⟨left, hleft, hmem'⟩ := List.mem_flatMap.1 hmem'
    rw [hloop] at hhere
    obtain ⟨keyword, hkeyword, -⟩ := Option.bind_eq_some_iff.1 (of_decide_eq_true hhere)
    refine ⟨n, self_mem_nodes n, List.mem_append_right _ ?_⟩
    simpa [show n.kind = .forInStatement from Kind.eq_of_form hloop rfl, hkeyword,
      Option.mem_toList.1 hleft] using hmem'
  · cases hmem

/-- **The steps of hoisting hoist functions.** -/
def historyHoisting (source : String) (root : Node) (scope : ScopeId) :
    Hoisting (histories source root Anywhere) source scope where
  due w n _ := w.Hoistable root scope (.ofStatement n.kind) n
  inside w v n := w.builder.StandsFor v n
  done w n := n.kind.form? = some .functionDecl → (n, scope) ∈ w.hoisted
  due_later h hn := Hoistable.mono hn h.grows
  inside_later h hv := hv.mono h.grows.grows
  done_later h hdone hform := h.grows.hoisted _ (hdone hform)
  nested hn hkind hc := hn.inner (Kind.holdsStatements_of_holdsDirectly hkind)
    (mem_children_of_namedChildren hc)
  carried hn hkind hc := hn.inner (by rw [hkind]; rfl) (mem_children_of_child? hc)
  vertex {w n _} hn hhere := by
    refine (runs_addVertex rfl hn.mem (.inl (.inl ?_)) (fun hfunction => ?_) fun hk => ?_).to_logic
    · cases hform : n.kind.form? with
      | none => simp [hoistsHere, hform] at hhere
      | some form => rfl
    · have hat := hn.reached
      rw [Visit.ofStatement, if_pos (by simp [Kind.isCompound, hfunction])] at hat
      exact ⟨scope, hat⟩
    · simp [hoistsHere, hk, Kind.form?] at hhere
  function {w v n name _} hn hv hform hname := by
    have hat := hn.reached
    rw [Visit.ofStatement, if_pos (by simp [Kind.isCompound, hform])] at hat
    refine Logic.after (runs_register none (fun _ h => h) hn.mem hat
      (by simp [Visit.defers, hform]) hv.holds).to_logic fun key w₁ h₁ hkey => ?_
    obtain ⟨rfl, -⟩ := hkey
    exact ((runs_hoist hn.mem hform hname (hv.mono h₁.grows.grows)).imp fun _ _ _ hhoisted _ =>
      hhoisted (hn.mono h₁.grows).takes).to_logic
  var hn hv hhere hmem := (acts_hoistVar (binds_hoisted hn.mem hhere hmem nofun rfl rfl hv)).to_logic
  imported {w v n name origin _} hn hv hhere hmem := by
    have hbinds : w.Binds source root scope
        { Binding.declared name v with origin := some origin } .hoisted :=
      binds_hoisted hn.mem hhere hmem nofun rfl rfl hv
    exact (acts_declare hbinds (Binding.rooted_declared name v)).to_logic
  other _ hform h := absurd h hform

/-! ## Bodies -/

/-- **Hoisting what a body declares hoists its functions.** -/
theorem hoists_hoistBody (topLevel : Bool)
    (h : ∀ c ∈ n.children, w.Hoistable root scope (.ofStatement c.kind) c) :
    Hoists source root w scope (hoistBody source n scope topLevel) n.bodyFunctions := by
  refine Runs.imp ((historyHoisting source root scope).body fun c hc _ =>
    h c (mem_children_of_namedChildren hc)) fun _ w' _ hend f hf hname => ?_
  obtain ⟨c, hc, hf⟩ := List.mem_flatMap.1 hf
  obtain ⟨hform, hvisited⟩ := mem_statementVisits_of_hoistedFunctions hf
  obtain ⟨topLevel', hmem⟩ := hvisited topLevel
  exact hend.2 (f, topLevel') (List.mem_flatMap.2 ⟨c, hc, hmem⟩)
    (by simpa [hoistsHere, hform] using hname) hform

/-- **Linking a body meets its leaves.** -/
theorem comes_linkBody (hnested : root.Nested) (hroot : root.Grammatical) {owner : Option VertexId}
    (h : ∀ c ∈ n.children, w.Standing source root scope c) :
    Comes source root w Anywhere (linkBody source n scope owner) (bodyLeaves source n) := by
  have hordered : (histories source root Anywhere).Does w (linkBody source n scope owner)
      ((n.orderedChildren source).flatMap (statementLeaves source)) := by
    refine Logic.forM fun c hc w' hw => ?_
    have hmem := mem_children_of_namedChildren (mem_namedChildren_of_orderedChildren hc)
    exact (links_statement hnested hroot c w' scope owner ((h c hmem).after hw)).comes
  refine Logic.imp _ hordered (fun leaf hleaf => ?_) fun _ _ _ h => h
  obtain ⟨c, hc, hleaf⟩ := List.mem_flatMap.1 hleaf
  exact List.mem_flatMap.2 ⟨c, mem_inSourceOrder.2 hc, hleaf⟩

/-- **A body is hoisted and linked** in the scope whose place it is: its leaves are met, and in the end
the functions of all scopes are hoisted. -/
theorem runs_wholeBody (hnested : root.Nested) (hroot : root.Grammatical) {p : ScopePlace}
    (hquiet : w.Quiet source (some scope)) (htakes : w.builder.scopes.takesHoisted scope)
    (hplace : w.places[scope]? = some p) (hn : n ∈ root.nodes) (hheld : ∀ c ∈ n.children, p.Holds c)
    (hfunctions : p.hoists = n.bodyFunctions) (topLevel : Bool) (owner : Option VertexId) :
    Runs source root w (do
      hoistBody source n scope topLevel
      linkBody source n scope owner)
      fun _ w' => w'.Calm source ∧ w'.Came Anywhere (bodyLeaves source n) := by
  have hmem (c : Node) (hc : c ∈ n.children) : c ∈ root.nodes :=
    mem_nodes_trans (child_mem_nodes hc) hn
  have hhoists : Hoists source root w scope (hoistBody source n scope topLevel) n.bodyFunctions :=
    hoists_hoistBody topLevel fun c hc => ⟨hmem c hc, ⟨p, hplace, (hheld c hc).along⟩, htakes⟩
  refine Runs.bind hhoists fun _ w₁ h₁ hhoisted => ?_
  have hplace₁ := h₁.grows.place hplace
  have hcalm : w₁.Calm source := (h₁.quiet hquiet).calm hplace₁ (hfunctions ▸ hhoisted)
  have hlt := Nat.lt_of_lt_of_le (ScopeTree.lt_size_of_takesHoisted htakes) h₁.grows.size_le
  have hlink : Comes source root w₁ Anywhere (linkBody source n scope owner) (bodyLeaves source n) :=
    comes_linkBody hnested hroot fun c hc => ⟨hcalm, hlt, hmem c hc, ⟨p, hplace₁, hheld c hc⟩⟩
  exact Runs.imp hlink fun _ w₂ h₂ hend => ⟨h₂.calm hcalm, hend.1⟩

end Build

end DeadCode
