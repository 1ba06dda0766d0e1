import DeadCode.Proofs.Resolution.Arranged.Statement
import DeadCode.Proofs.Resolution.Upkeep.Phases

/-! # The statements of a file are arranged as in its tree

Hoisting adds statements where they will be linked, and a callable is entered with the statement it was
registered with. So a whole file is resolved with its statements arranged as in the tree. -/

namespace DeadCode

namespace Build

open Builder Node

variable {source : String} {root o n : Node} {b : Builder} {scope : ScopeId}

/-! ## Hoisting -/

/-- A statement is to be hoisted: it has a seat, if something can be hoisted out of it. -/
structure Hoistable (root n : Node) (topLevel : Bool) : Prop where
  way : Way root (.ofStatement n.kind) n
  seated : n.kind.isItem → n.kind.isCompound ∨ n.kind.form? = some .varDecl ∨ topLevel →
    Seated root n

theorem Hoistable.seat {topLevel : Bool} (h : Hoistable root n topLevel)
    (hhere : n.hoistsHere source topLevel) : Seated root n := by
  cases hform : n.kind.form? with
  | none => simp [hoistsHere, hform] at hhere
  | some form =>
    refine h.seated (Kind.isItem_of_form hform ?_) ?_ <;>
      cases form <;> simp_all [hoistsHere, Kind.isCompound]

/-- The statements in a statement or a clause are hoisted. Its header holds no compound statement. -/
theorem hoistable_nested {c : Node} (hroot : root.Regular) (hway : Way root .link n)
    (hkind : n.kind.holdsStatements) (hc : c ∈ n.children) : Hoistable root c false := by
  refine ⟨hway.nested hkind hc, fun hitem hhoists => ⟨.link, n, hway, hc, hkind, .inl hitem,
    fun hheader => ?_⟩⟩
  rcases hhoists with hcompound | hvar | htop
  · exact absurd hcompound ((hroot.grammatical n hway.mem_nodes).header
      (Kind.isCompound_of_holdsStatements hkind) c hc (field_isHeader_of_mem_headers hheader))
  · rw [hvar]
    rfl
  · cases htop

/-- **The steps of hoisting keep statements arranged.** -/
def arrangedHoisting (hroot : root.Regular) (source : String) (scope : ScopeId) :
    Hoisting (keeping (Arranged source root)) source scope where
  due _ n topLevel := Hoistable root n topLevel
  inside s v n := Seated root n ∧ s.1.StandsFor v n
  done _ _ := True
  due_later _ hn := hn
  inside_later h hn := ⟨hn.1, hn.2.mono h.grows⟩
  done_later _ _ := trivial
  nested {_ n _ _} hn hkind hc := by
    have hkind := Kind.holdsStatements_of_holdsDirectly hkind
    have hway := hn.way
    rw [Visit.ofStatement_eq_link hkind] at hway
    exact hoistable_nested hroot hway hkind (mem_children_of_namedChildren hc)
  carried {_ n _ _} hn hkind hc := by
    have hholds : n.kind.holdsStatements := by rw [hkind]; rfl
    have hway := hn.way
    rw [Visit.ofStatement_eq_link hholds] at hway
    exact ⟨hway.nested hholds (mem_children_of_child? hc),
      fun _ _ => seated_of_exported hway (by rw [hkind]; rfl) hc⟩
  vertex hn hhere := (arranged_statementVertex (Subtype.prop _) (hn.seat hhere)).to_logic
    fun _ _ hv => ⟨hn.seat hhere, hv⟩
  function {s v n _ _} hn hin hform _ := by
    have hway := hn.way
    rw [Visit.ofStatement, if_pos (by simp [Kind.isCompound, hform])] at hway
    have hheld : s.1.Held source root .link n n := by
      refine .self hway hin.1 hin.2 fun _ hk => ?_
      rw [hk] at hform
      cases hform
    refine Keeps.does ((arranged_register s.2 ⟨.link, n, hheld, by simp [Visit.defers, hform],
      fun _ => hin.2⟩).andThen fun key b₁ h₁ => ?_)
    exact arranged_declare h₁.holds _ _
  var _ _ _ _ := (arranged_hoistVar (Subtype.prop _) _ _ _).does
  imported _ _ _ _ := (arranged_declare (Subtype.prop _) _ _).does
  other _ _ := trivial

theorem arranged_hoistBody (hroot : root.Regular) (hb : b.Arranged source root) {body : Node}
    {topLevel : Bool} (hbody : ∀ c ∈ body.namedChildren, Hoistable root c topLevel) :
    Keeps (Arranged source root) b (hoistBody source body scope topLevel) Anything :=
  .of_does hb ((arrangedHoisting hroot source scope).body fun c hc _ => hbody c hc)

/-! ## Callables and files -/

/-- **Entering a callable keeps statements arranged.** -/
theorem arranged_enters (hroot : root.Regular) : EnterUpkeep source (Arranged source root) where
  requeue := fun _ _ hb => hb.of_eq rfl rfl
  enter := by
    intro b key callable scope scopes hb hfound hclass _
    obtain ⟨visit, o, hn, hdefers, howner⟩ := hb.callables _ (mem_of_callable? hfound) hclass
    refine keeps_entered (Arranged source root) (hb.of_eq rfl rfl)
      (fun _ _ hb' => arranged_declare hb' _ _)
      (fun parameters parameter value hparameters hparameter hvalue b' h' => ?_)
      (fun _ hb' => hb'.of_eq rfl rfl) (fun _ _ _ hb' => hb'.of_eq rfl rfl)
      (fun body b₁ hbody hblock h₁ hb₁ => ?_) fun body b₁ hbody hblock h₁ hb₁ => ?_
    · obtain ⟨hmem, hfield⟩ := mem_children_of_parameters? hparameters
      -- The list of parameters is no value and no block, so its parts are expressions.
      have hlist : ¬ parameters.kind.isEnclosure :=
        (hroot.grammatical callable.node hn.way.mem_nodes).list parameters hmem hfield
      have hheld := hn.enteredPart hroot.spaced hdefers hmem
      rw [Visit.below_callable hlist] at hheld
      obtain ⟨hvalue', hplain⟩ := mem_children_of_defaultValue? hvalue
      have hparameter' := hheld.part hroot.spaced (.inl rfl) (Kind.isPlain_of_not_isEnclosure hlist)
        (mem_children_of_namedChildren hparameter)
      exact arranged_expression hroot h'.holds
        ((hparameter'.part hroot.spaced (.inl rfl) hplain hvalue').of_extends h'.grows.graph)
    · have hmem := mem_children_of_child? hbody
      have hheld := hn.enteredPart hroot.spaced hdefers hmem
      rw [show Visit.callable.below callable.node.kind body.kind = .link from if_pos hblock] at hheld
      have hform : body.kind.form? = some .block := by rw [hblock]; rfl
      have hkind : body.kind.holdsStatements := Kind.holdsStatements_of_form hform rfl
      refine (arranged_hoistBody hroot hb₁ fun c hc => hoistable_nested hroot hheld.way hkind
        (mem_children_of_namedChildren hc)).andThen fun _ b₂ h₂ => ?_
      refine arranged_linkBody hroot h₂.holds fun c hc => ?_
      have hgrows := h₁.graph.trans h₂.grows.graph
      refine stays_of_held hroot (hheld.of_extends hgrows) hkind (mem_children_of_namedChildren hc)
        (fun _ hheader => ?_) fun hne =>
          (howner.child hroot.spaced hn.way.mem_nodes hmem hne).of_extends hgrows
      exact absurd hheader (not_mem_headers_of_nil (by simp [Kind.headerFields, hform]))
    · have hheld := hn.enteredPart hroot.spaced hdefers (mem_children_of_child? hbody)
      rw [show Visit.callable.below callable.node.kind body.kind = .resolve from
        if_neg hblock] at hheld
      exact arranged_expression hroot hb₁ (hheld.of_extends h₁.graph)

theorem arranged_topLevel (hroot : root.Regular) (hb : b.Arranged source root) :
    Keeps (Arranged source root) b (topLevel source root) Anything := by
  have hway (c : Node) (hc : c ∈ root.namedChildren) : Way root (.ofStatement c.kind) c :=
    Way.root.child (mem_children_of_namedChildren hc)
  refine (arranged_hoistBody hroot hb fun c hc =>
    ⟨hway c hc, fun hitem _ => seated_of_top hc hitem⟩).andThen fun _ b₁ h₁ => ?_
  exact arranged_linkBody hroot h₁.holds fun c hc => ⟨hway c hc, seated_of_top hc, by simp⟩

end Build

/-- **The statements of a file are arranged as in its tree.** -/
theorem exists_arranged_build? {root : Node} (hroot : root.Regular) (path : Path) (source : String)
    (ambient : List String) :
    ∃ b : Builder, StatementGraph.build? path source root ambient = .ok (b.graph, b.scopes) ∧
      b.Arranged source root := by
  rcases Build.file_phases path source root ambient with ⟨error, -, hnot⟩ | ⟨-, -, b, -, -, -, -, hrun⟩
  · exact absurd hroot.spaced.laid.nested hnot
  · refine ⟨b, ?_, ?_⟩
    · rw [build?_eq, hrun]
      rfl
    · obtain ⟨b₁, hb₁, hreturns⟩ := exists_of_file_phases
        (Build.arranged_topLevel hroot (.start source root path ambient))
        (Build.arranged_enters hroot) hrun
      -- A return is no use of the call it returns to.
      exact (Build.keeps_connectReturns hb₁ (fun _ _ _ _ _ hb hconnect => hb.connect hconnect
        (fun hdecl => nomatch hdecl) fun _ _ hreturns => absurd rfl hreturns) () b hreturns).1.holds

end DeadCode
