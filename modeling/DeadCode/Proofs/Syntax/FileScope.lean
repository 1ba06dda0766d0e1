import DeadCode.Proofs.Syntax.Uses

/-! # The names on the scope of a file

A statement binds names on the scope of its file if it stands at the top, if an `export` statement
or a label at the top stands before it, or if what it declares is hoisted from a block that lies in
no callable. -/

namespace DeadCode

/-- Whether what statements of a form declare is visible in the whole body around them. -/
def Form.isHoisted : Form → Bool
  | importDecl | functionDecl | varDecl | iteration => true
  | _ => false

namespace Node

/-! ## Patterns -/

/-- In an object pattern only a name has a default value. -/
def PatternsFit (root : Node) : Prop :=
  ∀ n ∈ root.nodes, n.kind = .objectAssignmentPattern → ∀ left ∈ n.child? .left,
    left.kind = .identifier ∨ left.kind = .shorthandPropertyIdentifierPattern

instance (root : Node) : Decidable root.PatternsFit :=
  inferInstanceAs (Decidable (∀ n ∈ root.nodes, n.kind = .objectAssignmentPattern →
    ∀ left ∈ n.child? .left,
      left.kind = .identifier ∨ left.kind = .shorthandPropertyIdentifierPattern))

section Patterns

variable {source : String} {root n part : Node}

theorem patternNames_of_name
    (h : n.kind = .identifier ∨ n.kind = .shorthandPropertyIdentifierPattern) :
    n.patternNames source = (n.text? source).toList := by
  rcases h with h | h <;> rw [patternNames, h]

/-- The names of an object pattern. -/
theorem patternNames_of_objectPattern (h : n.kind = .objectPattern) :
    n.patternNames source = n.namedChildren.flatMap (·.patternNames source) := by
  rw [patternNames, h]
  simp only [List.flatMap_subtype, List.unattach_attach]

theorem patternNames_of_wrapped {field : Field} (h : wrappedPattern? n.kind = some field) :
    n.patternNames source = ((n.child? field).map (·.patternNames source)).getD [] := by
  have hbind : (wrappedPattern? n.kind).bind n.child? = n.child? field := by
    rw [h, Option.bind_some]
  rw [patternNames]
  split
  any_goals simp [*, wrappedPattern?] at h
  split
  · next inner hinner => rw [← hbind, hinner, Option.map_some, Option.getD_some]
  · next hnone => rw [← hbind, hnone, Option.map_none, Option.getD_none]

theorem map_fst_partKeys (h : root.PatternsFit) (hpart : part ∈ root.nodes) :
    (part.partKeys source).map Prod.fst = part.patternNames source := by
  unfold partKeys
  split
  · next hkind => simp [patternNames_of_name (.inr hkind), Function.comp_def]
  · next hkind =>
    rw [patternNames_of_wrapped (by rw [hkind]; rfl)]
    cases hleft : part.child? .left with
    | none => rfl
    | some left =>
      simp [patternNames_of_name (h part hpart hkind left hleft), Function.comp_def]
  · next hkind =>
    rw [patternNames_of_wrapped (by rw [hkind]; rfl)]
    cases part.child? .value with
    | none => rfl
    | some value => simp [Function.comp_def]
  · simp [Function.comp_def]

/-- **The names of a pattern with their keys are the names of the pattern**, in the same order. -/
theorem map_fst_patternKeys (h : root.PatternsFit) (hn : n ∈ root.nodes) :
    (n.patternKeys source).map Prod.fst = n.patternNames source := by
  unfold patternKeys
  split
  · next hkind =>
    rw [patternNames_of_objectPattern hkind, List.map_flatMap]
    refine List.flatMap_congr fun part hpart => map_fst_partKeys h ?_
    exact mem_nodes_trans (child_mem_nodes (mem_children_of_namedChildren hpart)) hn
  · simp [Function.comp_def]

end Patterns

/-! ## The names that a statement declares -/

/-- The names that a statement may declare in the scope it stands in, or on the one it is hoisted
to. -/
def statementNames (source : String) (n : Node) : List String :=
  match n.kind.form? with
  | some .functionDecl | some .classDecl => (n.name? source).toList
  | some .lexicalDecl | some .varDecl =>
    n.declarators.flatMap fun d => ((d.child? .name).map (·.declaredNames source)).getD []
  | some .iteration =>
    if (n.child? .kind).bind (·.text? source) = some "var" then
      ((n.child? .left).map (·.patternNames source)).getD []
    else []
  | some .importDecl => (n.importBindings source).map Prod.fst
  | _ => []

/-- A `var` declaration gives a value to a name, or takes it out of one by a pattern. -/
def Initialises (source : String) (n : Node) (name : String) : Prop :=
  n.kind.form? = some .varDecl ∧ ∃ d ∈ n.declarators, ∃ pattern, d.child? .name = some pattern ∧
    name ∈ pattern.declaredNames source ∧
      ((d.child? .value).isSome ∨ pattern.kind ≠ .identifier)

section StatementNames

variable {source name : String} {n d pattern : Node}

theorem mem_statementNames_of_declarator
    (hform : n.kind.form? = some .lexicalDecl ∨ n.kind.form? = some .varDecl)
    (hd : d ∈ n.declarators) (hpattern : d.child? .name = some pattern)
    (hname : name ∈ pattern.declaredNames source) : name ∈ n.statementNames source := by
  have hmem : name ∈ n.declarators.flatMap fun d =>
      ((d.child? .name).map (·.declaredNames source)).getD [] :=
    List.mem_flatMap.2 ⟨d, hd, by rw [hpattern]; exact hname⟩
  unfold statementNames
  rcases hform with hform | hform <;> rw [hform] <;> exact hmem

theorem mem_statementNames_of_boundNames (h : name ∈ n.boundNames source) :
    name ∈ n.statementNames source := by
  have hvariables (hform : n.kind.form? = some .lexicalDecl ∨ n.kind.form? = some .varDecl)
      (h : name ∈ n.declaratorNames source) : name ∈ n.statementNames source := by
    obtain ⟨d, hd, hname⟩ := List.mem_flatMap.1 h
    cases hpattern : d.child? .name with
    | none => simp [hpattern] at hname
    | some pattern =>
      rw [hpattern] at hname
      exact mem_statementNames_of_declarator hform hd hpattern
        (mem_declaredNames_of_patternNames hname)
  unfold boundNames at h
  split at h
  · next hform =>
    unfold statementNames
    rwa [hform]
  · next hform =>
    unfold statementNames
    rwa [hform]
  · next hform => exact hvariables (.inl hform) h
  · next hform => exact hvariables (.inr hform) h
  · cases h

theorem form?_isSome_of_statementNames (h : name ∈ n.statementNames source) :
    n.kind.form?.isSome := by
  cases hform : n.kind.form? with
  | none => simp [statementNames, hform] at h
  | some form => rfl

end StatementNames

/-! ## Statements at the top and outside of callables -/

/-- A statement that stands at the top of a file, or behind an `export` or a label there. -/
inductive Standing (root : Node) : Node → Prop where
  | top {n : Node} (h : n ∈ root.namedChildren) : Standing root n
  | exported {e n : Node} (h : Standing root e) (hkind : e.kind = .exportStatement)
      (hn : e.child? .declaration = some n) : Standing root n
  | labeled {l n : Node} (h : Standing root l) (hkind : l.kind = .labeledStatement)
      (hn : l.child? .body = some n) : Standing root n

/-- A node below the top of a file that lies in no callable. -/
inductive Outer (root : Node) : Node → Prop where
  | top {n : Node} (h : n ∈ root.namedChildren) : Outer root n
  | child {n c : Node} (h : Outer root n) (hkind : n.kind.isCallable = false)
      (hc : c ∈ n.children) : Outer root c

/-- **A statement binds a name on the scope of its file**: it stands at the top, or what it declares
is hoisted to there. -/
def BindsOnFile (source : String) (root n : Node) (name : String) : Prop :=
  name ∈ n.statementNames source ∧
    (Standing root n ∨ Outer root n ∧ n.kind.form?.any Form.isHoisted)

/-- A statement is a declaration, or an `export` statement that declares it. -/
def Carries (n d : Node) : Prop :=
  n = d ∨ n.kind = .exportStatement ∧ n.child? .declaration = some d

/-- **A declaration at the top of a file is the only statement that binds a name there.** -/
structure SoleBinder (source : String) (root d : Node) (name : String) : Prop where
  top : ∃ c ∈ root.namedChildren, c.Carries d
  binds : name ∈ d.boundNames source
  only : ∀ n, BindsOnFile source root n name → n = d

section Standing

variable {source name : String} {root n d : Node}

theorem Standing.mem_nodes (h : Standing root n) : n ∈ root.nodes := by
  induction h with
  | top h => exact child_mem_nodes (mem_children_of_namedChildren h)
  | exported _ _ hn ih => exact mem_nodes_trans (child_mem_nodes (mem_children_of_child? hn)) ih
  | labeled _ _ hn ih => exact mem_nodes_trans (child_mem_nodes (mem_children_of_child? hn)) ih

theorem Outer.mem_nodes (h : Outer root n) : n ∈ root.nodes := by
  induction h with
  | top h => exact child_mem_nodes (mem_children_of_namedChildren h)
  | child _ _ hc ih => exact mem_nodes_trans (child_mem_nodes hc) ih

theorem BindsOnFile.mem_nodes (h : BindsOnFile source root n name) : n ∈ root.nodes := by
  rcases h.2 with h | ⟨h, -⟩
  · exact h.mem_nodes
  · exact h.mem_nodes

theorem Carries.mem_nodes (h : n.Carries d) : d ∈ n.nodes := by
  rcases h with rfl | ⟨-, hd⟩
  · exact self_mem_nodes n
  · exact child_mem_nodes (mem_children_of_child? hd)

theorem SoleBinder.mem_nodes (h : SoleBinder source root d name) : d ∈ root.nodes := by
  obtain ⟨c, hc, hcarries⟩ := h.top
  exact mem_nodes_trans hcarries.mem_nodes (child_mem_nodes (mem_children_of_namedChildren hc))

theorem SoleBinder.form (h : SoleBinder source root d name) : d.kind.form?.isSome :=
  form?_isSome_of_statementNames (mem_statementNames_of_boundNames h.binds)

end Standing

end Node

end DeadCode
