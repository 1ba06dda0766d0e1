import DeadCode.Proofs.Syntax.Layout

/-! # Places for scopes

A scope belongs to a piece of the text: to the file, to a callable that is entered, to a block, a
loop or a case. Its `ScopePlace` is the node of that piece with the way in which the node is visited.
Statements stand directly in a place (`ScopePlace.Holds`), or in a smaller one. -/

namespace DeadCode

/-- The piece of a tree that a scope belongs to. -/
structure ScopePlace where
  /-- How the piece is visited. -/
  visit : Visit
  /-- The piece itself. -/
  node : Node

/-! ## Functions that are hoisted -/

namespace Kind

/-- Whether statements stand right in the nodes of a kind. An `export` statement holds only what it
declares. -/
def holdsDirectly (kind : Kind) : Bool :=
  kind.holdsStatements && kind.form? ≠ some .exportDecl

variable {kind : Kind}

theorem holdsStatements_of_holdsDirectly (h : kind.holdsDirectly) : kind.holdsStatements :=
  (Bool.and_eq_true_iff.1 h).1

theorem holdsDirectly_of_form {form : Form} (h : kind.form? = some form) (hform : form.isNesting)
    (hexport : form ≠ .exportDecl) : kind.holdsDirectly := by
  simp [holdsDirectly, holdsStatements_of_form h hform, h, hexport]

theorem holdsDirectly_of_isClause (h : kind.isClause) : kind.holdsDirectly := by
  cases kind <;> first | rfl | simp [isClause] at h

end Kind

namespace Node

/-- What the children that `ns` lists give, child by child. -/
def among {α : Type} (n : Node) (ns : List Node) (h : ∀ c ∈ ns, c.size < n.size)
    (visit : (c : Node) → c.size < n.size → List α) : List α :=
  (ns.pmap visit h).flatten

/-- What the named children give, child by child. -/
def overNamed {α : Type} (n : Node) (visit : (c : Node) → c.size < n.size → List α) : List α :=
  n.among n.namedChildren (fun _ => size_lt_of_mem_namedChildren) visit

/-- What the child under a field gives, if there is one. -/
def under {α : Type} (n : Node) (field : Field) (visit : (c : Node) → c.size < n.size → List α) :
    List α :=
  match h : n.child? field with
  | some c => visit c (size_lt_of_child? h)
  | none => []

variable {α : Type} {n : Node} {field : Field}

/-- What is found among nodes is found at one. -/
theorem mem_among {ns : List Node} {h : ∀ c ∈ ns, c.size < n.size}
    {visit : (c : Node) → c.size < n.size → List α} {x : α} :
    x ∈ n.among ns h visit ↔ ∃ c, ∃ hc : c ∈ ns, x ∈ visit c (h c hc) := by
  rw [among, List.mem_flatten]
  constructor
  · rintro ⟨found, hfound, hx⟩
    obtain ⟨c, hc, rfl⟩ := List.mem_pmap.1 hfound
    exact ⟨c, hc, hx⟩
  · rintro ⟨c, hc, hx⟩
    exact ⟨_, List.mem_pmap.2 ⟨c, hc, rfl⟩, hx⟩

theorem mem_overNamed {visit : (c : Node) → c.size < n.size → List α} {x : α} :
    x ∈ n.overNamed visit ↔ ∃ c, ∃ h : c ∈ n.namedChildren,
      x ∈ visit c (size_lt_of_mem_namedChildren h) :=
  mem_among

theorem overNamed_eq (found : Node → List α) :
    (n.overNamed fun c _ => found c) = n.namedChildren.flatMap found := by
  simp [overNamed, among, List.flatMap, List.pmap_eq_map]

theorem under_of_some {c : Node} {visit : (c : Node) → c.size < n.size → List α}
    (h : n.child? field = some c) : n.under field visit = visit c (size_lt_of_child? h) := by
  unfold under
  split
  · next c' hc' =>
    obtain rfl : c = c' := Option.some.inj (h.symm.trans hc')
    rfl
  · next hnone =>
    rw [hnone] at h
    cases h

theorem under_of_none {visit : (c : Node) → c.size < n.size → List α} (h : n.child? field = none) :
    n.under field visit = [] := by
  unfold under
  split
  · next c hc =>
    rw [h] at hc
    cases hc
  · rfl

/-- What is found under a field is found at its child. -/
theorem mem_under {visit : (c : Node) → c.size < n.size → List α} {x : α} :
    x ∈ n.under field visit ↔ ∃ c, ∃ h : n.child? field = some c,
      x ∈ visit c (size_lt_of_child? h) := by
  constructor
  · intro h
    rcases Option.eq_none_or_eq_some (n.child? field) with hc | ⟨c, hc⟩
    · rw [under_of_none hc] at h
      cases h
    · rw [under_of_some hc] at h
      exact ⟨c, hc, h⟩
  · rintro ⟨c, hc, h⟩
    rwa [under_of_some hc]

mutual

/-- The function declarations that are hoisted out of a statement. -/
def hoistedFunctions (n : Node) : List Node :=
  match n.kind.form? with
  | some .functionDecl => [n]
  | some .exportDecl => n.under .declaration fun c _ => hoistedFunctions c
  | some .iteration | some .conditional | some .selection | some .countedLoop | some .whileLoop
  | some .doLoop | some .guarded | some .block | some .labeled => nestedFunctions n
  | some .classDecl | some .lexicalDecl | some .varDecl | some .importDecl | some .returning
  | some .throwing | some .expression | some .inert | none => []
termination_by 2 * n.size + 1

/-- The function declarations that are hoisted out of the statements in a node: from any depth of
nested statements, but not out of callables. -/
def nestedFunctions (n : Node) : List Node :=
  n.overNamed fun c _ =>
    if c.kind.form?.isSome then hoistedFunctions c
    else if c.kind.isClause then nestedFunctions c
    else []
termination_by 2 * n.size

end

/-- The function declarations that are hoisted to the top of a body. -/
def bodyFunctions (body : Node) : List Node :=
  body.namedChildren.flatMap hoistedFunctions

/-- The statements and clauses that hoisting comes upon in a statement or a clause, in its order, each
with whether imports count there. -/
def hoistVisits (n : Node) (topLevel : Bool) : List (Node × Bool) :=
  (n, topLevel) ::
    if n.kind.holdsDirectly then n.overNamed fun c _ => hoistVisits c false
    else if n.kind = .exportStatement then
      n.under .declaration fun c _ => if c.kind.form?.isSome then hoistVisits c topLevel else []
    else []
termination_by n.size

/-- What hoisting comes upon in a statement. -/
def statementVisits (n : Node) (topLevel : Bool) : List (Node × Bool) :=
  if n.kind.form?.isSome then n.hoistVisits topLevel else []

/-- What hoisting comes upon in a body. -/
def bodyVisits (body : Node) (topLevel : Bool) : List (Node × Bool) :=
  body.namedChildren.flatMap (·.statementVisits topLevel)

section HoistVisits

variable {topLevel : Bool} {f c : Node} {d : Node × Bool}

theorem hoistVisits_of_plain (h : n.kind.holdsStatements = false) :
    n.hoistVisits topLevel = [(n, topLevel)] := by
  rw [hoistVisits, if_neg (by simp [Kind.holdsDirectly, h]),
    if_neg (by rintro hk; rw [hk] at h; cases h)]

/-- Hoisting visits a statement and then those in it. -/
theorem hoistVisits_of_direct (h : n.kind.holdsDirectly) :
    n.hoistVisits topLevel = (n, topLevel) :: n.namedChildren.flatMap (·.hoistVisits false) := by
  rw [hoistVisits, if_pos h, overNamed_eq]

/-- Hoisting visits an export and its declaration. -/
theorem hoistVisits_of_export (h : n.kind = .exportStatement) :
    n.hoistVisits topLevel =
      (n, topLevel) :: (n.child? .declaration).toList.flatMap (·.statementVisits topLevel) := by
  rw [hoistVisits, if_neg (by rw [h]; decide), if_pos h]
  cases hc : n.child? .declaration with
  | none => rw [under_of_none hc]; rfl
  | some c => rw [under_of_some hc, Option.toList_some, List.flatMap_singleton]; rfl

theorem self_mem_statementVisits (h : n.kind.form?.isSome) :
    (n, topLevel) ∈ n.statementVisits topLevel := by
  rw [statementVisits, if_pos h, hoistVisits]
  exact List.mem_cons_self

theorem mem_hoistVisits_of_nested (hkind : n.kind.holdsDirectly) (hc : c ∈ n.namedChildren)
    (hd : d ∈ c.hoistVisits false) : d ∈ n.hoistVisits topLevel := by
  rw [hoistVisits_of_direct hkind]
  exact List.mem_cons_of_mem _ (List.mem_flatMap.2 ⟨c, hc, hd⟩)

/-- The visits of an exported declaration. -/
theorem mem_statementVisits_of_carried (hkind : n.kind = .exportStatement)
    (hc : n.child? .declaration = some c) (hd : d ∈ c.statementVisits topLevel) :
    d ∈ n.statementVisits topLevel := by
  rw [statementVisits, if_pos (by rw [hkind]; rfl), hoistVisits_of_export hkind]
  exact List.mem_cons_of_mem _ (List.mem_flatMap.2 ⟨c, Option.mem_toList.2 hc, hd⟩)

/-- **What passes down from statements to those in them** is so of all that hoisting comes upon. -/
theorem of_mem_statementVisits {P : Node → Bool → Prop}
    (hnested : ∀ n c topLevel, P n topLevel → n.kind.holdsDirectly → c ∈ n.namedChildren → P c false)
    (hcarried : ∀ n c topLevel, P n topLevel → n.kind = .exportStatement →
      n.child? .declaration = some c → P c topLevel)
    (hn : n.kind.form?.isSome → P n topLevel) (hd : d ∈ n.statementVisits topLevel) :
    P d.1 d.2 := by
  unfold statementVisits at hd
  split at hd
  · next hsome =>
    replace hn := hn hsome
    clear hsome
    induction n using childInduction generalizing topLevel with
    | step n ih =>
      rw [hoistVisits] at hd
      rcases List.mem_cons.1 hd with rfl | hd
      · exact hn
      split at hd
      · next hkind =>
        obtain ⟨c, hc, hd⟩ := mem_overNamed.1 hd
        exact ih c (mem_children_of_namedChildren hc) hd (hnested n c topLevel hn hkind hc)
      · split at hd
        · next hkind =>
          obtain ⟨c, hc, hd⟩ := mem_under.1 hd
          split at hd
          · exact ih c (mem_children_of_child? hc) hd (hcarried n c topLevel hn hkind hc)
          · cases hd
        · cases hd
  · cases hd

/-- Hoisting comes upon all functions that it hoists. -/
theorem mem_statementVisits_of_hoistedFunctions (h : f ∈ n.hoistedFunctions) :
    f.kind.form? = some .functionDecl ∧
      ∀ topLevel, ∃ topLevel', (f, topLevel') ∈ n.statementVisits topLevel := by
  suffices hboth : (f ∈ n.hoistedFunctions → f.kind.form? = some .functionDecl ∧
      ∀ topLevel, ∃ topLevel', (f, topLevel') ∈ n.statementVisits topLevel) ∧
      (n.kind.holdsDirectly → f ∈ n.nestedFunctions → f.kind.form? = some .functionDecl ∧
        ∀ topLevel, ∃ topLevel', (f, topLevel') ∈ n.hoistVisits topLevel) from hboth.1 h
  clear h
  induction n using childInduction with
  | step n ih =>
    have hnested (hkind : n.kind.holdsDirectly) (h : f ∈ n.nestedFunctions) :
        f.kind.form? = some .functionDecl ∧
          ∀ topLevel, ∃ topLevel', (f, topLevel') ∈ n.hoistVisits topLevel := by
      rw [nestedFunctions] at h
      obtain ⟨c, hc, h⟩ := mem_overNamed.1 h
      have hc' := ih c (mem_children_of_namedChildren hc)
      obtain ⟨hf, hvisited⟩ : f.kind.form? = some .functionDecl ∧
          ∀ topLevel, ∃ topLevel', (f, topLevel') ∈ c.hoistVisits topLevel := by
        split at h
        · next hsome => simpa only [statementVisits, if_pos hsome] using hc'.1 h
        · split at h
          · next hclause => exact hc'.2 (Kind.holdsDirectly_of_isClause hclause) h
          · cases h
      exact ⟨hf, fun _ => (hvisited false).imp fun _ => mem_hoistVisits_of_nested hkind hc⟩
    refine ⟨fun h => ?_, hnested⟩
    rw [hoistedFunctions] at h
    cases hform : n.kind.form? with
    | none => simp [hform] at h
    | some form =>
      have hsome : n.kind.form?.isSome := by rw [hform]; rfl
      rw [hform] at h
      cases form with
      | functionDecl =>
        obtain rfl : f = n := by simpa using h
        exact ⟨hform, fun topLevel => ⟨topLevel, self_mem_statementVisits hsome⟩⟩
      | exportDecl =>
        obtain ⟨c, hc, h⟩ := mem_under.1 h
        obtain ⟨hf, hvisited⟩ := (ih c (mem_children_of_child? hc)).1 h
        exact ⟨hf, fun topLevel => (hvisited topLevel).imp fun _ =>
          mem_statementVisits_of_carried (Kind.eq_of_form hform rfl) hc⟩
      | iteration | conditional | selection | countedLoop | whileLoop | doLoop | guarded | block
      | labeled =>
        simpa only [statementVisits, if_pos hsome] using
          hnested (Kind.holdsDirectly_of_form hform rfl (by decide)) h
      | classDecl | lexicalDecl | varDecl | importDecl | returning | throwing | expression
      | inert => simp at h

end HoistVisits

end Node

/-- The function declarations that are hoisted to the scope of a place: those of a file, and those of
the body of a callable that is a block. -/
def ScopePlace.hoists (p : ScopePlace) : List Node :=
  match p.visit with
  | .file => p.node.bodyFunctions
  | .callable =>
    match p.node.child? .body with
    | some body => if body.kind = .statementBlock then body.bodyFunctions else []
    | none => []
  | .resolve | .link | .members | .member => []

/-! ## Statements in their places -/

namespace Visit

variable {kind : Kind}

theorem defers_link (h : kind.holdsStatements) : link.defers kind = false := by
  simp only [Kind.holdsStatements, Bool.and_eq_true, decide_eq_true_eq] at h
  simp [defers, h]

theorem below_link (h : kind.holdsStatements) (child : Kind) :
    link.below kind child = .ofStatement child := by
  simp only [Kind.holdsStatements, Bool.and_eq_true, decide_eq_true_eq] at h
  simp [below, h]

theorem ofStatement_eq_link (h : kind.holdsStatements) : ofStatement kind = .link :=
  if_pos (Kind.isCompound_of_holdsStatements h)

/-- Read as an expression, a statement that holds statements would have expressions for parts. -/
theorem resolve_of_holdsStatements (h : kind.holdsStatements) :
    resolve.defers kind = false ∧ ∀ child, resolve.below kind child = .resolve := by
  cases kind <;> first | exact ⟨rfl, fun _ => rfl⟩ | exact absurd h (by decide)

end Visit

namespace Node

/-- The functions that are hoisted out of a statement are function declarations that statements
lead to: read as expressions, those all would have expressions for parts. -/
theorem of_mem_hoistedFunctions (n : Node) {f : Node} (h : f ∈ n.hoistedFunctions) :
    f.kind.form? = some .functionDecl ∧ Along .resolve n .resolve f := by
  obtain ⟨hf, hvisited⟩ := mem_statementVisits_of_hoistedFunctions h
  obtain ⟨_, hmem⟩ := hvisited false
  have hstep {m c : Node} (hm : Along .resolve n .resolve m) (hkind : m.kind.holdsStatements)
      (hc : c ∈ m.children) : Along .resolve n .resolve c := by
    obtain ⟨hdefers, hbelow⟩ := Visit.resolve_of_holdsStatements hkind
    have hchild := hm.child hdefers hc
    rwa [hbelow c.kind] at hchild
  refine ⟨hf, of_mem_statementVisits (P := fun c _ => Along .resolve n .resolve c) ?_ ?_
    (fun _ => .refl) hmem⟩
  · exact fun m c _ hm hkind hc =>
      hstep hm (Kind.holdsStatements_of_holdsDirectly hkind) (mem_children_of_namedChildren hc)
  · exact fun m c _ hm hkind hc => hstep hm (by rw [hkind]; rfl) (mem_children_of_child? hc)

end Node

/-- A place of a tree: a node that is visited in its way, or a callable that was left for later. -/
def ScopePlace.Lies (root : Node) (p : ScopePlace) : Prop :=
  Node.Way root p.visit p.node ∨
    p.visit = .callable ∧ ∃ visit, Node.Way root visit p.node ∧ visit.defers p.node.kind

/-- A statement stands directly in a place, or in a statement that does and is no place itself. -/
inductive ScopePlace.Holds (p : ScopePlace) : Node → Prop where
  /-- An unbraced branch is a place of its own. -/
  | self (h : p.visit = .ofStatement p.node.kind) : Holds p p.node
  /-- The statements of a file. -/
  | file {c : Node} (h : p.visit = .file) (hc : c ∈ p.node.children) : Holds p c
  /-- The statements of a block or a case. -/
  | item {c : Node} (h : p.visit = .link)
      (hkind : p.node.kind = .statementBlock ∨ p.node.kind = .switchCase ∨
        p.node.kind = .switchDefault)
      (hc : c ∈ p.node.children) : Holds p c
  /-- The statements of the body of a callable. -/
  | body {body c : Node} (h : p.visit = .callable) (hbody : p.node.child? .body = some body)
      (hkind : body.kind = .statementBlock) (hc : c ∈ body.children) : Holds p c
  /-- The declarations in the header of a loop. -/
  | header {c : Node} (h : p.visit = .link) (hkind : p.node.kind = .forStatement)
      (hc : c ∈ p.node.children) (hfield : c.field.any Field.isHeader) : Holds p c
  /-- The declaration that is exported, or the statement with a label. -/
  | inner {m c : Node} (hm : Holds p m)
      (hkind : m.kind = .exportStatement ∨ m.kind = .labeledStatement) (hc : c ∈ m.children) :
      Holds p c

namespace ScopePlace

open Node

variable {p : ScopePlace} {n m c q : Node}

/-- What a place holds is visited from it. -/
theorem Holds.along (h : p.Holds n) : Along p.visit p.node (.ofStatement n.kind) n := by
  have hlink {c : Node} (h : p.visit = .link) (hkind : p.node.kind.holdsStatements)
      (hc : c ∈ p.node.children) : Along p.visit p.node (.ofStatement c.kind) c := by
    rw [h, ← Visit.below_link hkind]
    exact Along.refl.child (Visit.defers_link hkind) hc
  induction h with
  | self h =>
    rw [h]
    exact .refl
  | file h hc =>
    rw [h]
    exact Along.refl.child rfl hc
  | item h hkind hc =>
    refine hlink h ?_ hc
    rcases hkind with hkind | hkind | hkind <;> rw [hkind] <;> rfl
  | @body body c h hbody hkind hc =>
    rw [h]
    have hstep : Along .callable p.node .link body := by
      have hbelow : Visit.callable.below p.node.kind body.kind = .link := by
        rw [hkind]
        rfl
      rw [← hbelow]
      exact Along.refl.child rfl (mem_children_of_child? hbody)
    have hholds : body.kind.holdsStatements := by rw [hkind]; rfl
    rw [← Visit.below_link hholds]
    exact hstep.child (Visit.defers_link hholds) hc
  | header h hkind hc _ => exact hlink h (by rw [hkind]; rfl) hc
  | @inner m c _ hkind hc ih =>
    have hholds : m.kind.holdsStatements := by
      rcases hkind with hkind | hkind <;> rw [hkind] <;> rfl
    rw [Visit.ofStatement_eq_link hholds] at ih
    rw [← Visit.below_link hholds]
    exact ih.child (Visit.defers_link hholds) hc

theorem Holds.mem_nodes (h : p.Holds n) : n ∈ p.node.nodes :=
  h.along.mem_nodes

end ScopePlace

/-! ## Regions -/

/-- Whether a kind is that of a loop. -/
def Kind.isLoop (kind : Kind) : Bool :=
  match kind.form? with
  | some .countedLoop | some .iteration | some .whileLoop | some .doLoop => true
  | _ => false

namespace Node

/-- A node is the body of a callable. -/
def IsBody (root n : Node) : Prop :=
  ∃ c ∈ root.callables, c.kind.isClass = false ∧ c.child? .body = some n

/-- A node is a branch or the body of a loop, braced or not. -/
inductive IsBranch (root n : Node) : Prop where
  | consequence {s : Node} (hs : s ∈ root.descendants) (hform : s.kind.form? = some .conditional)
      (hn : s.child? .consequence = some n)
  | alternative {s clause : Node} (hs : s ∈ root.descendants)
      (hform : s.kind.form? = some .conditional) (hclause : s.child? .alternative = some clause)
      (hn : n ∈ clause.namedChildren)
  | loop {s : Node} (hs : s ∈ root.descendants) (hloop : s.kind.isLoop)
      (hn : s.child? .body = some n)

/-- **The regions of a tree**: the file, the callables with their parameters, the loops, the cases,
the branches, and the blocks that are not the body of a callable. What is declared by `let` or
`const` in a region is not visible outside of it. -/
inductive IsRegion (root n : Node) : Prop where
  | file (h : n = root)
  | callable (h : n.kind.isCallable)
  | loop (h : n.kind.isLoop)
  | arm (h : n.kind = .switchCase ∨ n.kind = .switchDefault)
  | branch (h : root.IsBranch n)
  | block (h : n.kind = .statementBlock) (hbody : ¬ root.IsBody n)

variable {root n : Node}

/-- The statements that have branches. -/
theorem IsBranch.parent (h : root.IsBranch n) (hroot : root.Grammatical) :
    ∃ s ∈ root.descendants, n ∈ s.children ∧ (s.kind = .ifStatement ∨ s.kind = .elseClause ∨
      s.kind.isLoop ∧ n.field = some .body) := by
  cases h with
  | @consequence s hs hform hn =>
    exact ⟨s, hs, mem_children_of_child? hn, .inl (Kind.eq_of_form hform rfl)⟩
  | @alternative s clause hs hform hclause hn =>
    have hs' : s ∈ root.nodes := mem_nodes_of_descendant hs
    have hmem := mem_children_of_child? hclause
    refine ⟨clause, mem_descendants_trans (child_mem_nodes hmem) hs,
      mem_children_of_namedChildren hn, .inr (.inl ?_)⟩
    exact hroot.kind_eq hs' hclause (by rw [Kind.eq_of_form hform rfl]; rfl)
  | @loop s hs hloop hn =>
    exact ⟨s, hs, mem_children_of_child? hn, .inr (.inr ⟨hloop, field_of_child? hn⟩)⟩

end Node

namespace ScopePlace

open Node

variable {p : ScopePlace} {root n q : Node}

/-- What stands around a node that a place holds. -/
theorem Holds.parent (h : p.Holds n) (hfile : p.visit = .file → p.node = root)
    (hp : p.node ∈ root.nodes) (hn : n ∈ p.node.descendants) :
    ∃ s ∈ root.nodes, n ∈ s.children ∧ (s = root ∨ s.kind = .statementBlock ∨
      s.kind = .switchCase ∨ s.kind = .switchDefault ∨ s.kind = .exportStatement ∨
      s.kind = .labeledStatement ∨ s.kind = .forStatement ∧ n.field.any Field.isHeader) := by
  cases h with
  | self => exact absurd (size_lt_of_descendant hn) (Nat.lt_irrefl _)
  | file h hc => exact ⟨p.node, hp, hc, .inl (hfile h)⟩
  | item _ hkind hc =>
    refine ⟨p.node, hp, hc, .inr ?_⟩
    rcases hkind with hkind | hkind | hkind <;> simp [hkind]
  | @body body _ _ hbody hkind hc =>
    exact ⟨body, mem_nodes_trans (child_mem_nodes (mem_children_of_child? hbody)) hp, hc,
      .inr (.inl hkind)⟩
  | header _ hkind hc hfield =>
    exact ⟨p.node, hp, hc, .inr (.inr (.inr (.inr (.inr (.inr ⟨hkind, hfield⟩)))))⟩
  | @inner m _ hm hkind hc =>
    refine ⟨m, mem_nodes_trans hm.mem_nodes hp, hc, .inr ?_⟩
    rcases hkind with hkind | hkind <;> simp [hkind]

/-- A place does not hold the branches of statements. -/
theorem Holds.not_isBranch (h : p.Holds n) (hlaid : root.LaidOut) (hroot : root.Grammatical)
    (hfile : p.visit = .file → p.node = root) (hp : p.node ∈ root.nodes)
    (hn : n ∈ p.node.descendants) (hne : n.span.Nonempty) : ¬ root.IsBranch n := by
  intro hbranch
  obtain ⟨s, hs, hns, hkind⟩ := hbranch.parent hroot
  obtain ⟨t, ht, hnt, hkind'⟩ := h.parent hfile hp hn
  obtain rfl := hlaid.parent_unique (mem_nodes_of_descendant hs) ht hns hnt hne
  rcases hkind' with rfl | hkind'
  · exact absurd (size_lt_of_descendant hs) (Nat.lt_irrefl _)
  · generalize s.kind = kind at hkind hkind'
    cases kind <;> simp_all [Kind.isLoop, Kind.form?, Field.isHeader]

/-- What stands between a place and a statement in it: nothing but the body of a callable, exports
and labels. -/
theorem Holds.between (h : p.Holds n) (hlaid : root.LaidOut) (hp : p.node ∈ root.nodes)
    (hne : n.span.Nonempty) (hq : q ∈ p.node.descendants) (hnq : n ∈ q.nodes) :
    q = n ∨ p.Holds q ∧ (q.kind = .exportStatement ∨ q.kind = .labeledStatement) ∨
      p.visit = .callable ∧ p.node.child? .body = some q ∧ q.kind = .statementBlock := by
  have hchild {c : Node} (hc : c ∈ p.node.children) (hne : c.span.Nonempty) (hcq : c ∈ q.nodes) :
      q = c := by
    rcases mem_nodes_iff.1 hcq with heq | hcq
    · exact heq.symm
    · exact absurd hcq (hlaid.not_between hp hc hne hq)
  induction h with
  | self =>
    have hlt := size_lt_of_descendant hq
    rcases mem_nodes_iff.1 hnq with heq | hnq
    · rw [heq] at hlt
      exact absurd hlt (Nat.lt_irrefl _)
    · exact absurd hlt (Nat.lt_asymm (size_lt_of_descendant hnq))
  | file _ hc => exact .inl (hchild hc hne hnq)
  | item _ _ hc => exact .inl (hchild hc hne hnq)
  | header _ _ hc _ => exact .inl (hchild hc hne hnq)
  | @body body c h hbody hkind hc =>
    have hmem := mem_children_of_child? hbody
    have hbody' : body ∈ root.nodes := mem_nodes_trans (child_mem_nodes hmem) hp
    rcases mem_nodes_iff.1 hnq with heq | hnq
    · exact .inl heq.symm
    · have hbq := hlaid.mem_nodes_of_child hbody' (mem_nodes_trans (mem_nodes_of_descendant hq) hp)
        hc hne hnq
      obtain rfl := hchild hmem (hne.of_contains (hlaid.nested body hbody' c hc)) hbq
      exact .inr (.inr ⟨h, hbody, hkind⟩)
  | @inner m c hm hkind hc ih =>
    have hm' : m ∈ root.nodes := mem_nodes_trans hm.mem_nodes hp
    rcases mem_nodes_iff.1 hnq with heq | hnq
    · exact .inl heq.symm
    · have hmq := hlaid.mem_nodes_of_child hm' (mem_nodes_trans (mem_nodes_of_descendant hq) hp)
        hc hne hnq
      rcases ih (hne.of_contains (hlaid.nested m hm' c hc)) hmq with rfl | h
      · exact .inr (.inl ⟨hm, hkind⟩)
      · exact .inr h

/-- **A place lies in every region around the declarations in it.** -/
theorem Holds.mem_of_region (h : p.Holds n) (hlaid : root.LaidOut) (hroot : root.Grammatical)
    (hfile : p.visit = .file → p.node = root)
    (hcallable : p.visit = .callable → p.node.kind.isCallable ∧ p.node.kind.isClass = false)
    (hp : p.node ∈ root.nodes) (hne : n.span.Nonempty) (hkind : n.kind = .lexicalDeclaration)
    (hq : q ∈ root.nodes) (hregion : root.IsRegion q) (hnq : n ∈ q.nodes) : p.node ∈ q.nodes := by
  rcases hlaid.comparable_of_mem hp hq hne h.mem_nodes hnq with hpq | hqp
  · exact hpq
  rcases mem_nodes_iff.1 hqp with rfl | hqp
  · exact self_mem_nodes _
  exfalso
  have hqne : q.span.Nonempty := hne.of_contains (hlaid.nested.contains hq hnq)
  have hnotFile : q ≠ root := by
    rintro rfl
    exact absurd (size_lt_of_descendant (mem_descendants_trans hp hqp)) (Nat.lt_irrefl _)
  -- The regions strictly inside the place would have to stand between it and the declaration.
  rcases h.between hlaid hp hne hqp hnq with rfl | ⟨hholds, hq'⟩ | ⟨hvisit, hbody, hblock⟩
  · cases hregion with
    | file h => exact hnotFile h
    | branch h' => exact h.not_isBranch hlaid hroot hfile hp hqp hqne h'
    | _ h => simp [hkind, Kind.isCallable, Kind.isLoop, Kind.form?] at h
  · cases hregion with
    | file h => exact hnotFile h
    | branch h' => exact hholds.not_isBranch hlaid hroot hfile hp hqp hqne h'
    | _ h => rcases hq' with hq' | hq' <;> simp [hq', Kind.isCallable, Kind.isLoop, Kind.form?] at h
  · cases hregion with
    | file h => exact hnotFile h
    | branch h' =>
      obtain ⟨s, hs, hqs, hkind'⟩ := h'.parent hroot
      have hmem := mem_children_of_child? hbody
      obtain rfl := hlaid.parent_unique (mem_nodes_of_descendant hs) hp hqs hmem hqne
      have hcallable' := (hcallable hvisit).1
      generalize p.node.kind = kind at hkind' hcallable'
      cases kind <;> simp_all [Kind.isLoop, Kind.form?, Kind.isCallable]
    | block _ hnot => exact hnot ⟨p.node, mem_callables.2 ⟨hp, (hcallable hvisit).1⟩,
        (hcallable hvisit).2, hbody⟩
    | _ h => simp [hblock, Kind.isCallable, Kind.isLoop, Kind.form?] at h

end ScopePlace

end DeadCode
