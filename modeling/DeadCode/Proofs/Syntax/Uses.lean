import DeadCode.Proofs.Syntax.Places
import DeadCode.Resolution.Callable

/-! # Names that are bound and names that are used

What a file binds and what it uses, read off its tree alone. -/

namespace DeadCode

/-- Among distinct elements of a list, the sum of a quantity is at most that of the list. -/
theorem sum_map_le_of_subset {α : Type} (f : α → Nat) {xs ys : List α} (hnodup : xs.Nodup)
    (hsub : ∀ x ∈ xs, x ∈ ys) : (xs.map f).sum ≤ (ys.map f).sum := by
  induction xs generalizing ys with
  | nil => exact Nat.zero_le _
  | cons x rest ih =>
    obtain ⟨hx, hrest⟩ := List.nodup_cons.1 hnodup
    obtain ⟨before, after, rfl⟩ := List.append_of_mem (hsub x List.mem_cons_self)
    have hle : (rest.map f).sum ≤ ((before ++ after).map f).sum := by
      refine ih hrest fun y hy => ?_
      have hyx : y ≠ x := fun heq => hx (heq ▸ hy)
      simpa [hyx] using hsub y (List.mem_cons_of_mem _ hy)
    simp only [List.map_cons, List.sum_cons, List.map_append, List.sum_append] at hle ⊢
    omega

/-! ## Bound names -/

namespace Node

/-- The names that a pattern declares: those it binds, and the text of a pattern that stands in the
place of a name with a default. -/
def declaredNames (source : String) (pattern : Node) : List String :=
  let names := pattern.patternNames source
  names ++ ((pattern.patternKeys source).map Prod.fst).filter (· ∉ names)

theorem mem_declaredNames_of_patternNames {source name : String} {pattern : Node}
    (h : name ∈ pattern.patternNames source) : name ∈ pattern.declaredNames source :=
  List.mem_append_left _ h

theorem mem_declaredNames_of_patternKeys {source : String} {pattern : Node}
    {entry : String × Option String} (h : entry ∈ pattern.patternKeys source) :
    entry.1 ∈ pattern.declaredNames source := by
  by_cases hname : entry.1 ∈ pattern.patternNames source
  · exact mem_declaredNames_of_patternNames hname
  · refine List.mem_append_right _ (List.mem_filter.2 ⟨List.mem_map_of_mem h, ?_⟩)
    simpa using hname

/-- The name a function declaration binds. -/
def functionNames (source : String) (n : Node) : List String :=
  if n.kind.form? = some .functionDecl then (n.name? source).toList else []

/-- The names a callable binds as its parameters. -/
def parameterNames (source : String) (n : Node) : List String :=
  (n.parameters?.map (·.patternNames source)).getD []

/-- The names that a node binds, as parameters, variables, classes or imports, or as the name of a
function literal. -/
def otherNames (source : String) (n : Node) : List String :=
  n.parameterNames source ++
    match n.kind with
    | .classDeclaration | .abstractClassDeclaration | .functionExpression | .functionLiteral
    | .generatorFunction => (n.name? source).toList
    | .variableDeclarator => ((n.child? .name).map (·.declaredNames source)).getD []
    | .catchClause => ((n.child? .parameter).map (·.patternNames source)).getD []
    | .forInStatement =>
      if (n.child? .kind).isSome then ((n.child? .left).map (·.patternNames source)).getD [] else []
    | .importStatement => (n.importBindings source).map Prod.fst
    | _ => []

/-- The names that a node binds. -/
def binds (source : String) (n : Node) : List String :=
  n.functionNames source ++ n.otherNames source

/-- A file binds a name exactly once. -/
def BoundOnce (source : String) (root : Node) (name : String) : Prop :=
  (root.nodes.flatMap (·.binds source)).count name = 1

instance (source : String) (root : Node) (name : String) : Decidable (root.BoundOnce source name) :=
  inferInstanceAs (Decidable ((root.nodes.flatMap (·.binds source)).count name = 1))

variable {source name : String} {root f m : Node}

theorem mem_functionNames (hform : f.kind.form? = some .functionDecl)
    (hname : f.name? source = some name) : name ∈ f.functionNames source := by
  simp [functionNames, hform, hname]

theorem eq_of_count_flatMap {names : Node → List String} {ns : List Node}
    (h : (ns.flatMap names).count name = 1) (hf : f ∈ ns) (hm : m ∈ ns)
    (hfname : name ∈ names f) (hmname : name ∈ names m) : m = f := by
  by_contra hne
  have hle : ([m, f].map fun n => (names n).count name).sum ≤
      (ns.map fun n => (names n).count name).sum :=
    sum_map_le_of_subset _ (by simp [hne]) (by simp [hf, hm])
  have hsum : (ns.map fun n => (names n).count name).sum = 1 := by
    rw [← h, List.count_flatMap]
    rfl
  have hf' : 0 < (names f).count name := List.count_pos_iff.2 hfname
  have hm' : 0 < (names m).count name := List.count_pos_iff.2 hmname
  simp only [List.map_cons, List.map_nil, List.sum_cons, List.sum_nil] at hle
  omega

theorem BoundOnce.eq (h : root.BoundOnce source name) (hf : f ∈ root.nodes) (hm : m ∈ root.nodes)
    (hfname : name ∈ f.binds source) (hmname : name ∈ m.binds source) : m = f :=
  eq_of_count_flatMap h hf hm hfname hmname

theorem BoundOnce.not_mem_otherNames (h : root.BoundOnce source name) (hf : f ∈ root.nodes)
    (hfname : name ∈ f.functionNames source) (hm : m ∈ root.nodes) : name ∉ m.otherNames source := by
  intro hmname
  obtain rfl := h.eq hf hm (List.mem_append_left _ hfname) (List.mem_append_right _ hmname)
  -- Then the function itself binds it twice.
  have hle : ([m].map fun n => (n.binds source).count name).sum ≤
      (root.nodes.map fun n => (n.binds source).count name).sum :=
    sum_map_le_of_subset _ (List.nodup_singleton m) (by simp [hf])
  have hsum : (root.nodes.map fun n => (n.binds source).count name).sum = 1 := by
    rw [← h, List.count_flatMap]
    rfl
  have hf' : 0 < (m.functionNames source).count name := List.count_pos_iff.2 hfname
  have hm' : 0 < (m.otherNames source).count name := List.count_pos_iff.2 hmname
  simp only [binds, List.count_append, List.map_cons, List.map_nil, List.sum_cons,
    List.sum_nil] at hle hsum
  omega

end Node

/-! ## Uses -/

/-- A node from which a name is read: a name, a pattern, or what stands in a field for a name. -/
def Node.Spells (n : Node) : Prop :=
  n.kind = .identifier ∨ n.kind = .shorthandPropertyIdentifier ∨ n.kind = .objectPattern ∨
    n.kind = .arrayPattern ∨ n.field = some .name

instance (n : Node) : Decidable n.Spells :=
  inferInstanceAs (Decidable (n.kind = .identifier ∨ n.kind = .shorthandPropertyIdentifier ∨
    n.kind = .objectPattern ∨ n.kind = .arrayPattern ∨ n.field = some .name))

/-- One use of names. -/
inductive Use where
  /-- A name that is read or written. -/
  | name (n : Node) (kind : RelationKind)
  /-- A name that is passed as an argument. -/
  | argument (n : Node)
  /-- A chain of members of a name that is read, written or deleted. -/
  | member (n : Node) (chain : List String) (kind : RelationKind)
  /-- A name that is called. -/
  | call (n target : Node) (callee : String)
  /-- A chain of members of a name that is called. -/
  | memberCall (n target : Node) (chain : List String)
  /-- The names of a pattern that are written. -/
  | pattern (n : Node)

namespace Use

/-- The node of a use. -/
def node : Use → Node
  | name n _ | argument n | member n _ _ | call n _ _ | memberCall n _ _ | pattern n => n

/-- The node that spells what is used. -/
def spot : Use → Node
  | name n _ | argument n | member n _ _ | pattern n => n
  | call _ target _ | memberCall _ target _ => target

/-- The name that is used in a way that counts, that is, not only written. -/
def base? (source : String) : Use → Option String
  | name n .read | argument n => n.text? source
  | member _ chain _ | memberCall _ _ chain => chain.head?
  | call _ _ callee => some callee
  | name _ _ | pattern _ => none

/-- Whether only a name of its own is used, and no member. -/
def isPlain : Use → Bool
  | name _ _ | argument _ | call _ _ _ | pattern _ => true
  | member _ _ _ | memberCall _ _ _ => false

end Use

/-- What visiting a piece of a tree comes to. -/
inductive Leaf where
  /-- A use of names. -/
  | use (use : Use)
  /-- A callable that is left for later. -/
  | defer (n : Node)

/-! ## Leaves of expressions -/

mutual

/-- The leaves of an expression. -/
def expressionLeaves (source : String) (n : Node) : List Leaf :=
  match n.kind with
  | .comment => []
  | .identifier | .shorthandPropertyIdentifier => [.use (.name n .read)]
  | .memberExpression | .subscriptExpression => memberLeaves source n .readProp
  | .callExpression => callLeaves source n .function
  | .newExpression => callLeaves source n .constructor
  | .assignmentExpression =>
    (n.under .right fun right _ => expressionLeaves source right) ++
      n.under .left fun left _ => targetLeaves source left
  | .augmentedAssignmentExpression =>
    (n.under .right fun right _ => expressionLeaves source right) ++
      n.under .left fun left _ => updateLeaves source left
  | .updateExpression => n.under .argument fun argument _ => updateLeaves source argument
  | .unaryExpression =>
    let isDelete := (n.child? .operator).bind (·.text? source) = some "delete"
    n.under .argument fun argument _ =>
      if isDelete && (argument.kind = .memberExpression || argument.kind = .subscriptExpression) then
        memberLeaves source argument .deleteProp
      else
        expressionLeaves source argument
  | .functionExpression | .functionLiteral | .generatorFunction | .arrowFunction => [.defer n]
  | .classLiteral => classLeaves source n
  | .objectLiteral =>
    n.overNamed fun part _ =>
      match part.kind with
      | .pair =>
        (part.under .key fun key _ =>
          if key.kind = .computedPropertyName then expressionLeaves source key else []) ++
          part.under .value fun value _ => expressionLeaves source value
      | .methodDefinition => [.defer part]
      | _ => expressionLeaves source part
  | .stringLiteral | .numberLiteral | .regexLiteral | .trueLiteral | .falseLiteral | .nullLiteral
  | .undefinedLiteral | .thisLiteral | .superLiteral | .propertyIdentifier
  | .privatePropertyIdentifier | .statementIdentifier | .stringFragment | .escapeSequence => []
  | _ => n.overNamed fun c _ => expressionLeaves source c
termination_by 4 * n.size + 2

/-- The leaves of a member expression. -/
def memberLeaves (source : String) (n : Node) (kind : RelationKind) : List Leaf :=
  match n.memberChain? source with
  | some chain => [.use (.member n chain kind)]
  | none =>
    (n.under .object fun object _ => expressionLeaves source object) ++
      n.under .index fun index _ => expressionLeaves source index
termination_by 4 * n.size + 1

/-- The leaves of the left side of an assignment. -/
def targetLeaves (source : String) (n : Node) : List Leaf :=
  match n.kind with
  | .identifier => [.use (.name n .write)]
  | .memberExpression | .subscriptExpression => memberLeaves source n .writeProp
  | .objectPattern | .arrayPattern => [.use (.pattern n)]
  | .parenthesizedExpression => n.overNamed fun inner _ => targetLeaves source inner
  | _ => expressionLeaves source n
termination_by 4 * n.size + 3

/-- The leaves of a target that is read and then written. -/
def updateLeaves (source : String) (n : Node) : List Leaf :=
  match n.kind with
  | .identifier => [.use (.name n .read), .use (.name n .write)]
  | .memberExpression | .subscriptExpression =>
    memberLeaves source n .readProp ++ memberLeaves source n .writeProp
  | _ => expressionLeaves source n
termination_by 4 * n.size + 3

/-- The leaves of a call. -/
def callLeaves (source : String) (n : Node) (calleeField : Field) : List Leaf :=
  (n.under calleeField fun target _ => calleeLeaves source n target) ++
    n.under .arguments fun arguments _ =>
      arguments.overNamed fun argument _ =>
        if argument.kind = .identifier then [.use (.argument argument)]
        else expressionLeaves source argument
termination_by 4 * n.size + 1

/-- The leaves of what a call calls. -/
def calleeLeaves (source : String) (n target : Node) : List Leaf :=
  match target.kind with
  | .identifier =>
    match target.text? source with
    | some name => [.use (.call n target name)]
    | none => []
  | .memberExpression | .subscriptExpression =>
    match target.memberChain? source with
    | some chain => [.use (.memberCall n target chain)]
    | none => expressionLeaves source target
  | _ => expressionLeaves source target
termination_by 4 * target.size + 3

/-- The leaves of a class: its heritage, its methods, and the values of its fields. -/
def classLeaves (source : String) (n : Node) : List Leaf :=
  (n.overNamed fun part _ =>
    if part.kind = .classHeritage then part.overNamed fun base _ => expressionLeaves source base
    else []) ++
    n.under .body fun body _ =>
      body.overNamed fun part _ =>
        match part.kind with
        | .methodDefinition => [.defer part]
        | .fieldDefinition | .publicFieldDefinition =>
          part.under .value fun value _ => expressionLeaves source value
        | _ => []
termination_by 4 * n.size

end

/-! ## Leaves of statements -/

/-- The leaves of the child under a field, as an expression. -/
def fieldLeaves (source : String) (n : Node) (field : Field) : List Leaf :=
  ((n.child? field).map (expressionLeaves source)).getD []

/-- The leaves of the names an export clause lists. -/
def exportLeaves (source : String) (n : Node) : List Leaf :=
  match n.child? .value with
  | some value => expressionLeaves source value
  | none =>
    if (n.child? .source).isSome then []
    else
      (n.namedChildren.filter (·.kind = .exportClause)).flatMap fun clause =>
        clause.namedChildren.flatMap fun specifier =>
          (specifier.child? .name).toList.map fun name => .use (.name name .read)

/-- The leaves of the target of a loop over an object. -/
def iterationLeaves (source : String) (n : Node) : List Leaf :=
  match (n.child? .kind).bind (·.text? source) with
  | some _ => []
  | none => ((n.child? .left).map (targetLeaves source)).getD []

/-- The leaves of all named children, as expressions. -/
def partLeaves (source : String) (n : Node) : List Leaf :=
  n.namedChildren.flatMap (expressionLeaves source)

mutual

/-- The leaves of a statement, with those of the statements in it. -/
def statementLeaves (source : String) (n : Node) : List Leaf :=
  match n.kind.form? with
  | none | some .importDecl | some .inert => []
  | some .block => n.overNamed fun c _ => statementLeaves source c
  | some .exportDecl =>
    (n.under .declaration fun declaration _ => statementLeaves source declaration) ++
      if (n.child? .declaration).isSome then [] else exportLeaves source n
  | some .functionDecl => [.defer n]
  | some .classDecl => classLeaves source n
  | some .lexicalDecl | some .varDecl => n.declarators.flatMap (fieldLeaves source · .value)
  | some .conditional =>
    fieldLeaves source n .condition ++
      (n.under .consequence fun body _ => statementLeaves source body) ++
      n.under .alternative fun clause _ => clause.overNamed fun body _ => statementLeaves source body
  | some .selection =>
    fieldLeaves source n .value ++
      n.under .body fun body _ =>
        body.overNamed fun case _ =>
          fieldLeaves source case .value ++
            case.among (case.without .value).namedChildren
              (fun _ h => Node.size_lt_of_mem (Node.mem_children_of_mem_without
                (Node.mem_children_of_namedChildren h)))
              fun c _ => statementLeaves source c
  | some .countedLoop =>
    (n.among (n.childrenAt .initializer) (fun _ => Node.size_lt_of_mem_childrenAt)
      fun part _ => clauseLeaves source part) ++
      (n.among (n.childrenAt .condition) (fun _ => Node.size_lt_of_mem_childrenAt)
        fun part _ => clauseLeaves source part) ++
      (n.among (n.childrenAt .increment) (fun _ => Node.size_lt_of_mem_childrenAt)
        fun part _ => clauseLeaves source part) ++
      n.under .body fun body _ => statementLeaves source body
  | some .iteration =>
    fieldLeaves source n .right ++ iterationLeaves source n ++
      n.under .body fun body _ => statementLeaves source body
  | some .whileLoop | some .doLoop =>
    fieldLeaves source n .condition ++ n.under .body fun body _ => statementLeaves source body
  | some .guarded =>
    (n.under .body fun body _ => statementLeaves source body) ++
      (n.under .handler fun handler _ =>
        handler.under .body fun body _ => body.overNamed fun c _ => statementLeaves source c) ++
      n.under .finalizer fun finalizer _ =>
        finalizer.under .body fun body _ => statementLeaves source body
  | some .labeled => n.under .body fun body _ => statementLeaves source body
  | some .returning | some .throwing | some .expression => partLeaves source n
termination_by 2 * n.size

/-- The leaves of a part of the header of a counted loop. -/
def clauseLeaves (source : String) (n : Node) : List Leaf :=
  match n.kind.form? with
  | some .lexicalDecl | some .varDecl => statementLeaves source n
  | some _ => partLeaves source n
  | none => expressionLeaves source n
termination_by 2 * n.size + 1

end

/-! ## Leaves of callables and files -/

/-- The leaves of the statements of a body. -/
def bodyLeaves (source : String) (body : Node) : List Leaf :=
  body.namedChildren.flatMap (statementLeaves source)

/-- The leaves of a callable: those of the default values of its parameters and of its body. -/
def callableLeaves (source : String) (n : Node) : List Leaf :=
  (n.parameters?.toList.flatMap fun parameters =>
    parameters.namedChildren.flatMap fun parameter =>
      ((Build.defaultValue? parameter).map (expressionLeaves source)).getD []) ++
    match n.child? .body with
    | some body =>
      if body.kind = .statementBlock then bodyLeaves source body else expressionLeaves source body
    | none => []

/-- **The leaves of a file** with all its callables: those of the top level, and those of every
callable that is left for later. -/
inductive Node.Seen (source : String) (root : Node) : Leaf → Prop where
  | file {leaf : Leaf} (h : leaf ∈ bodyLeaves source root) : Seen source root leaf
  | enter {d : Node} {leaf : Leaf} (hd : Seen source root (.defer d))
      (h : leaf ∈ callableLeaves source d) : Seen source root leaf

end DeadCode
