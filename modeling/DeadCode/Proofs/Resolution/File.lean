import DeadCode.Proofs.Resolution.WorkList

/-! # Resolving a whole file

A file is resolved in three phases: the top level is hoisted and linked, the callables are worked
off, and the returns are related to the calls. -/

namespace DeadCode

open Builder Node

namespace Builder

/-- The builder that resolving a file starts from. -/
def start (path : Path) (ambient : List String) : Builder :=
  { graph := { path }, scopes := .ofAmbient ambient }

/-- A file begins with a valid builder. -/
theorem valid_start (root : Node) (path : Path) (ambient : List String) :
    (start path ambient).Valid root where
  scopes := ScopeTree.wellFormed_ofAmbient ambient
  bindings := ScopeTree.sound_ofAmbient ambient
  statements := by simp [start]
  keys := List.nodup_nil
  callables := by simp [start]
  callSites := by simp [start]
  returns := by simp [start]

end Builder

namespace Build

variable {root : Node} {b : Builder}

/-- The first phase: the top level of a file is hoisted and linked. -/
def topLevel (source : String) (root : Node) : Build Unit := do
  hoistBody source root ScopeTree.globalId true
  linkBody source root ScopeTree.globalId none

theorem file_eq (source : String) (root : Node) : file source root = (do
    topLevel source root
    enterAll source root.entryBound
    connectReturns) := by
  simp only [file, topLevel, bind_assoc]

/-- Linking the statements of the file. -/
theorem outcome_topLevel (hb : b.Valid root) (source : String) :
    Outcome root (Met root .file root) b (topLevel source root) fun _ b' =>
      ∀ d ∈ root.bodyVisits true, d.1.hoistsHere source d.2 → ∃ v, b'.StandsFor v d.1 := by
  have hstatements (c : Node) (hc : c ∈ root.children) (d : Node)
      (hd : Met root (.ofStatement c.kind) c d) : Met root .file root d :=
    hd.child hc (fun _ => rfl) fun _ => rfl
  have hroot := self_mem_nodes root
  refine (outcome_hoistBody hb source hroot hb.scopes.size_pos true hstatements).bind
    fun _ b₁ h₁ hhoisted => ?_
  exact (outcome_linkBody h₁.valid source hroot h₁.valid.scopes.size_pos (by simp)
    hstatements).imp fun _ _ h₂ _ d hd hhere => (hhoisted d hd hhere).imp fun _ hv => hv.mono h₂.grows

/-- Relating calls to returns. -/
theorem outcome_connectReturns (hb : b.Valid root) :
    Outcome root (fun _ => False) b connectReturns Anything := by
  refine .bind_get (.forM hb fun site hsite b₁ h₁ => .forM h₁.valid fun return_ hreturn b₂ h₂ => ?_)
  have hg := (h₁.trans h₂).grows
  refine outcome_connect h₂.valid ?_ ?_ (by simp)
  · exact hg.graph.lt_size
      (hb.returns return_ (Array.mem_toList_iff.1 (List.mem_filter.1 hreturn).1))
  · exact hg.graph.lt_size (hb.callSites site (Array.mem_toList_iff.1 hsite))

/-- **The phases of a file.** Unless the tree is not nested, the top level is linked, then the loop
over the callables ends, and then the returns are related. -/
theorem file_phases (path : Path) (source : String) (root : Node) (ambient : List String) :
    (∃ error, file source root (start path ambient) = .error error ∧ ¬ root.Nested) ∨
      ∃ b₁ b₂ b₃, topLevel source root (start path ambient) = .ok ((), b₁) ∧
        (start path ambient).Reaches root (Met root .file root) b₁ ∧
        Drains source b₁ (.ok b₂) ∧ b₂.Reaches root (fun _ => False) b₃ ∧
        file source root (start path ambient) = .ok ((), b₃) := by
  have hstart := outcome_topLevel (valid_start root path ambient) source
  rw [file_eq]
  -- The phases run one after another, and the first that fails ends the run.
  rw [Outcome] at hstart
  cases htop : topLevel source root (start path ambient) with
  | error error =>
    rw [htop] at hstart
    exact .inl ⟨error, bind_apply_of_error htop _, hstart⟩
  | ok r₁ =>
    obtain ⟨⟨⟩, b₁⟩ := r₁
    rw [htop] at hstart
    obtain ⟨h₁, -⟩ := hstart
    rw [bind_apply_of_ok htop]
    have hdrains := drains_enterAll source h₁.valid h₁.valid.load_le
    cases hall : enterAll source root.entryBound b₁ with
    | error error =>
      rw [hall] at hdrains
      exact .inl ⟨error, bind_apply_of_error hall _, hdrains.not_nested h₁.valid⟩
    | ok r₂ =>
      obtain ⟨⟨⟩, b₂⟩ := r₂
      rw [hall] at hdrains
      rw [bind_apply_of_ok hall]
      have hb₂ : b₂.Valid root :=
        (hdrains.invariant (fun _ _ _ _ _ => trivial) h₁.valid trivial).1
      have hreturns := outcome_connectReturns hb₂
      rw [Outcome] at hreturns
      cases hlast : connectReturns b₂ with
      | error error =>
        rw [hlast] at hreturns
        exact .inl ⟨error, rfl, hreturns⟩
      | ok r₃ =>
        obtain ⟨⟨⟩, b₃⟩ := r₃
        rw [hlast] at hreturns
        exact .inr ⟨b₁, b₂, b₃, rfl, h₁, hdrains, hreturns.1, rfl⟩

end Build

theorem build?_eq (path : Path) (source : String) (root : Node) (ambient : List String) :
    StatementGraph.build? path source root ambient =
      (Build.file source root (start path ambient)).map fun r => (r.2.graph, r.2.scopes) := by
  rw [StatementGraph.build?]
  change (Build.file source root (start path ambient)).bind _ = _
  cases Build.file source root (start path ambient) with
  | error error => rfl
  | ok r => rfl

/-! ## All that happens to a builder -/

namespace Builder

/-- A step of resolving a file: a move, an entry of a callable, or a change of the queue. -/
inductive Step (root : Node) : Builder → Builder → Prop where
  | move {b b' : Builder} {declared : Node → Prop} (h : Move root declared b b') : Step root b b'
  | enter {b : Builder} {key : Key} {callable : Callable} {scope : ScopeId} {scopes : ScopeTree}
      (h : b.callable? key = some callable)
      (hadd : b.scopes.addScope callable.scope .function = .ok (scope, scopes)) :
      Step root b (b.entering key callable scopes)
  | requeue {b : Builder} (queue : List Key) : Step root b { b with queue }

/-- A builder is reached from another by steps. -/
abbrev Steps (root : Node) : Builder → Builder → Prop :=
  Relation.ReflTransGen (Step root)

variable {root : Node} {b b' : Builder}

/-- Moves are steps. -/
theorem Reaches.steps {declared : Node → Prop} (h : b.Reaches root declared b') :
    Steps root b b' :=
  Relation.ReflTransGen.mono (fun _ _ (h : Move root declared _ _) => .move h) _ _ h.moves

theorem Enters.steps (h : b.Enters root b') : Steps root b b' := by
  obtain ⟨key, callable, scope, scopes, rest, hfound, -, hadd, hreaches⟩ := h
  refine Relation.ReflTransGen.trans ?_ hreaches.steps
  exact .head (.requeue rest) (.single (.enter hfound hadd))

end Builder

variable {path : Path} {source : String} {root : Node} {ambient : List String}
  {graph : StatementGraph} {scopes : ScopeTree}

/-- **What is built is the end of a run of steps.** -/
theorem exists_builder_of_build?
    (h : StatementGraph.build? path source root ambient = .ok (graph, scopes)) :
    ∃ b, Steps root (start path ambient) b ∧ b.Valid root ∧ b.graph = graph ∧ b.scopes = scopes := by
  rw [build?_eq] at h
  rcases Build.file_phases path source root ambient with
    ⟨error, hrun, -⟩ | ⟨b₁, b₂, b₃, -, h₁, hdrains, h₃, hrun⟩
  · rw [hrun] at h
    cases h
  · rw [hrun] at h
    cases h
    refine ⟨b₃, ?_, h₃.valid, rfl, rfl⟩
    -- Being reached by steps is itself an invariant of the loop.
    have hstep (b b' : Builder) (_ : b.Valid root) (hsteps : Steps root (start path ambient) b)
        (henters : b.Enters root b') : Steps root (start path ambient) b' :=
      hsteps.trans henters.steps
    obtain ⟨-, h₂, -⟩ := hdrains.invariant hstep h₁.valid h₁.steps
    exact h₂.trans h₃.steps

/-- A graph is what building its file ends with. -/
theorem exists_file_of_build?
    (h : StatementGraph.build? path source root ambient = .ok (graph, scopes)) :
    ∃ b, Build.file source root (start path ambient) = .ok ((), b) ∧ b.graph = graph ∧
      b.scopes = scopes := by
  rw [build?_eq] at h
  cases hrun : Build.file source root (start path ambient) with
  | error error =>
    rw [hrun] at h
    cases h
  | ok r =>
    rw [hrun] at h
    cases h
    exact ⟨r.2, rfl, rfl, rfl⟩

theorem exists_topLevel_of_build?
    (h : StatementGraph.build? path source root ambient = .ok (graph, scopes)) :
    ∃ b b', Build.topLevel source root (start path ambient) = .ok ((), b) ∧ b.Grows b' ∧
      b'.graph = graph ∧ b'.scopes = scopes := by
  rw [build?_eq] at h
  rcases Build.file_phases path source root ambient with
    ⟨error, hrun, -⟩ | ⟨b₁, b₂, b₃, htop, h₁, hdrains, h₃, hrun⟩
  · rw [hrun] at h
    cases h
  · rw [hrun] at h
    cases h
    obtain ⟨-, h₂, -⟩ := hdrains.invariant
      (fun b b' _ (hgrows : b₁.Grows b) henters => hgrows.trans henters.grows) h₁.valid (.refl b₁)
    exact ⟨b₁, b₃, htop, h₂.trans h₃.grows, rfl, rfl⟩

/-- **The graph of a nested tree can always be built.** -/
theorem exists_build?_of_nested (path : Path) (source : String) {root : Node}
    (ambient : List String) (h : root.Nested) :
    ∃ graph scopes, StatementGraph.build? path source root ambient = .ok (graph, scopes) := by
  rcases Build.file_phases path source root ambient with ⟨error, -, hnot⟩ | ⟨-, -, b, -, -, -, -, hrun⟩
  · exact absurd h hnot
  · refine ⟨b.graph, b.scopes, ?_⟩
    rw [build?_eq, hrun]
    rfl

/-- The arrow function in `class A { m() { () => 0 } }`. -/
def innerArrow : Node :=
  .of .arrowFunction 16 23
    [.part .parameters (.of .formalParameters 16 18 [.token "(" 16 17, .token ")" 17 18]),
     .token "=>" 19 21, .part .body (.of .numberLiteral 22 23)]

/-- The tree of `class A { m() { () => 0 } }`. -/
def classWithMethod : Node :=
  let body : Node :=
    .part .body (.of .statementBlock 14 25
      [.token "\x7b" 14 15, .of .expressionStatement 16 23 [innerArrow], .token "\x7d" 24 25])
  let method : Node :=
    .of .methodDefinition 10 25
      [.part .name (.of .propertyIdentifier 10 11),
       .part .parameters (.of .formalParameters 11 13 [.token "(" 11 12, .token ")" 12 13]), body]
  let members : Node :=
    .part .body (.of (.other "class_body") 8 27 [.token "\x7b" 8 9, method, .token "\x7d" 26 27])
  .of (.other "program") 0 27
    [.of .classDeclaration 0 27
       [.keyword .classLiteral 0 5, .part .name (.of .identifier 6 7), members]]

/-- The graph of `class A { m() { () => 0 } }` can be built. -/
theorem exists_build?_classWithMethod : classWithMethod.Nested ∧ ∃ graph scopes,
    StatementGraph.build? ⟨"a.js"⟩ "class A { m() { () => 0 } }" classWithMethod []
      = .ok (graph, scopes) :=
  ⟨by decide +kernel, exists_build?_of_nested _ _ _ (by decide +kernel)⟩

end DeadCode
