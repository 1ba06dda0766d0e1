import DeadCode.Proofs.Resolution.Declarations
import DeadCode.Resolution.Hoisting

/-! # The way through hoisting

Hoisting goes through the statements of a body from the outside to the inside, and declares the names
of each in their order. So it is one loop over what it comes upon. What is shown of it is shown of its
single steps, and from there of the whole, once for anything that can be said of steps. -/

namespace DeadCode

/-! ## Declarations that are hoisted -/

/-- How a name is declared that is hoisted. -/
inductive HoistSort where
  /-- By a function declaration. -/
  | function
  /-- By a `var` declaration or a loop over `var` names, with a value or without. -/
  | var (hasValue : Bool)
  /-- By an `import` statement. -/
  | imported (origin : Origin)

/-- A declaration of a name that is hoisted. -/
structure HoistedName where
  /-- The statement that declares the name. -/
  node : Node
  /-- The name. -/
  name : String
  /-- How it is declared. -/
  sort : HoistSort

namespace Node

/-- Whether a statement itself hoists names: it gets its place in the graph then. Imports count only at
the top level of a file. -/
def hoistsHere (source : String) (n : Node) (topLevel : Bool) : Bool :=
  match n.kind.form? with
  | some .functionDecl => (n.name? source).isSome
  | some .varDecl => true
  | some .importDecl => topLevel
  | some .iteration => (n.child? .kind).bind (·.text? source) = some "var"
  | _ => false

/-- The names that a statement itself hoists, in the order in which they are declared. -/
def ownHoistedNames (source : String) (n : Node) : List HoistedName :=
  match n.kind.form? with
  | some .functionDecl => (n.name? source).toList.map fun name => ⟨n, name, .function⟩
  | some .varDecl =>
    n.declarators.flatMap fun d =>
      ((d.child? .name).toList.flatMap (·.patternNames source)).map fun name =>
        ⟨n, name, .var (d.child? .value).isSome⟩
  | some .importDecl =>
    (n.importBindings source).map fun entry =>
      ⟨n, entry.1, .imported
        { source := ((n.child? .source).bind (·.stringValue? source)).getD "", name := entry.2 }⟩
  | some .iteration =>
    ((n.child? .left).toList.flatMap (·.patternNames source)).map fun name => ⟨n, name, .var true⟩
  | _ => []

variable {source : String} {n : Node} {topLevel : Bool} {h : HoistedName}

theorem isHoisted_of_hoistsHere (hn : n.hoistsHere source topLevel) :
    n.kind.form?.any Form.isHoisted := by
  cases hform : n.kind.form? with
  | none => simp [hoistsHere, hform] at hn
  | some form => cases form <;> first | rfl | simp [hoistsHere, hform] at hn

/-- The names of a statement are those that it declares, and functions declare their own. -/
theorem of_mem_ownHoistedNames (hn : n.hoistsHere source topLevel)
    (hmem : h ∈ n.ownHoistedNames source) :
    h.node = n ∧ h.name ∈ n.statementNames source ∧
      (h.sort = .function → n.kind.form? = some .functionDecl ∧ n.name? source = some h.name) := by
  unfold hoistsHere at hn
  unfold ownHoistedNames at hmem
  unfold statementNames
  split at hmem
  · next hform =>
    obtain ⟨name, hname, rfl⟩ := List.mem_map.1 hmem
    rw [hform]
    exact ⟨rfl, hname, fun _ => ⟨rfl, Option.mem_toList.1 hname⟩⟩
  · next hform =>
    obtain ⟨d, hd, hmem⟩ := List.mem_flatMap.1 hmem
    obtain ⟨name, hname, rfl⟩ := List.mem_map.1 hmem
    obtain ⟨pattern, hpattern, hname⟩ := List.mem_flatMap.1 hname
    exact ⟨rfl, mem_statementNames_of_declarator (.inr hform) hd (Option.mem_toList.1 hpattern)
      (mem_declaredNames_of_patternNames hname), nofun⟩
  · next hform =>
    obtain ⟨entry, hentry, rfl⟩ := List.mem_map.1 hmem
    rw [hform]
    exact ⟨rfl, List.mem_map_of_mem hentry, nofun⟩
  · next hform =>
    obtain ⟨name, hname, rfl⟩ := List.mem_map.1 hmem
    obtain ⟨left, hleft, hname⟩ := List.mem_flatMap.1 hname
    have hvar : (n.child? .kind).bind (·.text? source) = some "var" := by simpa [hform] using hn
    refine ⟨rfl, ?_, nofun⟩
    simpa [hform, hvar, Option.mem_toList.1 hleft] using hname
  · cases hmem

/-- A function or `var` declaration hoists the names that it binds. -/
theorem exists_ownHoistedName {name : String} (hname : name ∈ n.boundNames source)
    (hform : n.kind.form?.any Form.isHoisted) (topLevel : Bool) :
    n.hoistsHere source topLevel ∧ ∃ g ∈ n.ownHoistedNames source, g.name = name := by
  unfold hoistsHere ownHoistedNames
  unfold boundNames at hname
  split at hname
  · next hfunction =>
    rw [hfunction]
    rw [Option.mem_toList] at hname
    exact ⟨by simp [hname], _, List.mem_map_of_mem (Option.mem_toList.2 hname), rfl⟩
  · next hclass => simp [hclass, Form.isHoisted] at hform
  · next hlexical => simp [hlexical, Form.isHoisted] at hform
  · next hvar =>
    rw [hvar]
    obtain ⟨d, hd, hname⟩ := List.mem_flatMap.1 hname
    refine ⟨rfl, _, List.mem_flatMap.2 ⟨d, hd, List.mem_map_of_mem ?_⟩, rfl⟩
    cases hpattern : d.child? .name with
    | none => simp [hpattern] at hname
    | some pattern => simpa [hpattern] using hname
  · cases hname

/-- Hoisting comes upon what a statement of a body declares. -/
theorem SoleBinder.mem_bodyVisits {root d : Node} {name : String}
    (h : root.SoleBinder source d name) (topLevel : Bool) :
    (d, topLevel) ∈ root.bodyVisits topLevel := by
  obtain ⟨c, hc, hcarries⟩ := h.top
  refine List.mem_flatMap.2 ⟨c, hc, ?_⟩
  rcases hcarries with rfl | ⟨hkind, hd⟩
  · exact self_mem_statementVisits h.form
  · exact mem_statementVisits_of_carried hkind hd (self_mem_statementVisits h.form)

end Node

namespace Build

open Node

/-- Declares one name of a statement that is hoisted. -/
def hoistName (scope : ScopeId) (v : VertexId) (h : HoistedName) : Build Unit :=
  match h.sort with
  | .function => do
    let key ← register h.node scope v
    declare scope { Binding.declared h.name v with callable := some key } .hoisted
  | .var hasValue => hoistVar scope h.name v hasValue
  | .imported origin =>
    declare scope { Binding.declared h.name v with origin := some origin } .hoisted

/-- Declares the names that a statement itself hoists. -/
def hoistHere (source : String) (n : Node) (scope : ScopeId) (topLevel : Bool) : Build Unit :=
  if n.hoistsHere source topLevel then do
    let v ← statementVertex source n scope
    (n.ownHoistedNames source).forM (hoistName scope v)
  else pure ()

/-! ## Hoisting as a loop -/

section Loop

variable {source : String} {n : Node} {scope : ScopeId} {topLevel : Bool} {γ δ : Type}

theorem forM_congr {ys : List γ} {visit visit' : γ → Build Unit}
    (h : ∀ y ∈ ys, visit y = visit' y) : ys.forM visit = ys.forM visit' := by
  induction ys with
  | nil => rfl
  | cons y rest ih =>
    rw [List.forM_eq_forM, List.forM_cons, List.forM_cons, h y List.mem_cons_self]
    exact congrArg (visit' y >>= fun _ => ·) (ih fun z hz => h z (List.mem_cons_of_mem _ hz))

theorem forM_flatMap (ys : List γ) (found : γ → List δ) (visit : δ → Build Unit) :
    (ys.flatMap found).forM visit = ys.forM fun y => (found y).forM visit := by
  induction ys with
  | nil => rfl
  | cons y rest ih =>
    rw [List.flatMap_cons, List.forM_eq_forM, List.forM_append, List.forM_eq_forM, List.forM_cons]
    exact congrArg ((found y).forM visit >>= fun _ => ·) ih

theorem hoistHere_of_not (h : n.hoistsHere source topLevel = false) :
    hoistHere source n scope topLevel = pure () := by
  rw [hoistHere, h]
  rfl

theorem hoistFunction_eq (h : n.kind.form? = some .functionDecl) :
    hoistFunction source n scope = hoistHere source n scope topLevel := by
  unfold hoistFunction hoistHere hoistsHere ownHoistedNames
  rw [h]
  cases n.name? source with
  | none => rfl
  | some name => simp [hoistName]

theorem hoistVars_eq (h : n.kind.form? = some .varDecl) :
    hoistVars source n scope = hoistHere source n scope topLevel := by
  unfold hoistVars hoistHere hoistsHere ownHoistedNames
  rw [h]
  refine congrArg (statementVertex source n scope >>= ·) (funext fun v => ?_)
  dsimp only
  rw [forM_flatMap]
  refine forM_congr fun d _ => ?_
  cases d.child? .name <;> simp [hoistName]

theorem hoistImport_here (h : n.kind.form? = some .importDecl) :
    hoistImport source n scope = hoistHere source n scope true := by
  unfold hoistImport hoistHere hoistsHere ownHoistedNames
  rw [h]
  simp [hoistName]

theorem hoistIteration_eq (h : n.kind.form? = some .iteration) :
    hoistIteration source n scope = hoistHere source n scope topLevel := by
  unfold hoistIteration hoistHere hoistsHere ownHoistedNames
  rw [h]
  cases n.child? .left <;> simp [hoistName]

theorem forNamed_eq (visit : Node → Build Unit) :
    (n.forNamed fun c _ => visit c) = n.namedChildren.forM visit := by
  have hforM (ys : List Node) : ys.foldlM (fun _ c => visit c) () = ys.forM visit := by
    induction ys with
    | nil => rfl
    | cons y rest ih =>
      rw [List.foldlM_cons, List.forM_eq_forM, List.forM_cons]
      exact congrArg (visit y >>= fun _ => ·) ih
  unfold forNamed foldNamed foldOver
  rw [← hforM]
  conv_rhs => rw [← List.attach_map_subtype_val n.namedChildren]
  exact List.foldlM_map.symm

/-- Declares what is hoisted at each of some statements. -/
def hoistAll (source : String) (scope : ScopeId) (visits : List (Node × Bool)) : Build Unit :=
  visits.forM fun d => hoistHere source d.1 scope d.2

theorem hoistAll_cons (visits : List (Node × Bool)) :
    hoistAll source scope ((n, topLevel) :: visits) = (do
      hoistHere source n scope topLevel
      hoistAll source scope visits) := by
  rw [hoistAll, List.forM_eq_forM, List.forM_cons]
  rfl

theorem hoistAll_singleton :
    hoistAll source scope [(n, topLevel)] = hoistHere source n scope topLevel := by
  rw [hoistAll_cons]
  exact bind_pure _

theorem hoistAll_cons_of_not (h : n.hoistsHere source topLevel = false)
    (visits : List (Node × Bool)) :
    hoistAll source scope ((n, topLevel) :: visits) = hoistAll source scope visits := by
  rw [hoistAll_cons, hoistHere_of_not h]
  rfl

/-- **Hoisting is a list of visits.** -/
theorem hoist_eq (source : String) (n : Node) (scope : ScopeId) :
    (∀ topLevel, hoistStatement source n scope topLevel =
      hoistAll source scope (n.statementVisits topLevel)) ∧
    (n.kind.holdsDirectly → hoistNested source n scope =
      hoistAll source scope (n.namedChildren.flatMap (·.hoistVisits false))) := by
  induction n using childInduction with
  | step n ih =>
    have hnested (hkind : n.kind.holdsDirectly) : hoistNested source n scope =
        hoistAll source scope (n.namedChildren.flatMap (·.hoistVisits false)) := by
      rw [hoistNested, forNamed_eq, hoistAll, forM_flatMap]
      refine forM_congr fun c hc => ?_
      obtain ⟨hstatement, hinner⟩ := ih c (mem_children_of_namedChildren hc)
      change _ = hoistAll source scope (c.hoistVisits false)
      split
      · next hsome => rw [hstatement, statementVisits, if_pos hsome]
      · next hnone =>
        have hhere : c.hoistsHere source false = false := by
          simp [hoistsHere, Option.not_isSome_iff_eq_none.1 hnone]
        split
        · next hclause =>
          have hkind := Kind.holdsDirectly_of_isClause hclause
          rw [hinner hkind, hoistVisits_of_direct hkind, hoistAll_cons_of_not hhere]
        · next hclause =>
          have hplain : c.kind.holdsStatements = false := by
            simpa [Kind.holdsStatements, Kind.isCompound, Option.not_isSome_iff_eq_none.1 hnone]
              using hclause
          rw [hoistVisits_of_plain hplain, hoistAll_singleton, hoistHere_of_not hhere]
    refine ⟨fun topLevel => ?_, hnested⟩
    rw [hoistStatement]
    cases hform : n.kind.form? with
    | none => rw [statementVisits, hform]; rfl
    | some form =>
      have hvisits : n.statementVisits topLevel = n.hoistVisits topLevel :=
        if_pos (by rw [hform]; rfl)
      have hplain (hnesting : form.isNesting = false) : n.kind.holdsStatements = false := by
        cases form <;> simp_all [Kind.holdsStatements, Kind.isCompound, Form.isNesting]
      have hdirect (hnesting : form.isNesting) (hexport : form ≠ .exportDecl) :=
        Kind.holdsDirectly_of_form hform hnesting hexport
      rw [hvisits]
      cases form with
      | functionDecl =>
        rw [hoistVisits_of_plain (hplain rfl), hoistAll_singleton, ← hoistFunction_eq hform]
      | varDecl => rw [hoistVisits_of_plain (hplain rfl), hoistAll_singleton, ← hoistVars_eq hform]
      | importDecl =>
        rw [hoistVisits_of_plain (hplain rfl), hoistAll_singleton]
        cases topLevel with
        | true => exact hoistImport_here hform
        | false => exact (hoistHere_of_not (by simp [hoistsHere, hform])).symm
      | exportDecl =>
        rw [hoistVisits_of_export (Kind.eq_of_form hform rfl),
          hoistAll_cons_of_not (by simp [hoistsHere, hform])]
        dsimp only
        unfold onChild withChild
        split
        · next c hc =>
          dsimp only
          rw [hc, Option.toList_some, List.flatMap_singleton,
            (ih c (mem_children_of_child? hc)).1 topLevel]
        · next hc => rw [hc]; rfl
      | iteration =>
        rw [hoistVisits_of_direct (hdirect rfl (by decide)), hoistAll_cons,
          ← hoistIteration_eq hform, ← hnested (hdirect rfl (by decide))]
      | conditional | selection | countedLoop | whileLoop | doLoop | guarded | block | labeled =>
        rw [hoistVisits_of_direct (hdirect rfl (by decide)),
          hoistAll_cons_of_not (by simp [hoistsHere, hform]), ← hnested (hdirect rfl (by decide))]
      | classDecl | lexicalDecl | returning | throwing | expression | inert =>
        rw [hoistVisits_of_plain (hplain rfl), hoistAll_singleton,
          hoistHere_of_not (by simp [hoistsHere, hform])]

/-- **Hoisting a statement** goes through what it comes upon. -/
theorem hoistStatement_eq (source : String) (n : Node) (scope : ScopeId) (topLevel : Bool) :
    hoistStatement source n scope topLevel =
      hoistAll source scope (n.statementVisits topLevel) :=
  (hoist_eq source n scope).1 topLevel

/-- **Hoisting a body** goes through what it comes upon. -/
theorem hoistBody_eq (source : String) (body : Node) (scope : ScopeId) (topLevel : Bool) :
    hoistBody source body scope topLevel =
      hoistAll source scope (body.bodyVisits topLevel) := by
  rw [hoistBody, hoistAll, bodyVisits, forM_flatMap]
  exact forM_congr fun c _ => hoistStatement_eq source c scope topLevel

end Loop

/-! ## The steps of hoisting -/

/-- **What a logic has to say of the steps of hoisting** to a scope. -/
structure Hoisting {S : Type} (L : Logic S) (source : String) (scope : ScopeId) where
  /-- What a statement declares is to be hoisted. -/
  due : S → Node → Bool → Prop
  /-- A statement has its place in the graph. -/
  inside : S → VertexId → Node → Prop
  /-- What a statement itself declares is hoisted. -/
  done : S → Node → Prop
  due_later : ∀ {s s' n topLevel}, L.Later s s' → due s n topLevel → due s' n topLevel
  inside_later : ∀ {s s' v n}, L.Later s s' → inside s v n → inside s' v n
  done_later : ∀ {s s' n}, L.Later s s' → done s n → done s' n
  nested : ∀ {s n c topLevel}, due s n topLevel → n.kind.holdsDirectly → c ∈ n.namedChildren →
    due s c false
  carried : ∀ {s n c topLevel}, due s n topLevel → n.kind = .exportStatement →
    n.child? .declaration = some c → due s c topLevel
  vertex : ∀ {s n topLevel}, due s n topLevel → n.hoistsHere source topLevel →
    L.Says s (statementVertex source n scope) [] fun v s' => inside s' v n
  function : ∀ {s v n name topLevel}, due s n topLevel → inside s v n →
    n.kind.form? = some .functionDecl → n.name? source = some name →
    L.Says s (do
      let key ← register n scope v
      declare scope { Binding.declared name v with callable := some key } .hoisted) []
      fun _ s' => done s' n
  var : ∀ {s v n name hasValue topLevel}, due s n topLevel → inside s v n →
    n.hoistsHere source topLevel → ⟨n, name, .var hasValue⟩ ∈ n.ownHoistedNames source →
    L.Does s (hoistVar scope name v hasValue) []
  imported : ∀ {s v n name origin topLevel}, due s n topLevel → inside s v n →
    n.hoistsHere source topLevel → ⟨n, name, .imported origin⟩ ∈ n.ownHoistedNames source →
    L.Does s (declare scope { Binding.declared name v with origin := some origin } .hoisted) []
  other : ∀ {s v n}, inside s v n → n.kind.form? ≠ some .functionDecl → done s n

namespace Hoisting

variable {S : Type} {L : Logic S} {s : S} {source : String} {scope : ScopeId} {n : Node}
  {topLevel : Bool} (W : Hoisting L source scope)

theorem name {v : VertexId} {h : HoistedName} (hdue : W.due s n topLevel) (hin : W.inside s v n)
    (hhere : n.hoistsHere source topLevel) (hmem : h ∈ n.ownHoistedNames source)
    (hform : n.kind.form? ≠ some .functionDecl) : L.Does s (hoistName scope v h) [] := by
  obtain ⟨node, name, sort⟩ := h
  obtain ⟨rfl, -, hfunction⟩ := of_mem_ownHoistedNames hhere hmem
  cases sort with
  | function => exact absurd (hfunction rfl).1 hform
  | var hasValue => exact W.var hdue hin hhere hmem
  | imported origin => exact W.imported hdue hin hhere hmem

theorem here (hdue : W.due s n topLevel) :
    L.Says s (hoistHere source n scope topLevel) [] fun _ s' =>
      n.hoistsHere source topLevel → W.done s' n := by
  unfold hoistHere
  split
  · next hhere =>
    refine Logic.after (W.vertex hdue hhere) fun v s₁ h₁ hin => ?_
    have hdue₁ := W.due_later h₁ hdue
    by_cases hform : n.kind.form? = some .functionDecl
    · -- A function declares one name, its own.
      obtain ⟨name, hname⟩ := Option.isSome_iff_exists.1
        (show (n.name? source).isSome by simpa [hoistsHere, hform] using hhere)
      rw [ownHoistedNames, hform, hname]
      change L.Says s₁ (hoistName scope v ⟨n, name, .function⟩ >>= fun _ => pure ()) [] _
      rw [bind_pure]
      exact L.imp (W.function hdue₁ hin hform hname) (fun _ h => h) fun _ _ _ hdone _ => hdone
    · refine L.imp (Logic.forM_nil fun h hmem s₂ h₂ => W.name (W.due_later h₂ hdue₁)
        (W.inside_later h₂ hin) hhere hmem hform) (fun _ h => h) fun _ s₂ h₂ _ _ => ?_
      exact W.other (W.inside_later h₂ hin) hform
  · next hhere => exact L.ret fun h => absurd h hhere

/-- All visits of a list. -/
theorem all {visits : List (Node × Bool)} (h : ∀ d ∈ visits, W.due s d.1 d.2) :
    L.Says s (hoistAll source scope visits) [] fun _ s' =>
      ∀ d ∈ visits, d.1.hoistsHere source d.2 → W.done s' d.1 :=
  Logic.forM_each (fun _ _ _ hs hdone hhere => W.done_later hs (hdone hhere))
    fun d hd _ hs => W.here (W.due_later hs (h d hd))

/-- **What is said of hoisting a body.** -/
theorem body {body : Node}
    (hdue : ∀ c ∈ body.namedChildren, c.kind.form?.isSome → W.due s c topLevel) :
    L.Says s (hoistBody source body scope topLevel) [] fun _ s' =>
      ∀ d ∈ body.bodyVisits topLevel, d.1.hoistsHere source d.2 → W.done s' d.1 := by
  rw [hoistBody_eq]
  refine W.all fun d hd => ?_
  obtain ⟨c, hc, hd⟩ := List.mem_flatMap.1 hd
  exact of_mem_statementVisits (P := W.due s) (fun _ _ _ => W.nested) (fun _ _ _ => W.carried)
    (hdue c hc) hd

end Hoisting

end Build

end DeadCode
