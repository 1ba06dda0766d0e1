import DeadCode.Proofs.Resolution.Upkeep.Nesting
import DeadCode.Proofs.Resolution.Upkeep.Phases

/-! # Invariants that declarations and callables keep

Linking and hoisting a declaration declares its names, one after another. Names land on the scope of
a body from statements at its top, and from hoisted declarations outside of callables; all else
lands on inner scopes. -/

namespace DeadCode

namespace Build

open Builder Node

/-- **Upkeep of an invariant by linking declarations**: declaring the names of a declaration keeps
the invariant. -/
structure DeclareUpkeep (source : String) (root : Node) (host : ScopeId)
    (region within standing : Node → Prop) (inv : Builder → Prop) : Prop
    extends ScopeUpkeep root host region within standing inv where
  /-- A class, `let` or `const` declaration declares a name where it stands. -/
  declared : ∀ (b : Builder) n v scope binding target scopes, inv b → within n →
    (scope = host → standing n) → n.kind.form?.any Form.isHoisted = false → b.StandsFor v n →
    binding.declaration = some v → binding.name ∈ n.statementNames source →
    b.scopes.declare scope binding .lexical = .ok (target, scopes) → inv { b with scopes }
  /-- A function or `var` declaration declares a name that is hoisted. A name that stands for a
  function is taken over only by a `var` declaration that gives it a value. -/
  linked : ∀ (b : Builder) n v scope binding target scopes, inv b → within n →
    n.kind.form?.any Form.isHoisted → b.StandsFor v n → binding.declaration = some v →
    binding.name ∈ n.statementNames source →
    ((b.scopes.local? target binding.name).any (·.callable.isSome) →
      n.Initialises source binding.name) →
    b.scopes.declare scope binding .hoisted = .ok (target, scopes) → inv { b with scopes }

/-- **Upkeep of an invariant by declarations**: declaring their names in either pass keeps the
invariant. -/
structure NameUpkeep (source : String) (root : Node) (host : ScopeId)
    (region within standing : Node → Prop) (inv : Builder → Prop) : Prop
    extends DeclareUpkeep source root host region within standing inv where
  /-- A name is declared that is hoisted. -/
  hoisted : ∀ (b : Builder) n v scope binding target scopes, inv b → within n →
    n.kind.form?.any Form.isHoisted → b.StandsFor v n → binding.declaration = some v →
    binding.name ∈ n.statementNames source →
    b.scopes.declare scope binding .hoisted = .ok (target, scopes) → inv { b with scopes }
  linked := fun b n v scope binding target scopes hb hn hform hv hdeclaration hname _ =>
    hoisted b n v scope binding target scopes hb hn hform hv hdeclaration hname

/-- **Upkeep of an invariant by linking statements**: what the statements of a region do to a
builder when they are linked keeps the invariant. -/
structure StatementUpkeep (source : String) (root : Node) (host : ScopeId)
    (region within standing : Node → Prop) (inv : Builder → Prop) : Prop
    extends DeclareUpkeep source root host region within standing inv where
  /-- What is noted and queued does not matter. -/
  noted : Steady inv
  /-- A statement gets its place in the graph. -/
  vertex : ∀ (b : Builder) n x, inv b → within n → root.HasStatement n → x.key = n.key →
    x.isDeclaration = n.kind.isDeclaration → inv { b with graph := (b.graph.addVertex x).2 }
  /-- A name is declared on an inner scope. -/
  inner : ∀ (b : Builder) scope binding target scopes, inv b → scope ≠ host →
    b.scopes.declare scope binding .lexical = .ok (target, scopes) → inv { b with scopes }
  /-- A class, `let` or `const` declaration at the top declares a name on the scope of the body. -/
  lexical : ∀ (b : Builder) n v binding target scopes, inv b → within n → standing n →
    n.kind.form?.any Form.isHoisted = false → b.StandsFor v n → binding.declaration = some v →
    binding.name ∈ n.statementNames source →
    b.scopes.declare host binding .lexical = .ok (target, scopes) → inv { b with scopes }
  steady := noted.inCalls
  declared := fun b n v scope binding target scopes hb hn hstanding hform hv hdeclaration hname
      hdeclare =>
    if hscope : scope = host then
      lexical b n v binding target scopes hb hn (hstanding hscope) hform hv hdeclaration hname
        (hscope ▸ hdeclare)
    else inner b scope binding target scopes hb hscope hdeclare

/-- **Upkeep of an invariant by statements**: it is kept as well when what they declare is hoisted.
-/
structure BodyUpkeep (source : String) (root : Node) (host : ScopeId)
    (region within standing : Node → Prop) (inv : Builder → Prop) : Prop
    extends StatementUpkeep source root host region within standing inv,
      NameUpkeep source root host region within standing inv

/-! ## Declarations -/

namespace DeclareUpkeep

variable {source : String} {root : Node} {host : ScopeId} {region within standing : Node → Prop}
  {inv : Builder → Prop} {b : Builder} {n : Node} {scope : ScopeId} {vertex : VertexId}
  (h : DeclareUpkeep source root host region within standing inv)

include h

/-- A declaration that is linked keeps the invariant. -/
theorem declareLinked (hb : inv b) (hn : within n) (hform : n.kind.form?.any Form.isHoisted)
    (hv : b.StandsFor vertex n) {binding : Binding}
    (hdeclaration : binding.declaration = some vertex)
    (hname : binding.name ∈ n.statementNames source)
    (htakes : ∀ target, b.scopes.hoistTarget scope = .ok target →
      (b.scopes.local? target binding.name).any (·.callable.isSome) →
      n.Initialises source binding.name) :
    Keeps inv b (declare scope binding .hoisted) Anything :=
  .of_declare fun _ _ hdeclare =>
    h.linked _ _ _ _ _ _ _ hb hn hform hv hdeclaration hname
      (htakes _ (ScopeTree.landing_of_declare hdeclare)) hdeclare

theorem declareLexical (hb : inv b) (hn : within n) (hstanding : scope = host → standing n)
    (hform : n.kind.form?.any Form.isHoisted = false) (hv : b.StandsFor vertex n)
    {binding : Binding} (hdeclaration : binding.declaration = some vertex)
    (hname : binding.name ∈ n.statementNames source) :
    Keeps inv b (declare scope binding .lexical) Anything :=
  .of_declare fun _ _ hdeclare =>
    h.declared _ _ _ _ _ _ _ hb hn hstanding hform hv hdeclaration hname hdeclare

theorem linkVar (hb : inv b) (hn : within n) (hform : n.kind.form?.any Form.isHoisted)
    (hv : b.StandsFor vertex n) {name : String} (hname : name ∈ n.statementNames source) :
    Keeps inv b (Build.hoistVar scope name vertex false) Anything := by
  refine .bind_get ?_
  dsimp only
  split
  · exact .throw
  · next target htarget =>
    split
    · exact .pure hb trivial
    · next hfree =>
      refine h.declareLinked hb hn hform hv rfl hname fun target' htarget' hfunction => ?_
      obtain rfl : target = target' := Except.ok.inj (htarget.symm.trans htarget')
      have hheld : (b.scopes.local? target name).any (·.callable.isSome) := hfunction
      simp [hheld] at hfree

/-- **The steps of a declaration keep the invariant.** -/
def whole : Whole (keeping inv) source where
  inside s scope v n := within n ∧ s.1.StandsFor v n ∧ (scope = host → standing n) ∧
    n.kind.form?.any Form.isDeclaration
  walk _ scope := h.walk source scope
  inside_later hlater hn := ⟨hn.1, hn.2.1.mono hlater.grows, hn.2.2⟩
  held hn := h.region_of_within _ hn.1
  backs _ := trivial
  function {s scope v n name} hn hform hname hnone _ := by
    refine (h.declareLinked s.2 hn.1 (by rw [hform]; rfl) hn.2.1 rfl ?_
      fun target htarget hfunction => ?_).does
    · simp [statementNames, hform, hname, Binding.declared]
    · -- The name is not known on any scope around, so no function has it.
      have hfree : s.1.scopes.local? target name = none :=
        ScopeTree.local?_of_lookup?_eq_none hnone (ScopeTree.mem_chain_of_hoistTarget htarget)
      simp [Binding.declared, hfree] at hfunction
  declares {s _ _ _ name hoist _} hn hname hvalue _ := by
    cases hoist with
    | hoisted => exact (h.declareLinked s.2 hn.1 hname.isHoisted hn.2.1 rfl hname.mem_statementNames
        fun _ _ _ => hvalue rfl).does
    | lexical => exact (h.declareLexical s.2 hn.1 hn.2.2.1 hname.isHoisted hn.2.1 rfl
        hname.mem_statementNames).does
  var {s _ _ _ _} hn hname :=
    (h.linkVar s.2 hn.1 hname.isHoisted hn.2.1 hname.mem_statementNames).does
  returns hn hform := by
    have hdeclaration := hn.2.2.2
    rw [hform] at hdeclaration
    cases hdeclaration

/-- A declarator keeps the invariant. -/
theorem declarator (hb : inv b) (hn : within n) (hstanding : scope = host → standing n)
    (isVar : Bool) (hform : n.kind.form? = some (if isVar then .varDecl else .lexicalDecl))
    (hv : b.StandsFor vertex n) {d : Node} (hd : d ∈ n.declarators) :
    Keeps inv b (Build.declarator source d scope vertex isVar) Anything :=
  .of_does hb (Whole.declarator (W := h.whole)
    ⟨hn, hv, hstanding, by rw [hform]; cases isVar <;> rfl⟩ hform hd)

/-- **Linking a declaration keeps the invariant**, once it has its place in the graph. -/
theorem declaration (hn : within n) (hstanding : scope = host → standing n) {form : Form}
    (hform : n.kind.form? = some form) (hdeclaration : form.isDeclaration)
    (hvertex : Keeps inv b (Build.statementVertex source n scope) fun v b' => b'.StandsFor v n)
    (owner : Option VertexId) :
    Keeps inv b (Build.statement source n scope owner) fun _ b' => ∃ v, b'.StandsFor v n := by
  refine h.whole.entering (motive := fun step _ => Keeps inv b step fun _ b' => ∃ v, b'.StandsFor v n)
    hform (by cases form <;> first | rfl | cases hdeclaration) fun {next leaves} hnext => ?_
  refine hvertex.bind fun v b₁ h₁ hv₁ => ?_
  refine (Keeps.forM_option h₁.holds fun _ _ => h.keeps_own h₁.holds _ _).andThen fun _ b₂ h₂ => ?_
  have hv := hv₁.mono h₂.grows
  refine (Keeps.of_does h₂.holds (hnext v ⟨b₂, h₂.holds⟩
    ⟨hn, hv, hstanding, by rw [hform]; exact hdeclaration⟩)).imp fun _ _ hlater _ => ?_
  exact ⟨v, hv.mono hlater.grows⟩

end DeclareUpkeep

namespace NameUpkeep

variable {source : String} {root : Node} {host : ScopeId} {region within standing : Node → Prop}
  {inv : Builder → Prop} {b : Builder} {n : Node} {scope : ScopeId} {vertex : VertexId}
  (h : NameUpkeep source root host region within standing inv)

include h

theorem declareHoisted (hb : inv b) (hn : within n) (hform : n.kind.form?.any Form.isHoisted)
    (hv : b.StandsFor vertex n) {binding : Binding}
    (hdeclaration : binding.declaration = some vertex)
    (hname : binding.name ∈ n.statementNames source) :
    Keeps inv b (declare scope binding .hoisted) Anything :=
  .of_declare fun _ _ hdeclare => h.hoisted _ _ _ _ _ _ _ hb hn hform hv hdeclaration hname hdeclare

theorem hoistVar (hb : inv b) (hn : within n) (hform : n.kind.form?.any Form.isHoisted)
    (hv : b.StandsFor vertex n) {name : String} (hname : name ∈ n.statementNames source)
    (hasValue : Bool) : Keeps inv b (Build.hoistVar scope name vertex hasValue) Anything := by
  refine .bind_get ?_
  dsimp only
  split
  · exact .throw
  · split
    · exact .pure hb trivial
    · exact h.declareHoisted hb hn hform hv rfl hname

/-- Hoisting a name keeps the invariant. -/
theorem hoistName {topLevel : Bool} {g : HoistedName} (hb : inv b) (hn : within n)
    (hhere : n.hoistsHere source topLevel) (hv : b.StandsFor vertex n)
    (hg : g ∈ n.ownHoistedNames source) : Keeps inv b (Build.hoistName scope vertex g) Anything := by
  obtain ⟨node, name, sort⟩ := g
  obtain ⟨rfl, hname, -⟩ := of_mem_ownHoistedNames hhere hg
  have hform := isHoisted_of_hoistsHere hhere
  cases sort with
  | function =>
    refine (h.keeps_register hb (h.region_of_within node hn)).andThen fun key b₁ h₁ => ?_
    exact h.declareHoisted h₁.holds hn hform (hv.mono h₁.grows) rfl hname
  | var hasValue => exact h.hoistVar hb hn hform hv hname hasValue
  | imported origin => exact h.declareHoisted hb hn hform hv rfl hname

/-- **Hoisting the names of a statement keeps the invariant**, once it has its place in the graph. -/
theorem hoistHere {topLevel : Bool} (hn : within n) (hhere : n.hoistsHere source topLevel)
    (hvertex : Keeps inv b (Build.statementVertex source n scope) fun v b' => b'.StandsFor v n) :
    Keeps inv b (Build.hoistHere source n scope topLevel) Anything := by
  rw [Build.hoistHere, if_pos hhere]
  refine hvertex.bind fun vertex b₁ h₁ hv => .forM h₁.holds fun g hg b₂ h₂ => ?_
  exact h.hoistName h₂.holds hn hhere (hv.mono h₂.grows) hg

end NameUpkeep

/-! ## Statements -/

namespace StatementUpkeep

variable {source : String} {root : Node} {host : ScopeId} {region within standing : Node → Prop}
  {inv : Builder → Prop} {b : Builder} {n : Node} {scope : ScopeId} {vertex : VertexId}

theorem statementVertex (h : StatementUpkeep source root host region within standing inv)
    (hb : inv b) (hn : within n) (hstatement : root.HasStatement n) :
    Keeps inv b (Build.statementVertex source n scope) fun v b' => b'.StandsFor v n :=
  (Keeps.of_addVertex (h.vertex b n _ hb hn hstatement rfl rfl)).imp fun _ _ _ hv => hv.2

theorem declareInner (h : StatementUpkeep source root host region within standing inv) (hb : inv b)
    (hscope : scope ≠ host) (binding : Binding) :
    Keeps inv b (declare scope binding .lexical) Anything :=
  .of_declare fun _ _ hdeclare => h.inner _ _ _ _ _ hb hscope hdeclare

/-- **Linking any statement keeps the invariant.** -/
theorem nest (h : StatementUpkeep source root host region within standing inv) :
    NestUpkeep source root host region within standing inv where
  toScopeUpkeep := h.toScopeUpkeep
  vertex := fun b n x hb hn hstatement hkey hflag _ => h.vertex b n x hb hn hstatement hkey hflag
  headed := fun b _ _ v scope name target scopes hb _ _ _ _ _ _ hscope hdeclare =>
    h.inner b scope (.declared name v) target scopes hb hscope hdeclare
  whole := by
    intro b n scope owner hb hn hwhole hstanding
    cases hform : n.kind.form? with
    | none => simp [hform] at hwhole
    | some form =>
      by_cases hreturning : form = .returning
      · subst hreturning
        exact h.returning hn hform h.noted (h.statementVertex hb hn (.of_form hform)) owner
      · have hdeclaration : form.isDeclaration := by
          cases form <;> simp_all [Form.isWhole, Form.isDeclaration]
        exact h.declaration hn hstanding hform hdeclaration
          (h.statementVertex hb hn (.of_form hform)) owner

end StatementUpkeep

/-! ## Hoisting -/

/-- **Upkeep of an invariant by hoisting**: statements that hoist names get their place in the
graph. -/
structure HoistUpkeep (source : String) (root : Node) (host : ScopeId)
    (region within standing : Node → Prop) (inv : Builder → Prop) : Prop
    extends NameUpkeep source root host region within standing inv where
  place : ∀ (b : Builder) n scope, inv b → within n → n.kind.form?.any Form.isHoisted →
    Keeps inv b (Build.statementVertex source n scope) fun v b' => b'.StandsFor v n

namespace HoistUpkeep

variable {source : String} {root : Node} {host scope : ScopeId}
  {region within standing : Node → Prop} {inv : Builder → Prop} {b : Builder} {topLevel : Bool}
  (h : HoistUpkeep source root host region within standing inv)

include h

/-- **Hoisting the names of any statement keeps the invariant.** -/
theorem visit {n : Node} (hb : inv b) (hn : within n) :
    Keeps inv b (Build.hoistHere source n scope topLevel) Anything := by
  by_cases hhere : n.hoistsHere source topLevel
  · exact h.hoistHere hn hhere (h.place b n scope hb hn (isHoisted_of_hoistsHere hhere))
  · rw [hoistHere_of_not (by simpa using hhere)]
    exact .pure hb trivial

/-- **Hoisting the statements of a body keeps the invariant.** -/
theorem hoistBody {body : Node} (hb : inv b)
    (hbody : ∀ c ∈ body.namedChildren, c.kind.form?.isSome → within c) :
    Keeps inv b (Build.hoistBody source body scope topLevel) Anything := by
  rw [hoistBody_eq]
  refine .forM hb fun d hd b₁ h₁ => ?_
  obtain ⟨c, hc, hd⟩ := List.mem_flatMap.1 hd
  exact h.visit h₁.holds (h.withinVisits (hbody c hc) hd)

end HoistUpkeep

/-- **Hoisting what any statement declares keeps the invariant.** -/
theorem BodyUpkeep.hoist {source : String} {root : Node} {host : ScopeId}
    {region within standing : Node → Prop} {inv : Builder → Prop}
    (h : BodyUpkeep source root host region within standing inv) :
    HoistUpkeep source root host region within standing inv where
  toNameUpkeep := h.toNameUpkeep
  place := fun b n scope hb hn hform => by
    obtain ⟨form, hform, -⟩ := (Option.any_eq_true _ _).1 hform
    exact h.statementVertex hb hn (.of_form hform)

/-! ## Callables -/

/-- **Upkeep of an invariant by a whole file**: it is kept as well when callables are entered and
their returns connected. -/
structure FileUpkeep (source : String) (root : Node) (region within standing : Node → Prop)
    (inv : Builder → Prop) : Prop
    extends BodyUpkeep source root ScopeTree.globalId region within standing inv where
  /-- What lies in a registered callable belongs to the region, and its statements lie within. -/
  entered : ∀ (b : Builder) entry c, inv b → entry ∈ b.callables → c ∈ entry.2.node.children →
    region c ∧ (c.kind = .statementBlock → within c)
  /-- A `return` statement is related to a call. -/
  returns : ∀ (b : Builder) u v id graph, inv b →
    b.graph.connect u v { kind := .returns } = .ok (id, graph) → inv { b with graph }

namespace FileUpkeep

variable {source : String} {root : Node} {region within standing : Node → Prop}
  {inv : Builder → Prop} {b : Builder}

/-- **Entering a callable keeps the invariant.** -/
theorem enters (h : FileUpkeep source root region within standing inv) : EnterUpkeep source inv where
  requeue := fun b _ hb => h.noted b _ hb rfl rfl rfl
  enter := by
    intro b key callable scope scopes hb hcallable _ hadd
    have hnode {c : Node} (hc : c ∈ callable.node.children) :
        region c ∧ (c.kind = .statementBlock → within c) :=
      h.entered b (key, callable) c hb (mem_of_callable? hcallable) hc
    have hscope : scope ≠ ScopeTree.globalId := by
      rw [(ScopeTree.frame_of_addScope hadd).2.1]
      exact Nat.ne_of_gt (h.host_lt b hb)
    have hcurrent (b' : Builder) (hb' : inv b') (current : Option Key) : inv { b' with current } :=
      h.noted b' _ hb' rfl rfl rfl
    have hentering : inv (b.entering key callable scopes) :=
      h.noted { b with scopes } _ (h.scope b _ _ _ _ hb hadd) rfl rfl rfl
    refine keeps_entered inv hentering (fun binding _ hb' => h.declareInner hb' hscope binding)
      (fun parameters parameter value hparameters hparameter hvalue b' h' => ?_)
      (fun b' hb' => hcurrent b' hb' _) (fun _ b' _ hb' => hcurrent b' hb' _)
      (fun body b₁ hbody hkind _ hb₁ => ?_) fun body b₁ hbody _ _ hb₁ => ?_
    · obtain ⟨c, hc, hvalue⟩ := mem_descendants_iff.1
        (mem_descendants_of_defaultValue? hparameters hparameter hvalue)
      exact h.expression (h.mem_nodes_closed (hnode hc).1 hvalue) h'.holds
    · have hwithin := (hnode (mem_children_of_child? hbody)).2 hkind
      have hstatements : ∀ c ∈ body.namedChildren, within c :=
        fun c hc => h.withinNamed hwithin (by rw [hkind]; rfl) hc
      refine (h.hoist.hoistBody hb₁ fun c hc _ => hstatements c hc).andThen fun _ b₂ h₂ => ?_
      exact h.nest.linkBody h₂.holds (fun c hc _ => hstatements c hc)
        (fun hglobal => absurd hglobal hscope) _
    · exact h.expression (hnode (mem_children_of_child? hbody)).1 hb₁

end FileUpkeep

end Build

end DeadCode
