import DeadCode.Proofs.Resolution.File
import DeadCode.Proofs.Resolution.Keeps

/-! # Invariants of a whole file

An invariant of a file holds once its top level is linked, and whenever a callable has been entered.
So it holds when the loop over the callables has ended, and only the returns are left to relate. -/

namespace DeadCode

namespace Build

open Builder Node

/-! ## Callables -/

section Callables

variable {source : String} {inv : Builder → Prop} {b : Builder} {key : Key} {callable : Callable}
  {scope : ScopeId}

theorem keeps_ownNames (hb : inv b)
    (hdeclare : ∀ binding b', inv b' → Keeps inv b' (declare scope binding .lexical) Anything) :
    Keeps inv b (ownNames source key callable scope) Anything := by
  unfold ownNames
  split
  · exact .pure hb trivial
  · refine (Keeps.forM hb fun _ _ b₁ h₁ => hdeclare _ b₁ h₁.holds).andThen fun _ b₁ h₁ => ?_
    split
    · exact .forM_option h₁.holds fun _ _ => hdeclare _ b₁ h₁.holds
    · exact .pure h₁.holds trivial

/-- **Linking a callable** in its new scope. While its body is linked it is the current one, and
another invariant holds. -/
theorem keeps_entered (during : Builder → Prop) (hb : inv b)
    (hdeclare : ∀ binding b', inv b' → Keeps inv b' (declare scope binding .lexical) Anything)
    (hvalue : ∀ parameters parameter value, callable.node.parameters? = some parameters →
      parameter ∈ parameters.namedChildren → defaultValue? parameter = some value →
      ∀ b', b.Later inv b' → Keeps inv b' (expression source value scope) Anything)
    (hinto : ∀ b', inv b' → during { b' with current := some key })
    (hback : ∀ b' b'', inv b' → during b'' → inv { b'' with current := b'.current })
    (hblock : ∀ body b', callable.node.child? .body = some body → body.kind = .statementBlock →
      b.Grows b' → during b' → Keeps during b' (do
        hoistBody source body scope false
        linkBody source body scope (some callable.owner)) Anything)
    (hexpression : ∀ body b', callable.node.child? .body = some body → body.kind ≠ .statementBlock →
      b.Grows b' → during b' → Keeps during b' (expression source body scope) Anything) :
    Keeps inv b (do
      ownNames source key callable scope
      parameters source callable scope
      body source key callable scope) Anything := by
  refine (keeps_ownNames hb hdeclare).andThen fun _ b₁ h₁ => ?_
  have hheader : Keeps inv b₁ (parameters source callable scope) Anything := by
    refine .forM_option h₁.holds fun parameters hparameters => ?_
    refine (Keeps.forM h₁.holds fun _ _ b₂ h₂ => hdeclare _ b₂ h₂.holds).andThen fun _ b₂ h₂ => ?_
    refine .forM h₂.holds fun parameter hparameter b₃ h₃ => .forM_option h₃.holds fun value hdefault => ?_
    exact hvalue parameters parameter value hparameters hparameter hdefault b₃
      ((h₁.trans h₂).trans h₃)
  refine hheader.andThen fun _ b₂ h₂ => .forM_option h₂.holds fun body hbody => .bind_get ?_
  have hleave (b' : Builder) (hb' : during b') :
      Keeps inv b' (modify ({ · with current := b₂.current })) Anything :=
    (Keeps.of_modify rfl rfl (hback b₂ b' h₂.holds hb')).anything
  have hopen : Keeps during b₂ (modify ({ · with current := some key })) Anything :=
    (Keeps.of_modify rfl rfl (hinto b₂ h₂.holds)).anything
  refine hopen.turn fun _ b₃ h₃ _ => ?_
  have hgrows := (h₁.trans h₂).grows.trans h₃.grows
  dsimp only
  split
  · next hkind =>
    rw [← bind_assoc]
    exact (hblock body b₃ hbody hkind hgrows h₃.holds).turn fun _ b₄ h₄ _ => hleave b₄ h₄.holds
  · next hkind =>
    exact (hexpression body b₃ hbody hkind hgrows h₃.holds).turn fun _ b₄ h₄ _ => hleave b₄ h₄.holds

theorem mem_descendants_of_defaultValue? {n parameters parameter value : Node}
    (hparameters : n.parameters? = some parameters) (hparameter : parameter ∈ parameters.namedChildren)
    (hvalue : defaultValue? parameter = some value) : value ∈ n.descendants :=
  mem_descendants_of_child (mem_children_of_parameters? hparameters).1
    (mem_nodes_trans (child_mem_nodes (mem_children_of_defaultValue? hvalue).1)
      (child_mem_nodes (mem_children_of_namedChildren hparameter)))

theorem keeps_connectReturns (hb : inv b)
    (hreturns : ∀ (b : Builder) u v id graph, inv b →
      b.graph.connect u v { kind := .returns } = .ok (id, graph) → inv { b with graph }) :
    Keeps inv b connectReturns Anything :=
  .bind_get <| .forM hb fun _ _ _ h₁ => .forM h₁.holds fun _ _ _ h₂ => .of_connect fun _ _ hconnect =>
    hreturns _ _ _ _ _ h₂.holds hconnect

/-- What is kept by a step whose outcome is known is kept along with the validity of the builder. -/
theorem Keeps.valid {α : Type} {root : Node} {declared : Node → Prop} {step : Build α}
    {post post' : α → Builder → Prop} (h : Keeps inv b step post)
    (hstep : Outcome root declared b step post') :
    Keeps (fun b => b.Valid root ∧ inv b) b step post := by
  intro a b' hrun
  obtain ⟨hlater, hpost⟩ := h a b' hrun
  rw [Outcome, hrun] at hstep
  exact ⟨{ hlater with holds := ⟨hstep.1.valid, hlater.holds⟩ }, hpost⟩

end Callables

/-! ## The loop over the callables -/

/-- **Upkeep of an invariant when callables are entered**, each in a new function scope. -/
structure EnterUpkeep (source : String) (inv : Builder → Prop) : Prop where
  requeue : ∀ (b : Builder) queue, inv b → inv { b with queue }
  enter : ∀ (b : Builder) key callable scope scopes, inv b → b.callable? key = some callable →
    callable.node.kind.isClass = false →
    b.scopes.addScope callable.scope .function = .ok (scope, scopes) →
    Keeps inv (b.entering key callable scopes) (do
      ownNames source key callable scope
      parameters source callable scope
      body source key callable scope) Anything

/-- **Entering the callables of a file keeps the invariant.** -/
theorem EnterUpkeep.enterAll {source : String} {inv : Builder → Prop} {b : Builder}
    (h : EnterUpkeep source inv) (limit : Nat) (hb : inv b) :
    Keeps inv b (Build.enterAll source limit) Anything := by
  induction limit generalizing b with
  | zero => exact .pure hb trivial
  | succ limit ih =>
    refine .bind_get ?_
    split
    · exact .pure hb trivial
    · next key rest hagenda =>
      obtain ⟨callable, hcallable, hclass, -⟩ := isPending_iff.1 (isPending_of_agenda hagenda)
      have hb₁ := h.requeue b rest hb
      refine (Keeps.of_modify rfl rfl hb₁).bind fun _ b₁ _ heq => ?_
      subst heq
      refine Keeps.andThen (?_ : Keeps inv _ (Build.enter source key) Anything) fun _ b₂ h₂ => ih h₂.holds
      intro _ b₂ hrun
      rw [Build.enter, get_bind_apply] at hrun
      have hfound : Builder.callable? { b with queue := rest } key = some callable := hcallable
      rw [hfound] at hrun
      obtain ⟨_, _, hnote, hrun⟩ := exists_of_bind_ok hrun
      cases hnote
      obtain ⟨scope, _, hscope, hrun⟩ := exists_of_bind_ok hrun
      obtain ⟨scopes, hadd, rfl⟩ := exists_of_addScope_ok hscope
      have h₂ := (h.enter _ key callable scope scopes hb₁ hcallable hclass hadd _ b₂ hrun).1
      have hsize := Nat.le_of_lt (ScopeTree.lt_size_of_addScope hadd)
      exact ⟨⟨⟨h₂.grows.graph, Nat.le_trans hsize h₂.grows.scopes⟩, h₂.holds⟩, trivial⟩

end Build

open Builder

/-- **An invariant of a file** that its top level establishes and that is kept when callables are
entered holds before the returns are related. -/
theorem exists_of_file_phases {path : Path} {source : String} {root : Node} {ambient : List String}
    {b' : Builder} {inv : Builder → Prop}
    (htop : Build.Keeps inv (start path ambient) (Build.topLevel source root) Build.Anything)
    (henter : Build.EnterUpkeep source inv)
    (h : Build.file source root (start path ambient) = .ok ((), b')) :
    ∃ b, inv b ∧ Build.connectReturns b = .ok ((), b') := by
  rw [Build.file_eq] at h
  obtain ⟨⟨⟩, b₁, htop₁, h⟩ := Build.exists_of_bind_ok h
  obtain ⟨⟨⟩, b₂, hall, hreturns⟩ := Build.exists_of_bind_ok h
  exact ⟨b₂, (henter.enterAll _ (htop () b₁ htop₁).1.holds () b₂ hall).1.holds, hreturns⟩

end DeadCode
