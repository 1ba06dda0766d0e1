import DeadCode.Proofs.Resolution.Upkeep.Binding
import DeadCode.Proofs.Resolution.Upkeep.Turn

/-! # A name with one binder on the scope of the file

A name that one declaration at the top of a file binds is declared by nothing else on the scope of
the file, in the hoisting pass as in the linking pass. A function or a `var` declaration has done so
when hoisting ends, a class or a `let` or `const` declaration when linking has come to it. -/

namespace DeadCode

namespace Builder

/-- **On the scope of the file a name is bound by one declaration alone**, if it `may` be, and it is
bound if it `must` be. What no statement declares is not callable. -/
structure BoundBy (d : Node) (name : String) (may must : Prop) (b : Builder) : Prop where
  file : b.scopes.takesHoisted ScopeTree.globalId
  only : ∀ x v, b.scopes.local? ScopeTree.globalId name = some x → x.declaration = some v →
    may ∧ b.StandsFor v d
  bound : must → ∃ x, b.scopes.local? ScopeTree.globalId name = some x ∧ x.declaration.isSome
  plain : ∀ x, b.scopes.local? ScopeTree.globalId name = some x → x.declaration = none →
    x.callable = none

namespace BoundBy

variable {d : Node} {name : String} {may must : Prop} {b : Builder}

theorem imp {may' must' : Prop} (h : b.BoundBy d name may must) (hmay : may → may')
    (hmust : must' → must) : b.BoundBy d name may' must' where
  file := h.file
  only := fun x v hx hv => (h.only x v hx hv).imp_left hmay
  bound := fun hm => h.bound (hmust hm)
  plain := h.plain

/-- At first the name is not bound. -/
theorem start (d : Node) (name : String) (may : Prop) (path : Path) (ambient : List String) :
    (Builder.start path ambient).BoundBy d name may False := by
  refine ⟨(ScopeTree.wellFormed_ofAmbient ambient).takesHoisted_globalId, ?_, False.elim, ?_⟩
  · intro x v hx hv
    rw [(ScopeTree.of_local?_ofAmbient hx).2.1] at hv
    cases hv
  · exact fun x hx _ => (ScopeTree.of_local?_ofAmbient hx).2.2

/-- Declaring the name binds it. -/
theorem bind (h : b.BoundBy d name may must) (hmay : may) {scope : ScopeId} {binding : Binding}
    {hoist : Hoist} {scopes : ScopeTree}
    (hdeclare : b.scopes.declare scope binding hoist = .ok (ScopeTree.globalId, scopes))
    (hname : binding.name = name) {v : VertexId} (hdeclaration : binding.declaration = some v)
    (hv : b.StandsFor v d) : BoundBy d name may True { b with scopes } := by
  have hlocal : scopes.local? ScopeTree.globalId name = some binding := by
    rw [ScopeTree.local?_of_declare hdeclare, if_pos ⟨rfl, hname.symm⟩]
  refine ⟨?_, ?_, ?_, ?_⟩
  · refine ScopeTree.takesHoisted_of_frame ?_ h.file
    exact ScopeTree.prefix_of_frame_eq (ScopeTree.frame_of_declare hdeclare)
  · intro x w hx hw
    obtain rfl : binding = x := Option.some.inj (hlocal.symm.trans hx)
    obtain rfl : v = w := Option.some.inj (hdeclaration.symm.trans hw)
    exact ⟨hmay, hv⟩
  · exact fun _ => ⟨binding, hlocal, by rw [hdeclaration]; rfl⟩
  · intro x hx hnone
    obtain rfl : binding = x := Option.some.inj (hlocal.symm.trans hx)
    rw [hdeclaration] at hnone
    cases hnone

end BoundBy

end Builder

namespace Build

open Builder Node

/-! ## What statements keep -/

section Upkeep

variable {source name : String} {root d : Node} {top : List Node} {linking may must : Prop}

theorem aboutBinding_boundBy :
    AboutBinding ScopeTree.globalId name (BoundBy d name may must) where
  host_lt := fun _ hb => ScopeTree.lt_size_of_takesHoisted hb.file
  of_map := by
    intro b b' change hb hgraph hframe hchange hcallable hlocal
    refine ⟨ScopeTree.takesHoisted_of_frame hframe hb.file, ?_, ?_, ?_⟩
    · intro x v hx hv
      rw [hlocal] at hx
      obtain ⟨y, hy, rfl⟩ := Option.map_eq_some_iff.1 hx
      rw [hchange.declaration] at hv
      exact (hb.only y v hy hv).imp_right fun hstands => hstands.of_extends hgraph
    · intro hmust
      obtain ⟨x, hx, hsome⟩ := hb.bound hmust
      exact ⟨change x, by rw [hlocal, hx]; rfl, by rw [hchange.declaration]; exact hsome⟩
    · intro x hx hnone
      rw [hlocal] at hx
      obtain ⟨y, hy, rfl⟩ := Option.map_eq_some_iff.1 hx
      rw [hchange.declaration] at hnone
      rw [hcallable y hnone]
      exact hb.plain y hy hnone

/-- **Statements keep that one declaration binds a name.** The statements of `top` are hoisted or
linked; the declaration may bind the name if it is one that is linked, or if it is hoisted. -/
theorem upkeep_boundBy (hgrammar : root.Grammatical) (hd : root.SoleBinder source d name)
    (hmay : (∃ c ∈ top, d ∈ c.nodes) → linking ∨ d.kind.form?.any Form.isHoisted → may) :
    BodyUpkeep source root ScopeTree.globalId (· ∈ root.nodes)
      (fun n => root.Outer n ∧ ∃ c ∈ top, n ∈ c.nodes)
      (fun n => linking ∧ root.Standing n) (BoundBy d name may must) := by
  -- Whoever declares the name on the scope of the file is the declaration.
  have hlands {b : Builder} {n v scope binding hoist scopes} (hb : b.BoundBy d name may must)
      (hn : BindsOnFile source root n name) (htop : ∃ c ∈ top, n ∈ c.nodes)
      (hpass : linking ∨ n.kind.form?.any Form.isHoisted) (hv : b.StandsFor v n)
      (hdeclaration : binding.declaration = some v) (hname : binding.name = name)
      (hdeclare : b.scopes.declare scope binding hoist = .ok (ScopeTree.globalId, scopes)) :
      BoundBy d name may must { b with scopes } := by
    obtain rfl : n = d := hd.only n hn
    exact (hb.bind (hmay htop hpass) hdeclare hname hdeclaration hv).imp id fun _ => trivial
  have hlinked := aboutBinding_boundBy.upkeep hgrammar (self_mem_nodes root)
    (fun b n v binding scopes hb htop hlinking hstanding _ hv hdeclaration hname hmem hdeclare =>
      hlands hb ⟨hmem, .inl hstanding⟩ htop (.inl hlinking) hv hdeclaration hname hdeclare)
    (fun b n v scope binding scopes hb htop houter hform hv hdeclaration hname hmem _ hdeclare =>
      hlands hb ⟨hmem, .inr ⟨houter, hform⟩⟩ htop (.inr hform) hv hdeclaration hname hdeclare)
  refine { hlinked with hoisted := ?_ }
  rintro b n v scope binding target scopes hb ⟨houter, htop⟩ hform hv hdeclaration hmem hdeclare
  refine aboutBinding_boundBy.declare hb hdeclare fun htarget hname => ?_
  subst htarget
  rw [hname] at hmem
  exact hlands hb ⟨hmem, .inr ⟨houter, hform⟩⟩ htop (.inr hform) hv hdeclaration hname hdeclare

end Upkeep

/-! ## Binding the name -/

section Binding

variable {source name : String} {root d : Node} {region within standing : Node → Prop}
  {may must : Prop} {b : Builder} {v : VertexId}

/-- **Declaring the name on the scope of the file binds it there.** -/
theorem turn_boundBy (hup : ∀ must, BodyUpkeep source root ScopeTree.globalId region within standing
    (BoundBy d name may must)) (hmay : may) :
    TurnUpkeep source root ScopeTree.globalId region within standing d name ScopeTree.globalId
      (BoundBy d name may False) (BoundBy d name may True) where
  before := (hup False).toNameUpkeep
  after := (hup True).toNameUpkeep
  bind := by
    intro b v binding hoist target scopes hb hv hdeclaration hname hdeclare
    -- The scope of a file takes hoisted names, so the name lands there either way.
    have hland := ScopeTree.landing_of_declare hdeclare
    obtain rfl : ScopeTree.globalId = target := by
      cases hoist with
      | lexical => exact Except.ok.inj hland
      | hoisted =>
        rw [ScopeTree.landing, ScopeTree.hoistTarget_of_takesHoisted hb.file] at hland
        exact Except.ok.inj hland
    exact hb.bind hmay hdeclare hname hdeclaration hv
  held := by
    intro b target hb htarget hfunction
    rw [ScopeTree.hoistTarget_of_takesHoisted hb.file] at htarget
    cases htarget
    refine ⟨hb.file, hb.only, fun _ => ?_, hb.plain⟩
    obtain ⟨x, hx, hcallable⟩ := (Option.any_eq_true _ _).1 hfunction
    refine ⟨x, hx, ?_⟩
    cases hdeclaration : x.declaration with
    | some w => rfl
    | none =>
      rw [hb.plain x hx hdeclaration] at hcallable
      cases hcallable

variable (hup : ∀ must, BodyUpkeep source root ScopeTree.globalId region within standing
    (BoundBy d name may must))
  (hmay : may)
include hup hmay

/-- Linking its statement binds the name. -/
theorem bound_statement (hd : within d) (hpatterns : root.PatternsFit) (hstanding : standing d)
    (hb : b.BoundBy d name may False) (hhoisted : ¬ d.kind.form?.any Form.isHoisted)
    (hname : name ∈ d.boundNames source) (owner : Option VertexId) :
    Keeps (BoundBy d name may True) b (statement source d ScopeTree.globalId owner) Anything := by
  obtain ⟨form, hform⟩ := Option.isSome_iff_exists.1
    (form?_isSome_of_statementNames (mem_statementNames_of_boundNames hname))
  exact (turn_boundBy hup hmay).statement hd hpatterns (fun _ => hstanding)
    ((hup False).statementVertex hb hd (.of_form hform)) hhoisted hname owner

theorem bound_linkTop {c : Node} (hc : within c) (hpatterns : root.PatternsFit)
    (hstanding : standing c) (hb : b.BoundBy d name may False) (hcarries : c.Carries d)
    (hhoisted : ¬ d.kind.form?.any Form.isHoisted) (hname : name ∈ d.boundNames source) :
    Keeps (BoundBy d name may True) b (statement source c ScopeTree.globalId none) Anything := by
  rcases hcarries with rfl | ⟨hkind, hdeclaration⟩
  · exact bound_statement hup hmay hc hpatterns hstanding hb hhoisted hname none
  · have hd : within d := (hup False).carried c d hc hkind hdeclaration
    have hform : c.kind.form? = some .exportDecl := by rw [hkind]; rfl
    rw [statement, hform]
    refine ((hup False).statementVertex hb hc (.of_form hform)).turn
      fun v b₁ h₁ hv => ?_
    refine Keeps.turn (.pure h₁.holds trivial : Keeps (BoundBy d name may False) b₁ _ Anything)
      fun _ b₂ h₂ _ => ?_
    refine .withChild (fun declaration hfound _ => ?_) fun hnone => ?_
    · obtain rfl : d = declaration := Option.some.inj (hdeclaration.symm.trans hfound)
      have hdstanding := (hup False).standing_exported c d hstanding hkind hdeclaration
      refine (bound_statement hup hmay hd hpatterns hdstanding h₂.holds hhoisted hname _).andThen
        fun _ b₃ h₃ => ?_
      refine ((hup True).statementVertex h₃.holds hd
        (.inr ⟨c, (hup True).mem_nodes c hc, hkind, hdeclaration⟩)).andThen fun target b₄ h₄ => ?_
      refine .forM h₄.holds fun other _ b₅ h₅ => .of_connect fun id graph hconnect => ?_
      have hgrows := h₂.grows.trans ((h₃.trans h₄).trans h₅).grows
      exact (hup True).exported b₅ c v target other id graph h₅.holds hc hkind (hv.mono hgrows)
        hconnect
    · rw [hdeclaration] at hnone
      cases hnone

end Binding

/-! ## The passes over a file -/

section Passes

variable {source name : String} {root d : Node} {b : Builder}

/-- **After hoisting, a hoisted declaration binds the name**, and no other does. -/
theorem bound_hoistBody (hgrammar : root.Grammatical) (hd : root.SoleBinder source d name)
    (hb : b.BoundBy d name (d.kind.form?.any Form.isHoisted) False) :
    Keeps (BoundBy d name (d.kind.form?.any Form.isHoisted) (d.kind.form?.any Form.isHoisted)) b
      (hoistBody source root ScopeTree.globalId true) Anything := by
  have hup (must : Prop) : BodyUpkeep source root ScopeTree.globalId (· ∈ root.nodes)
      (fun n => root.Outer n ∧ ∃ c ∈ root.namedChildren, n ∈ c.nodes)
      (fun n => False ∧ root.Standing n)
      (BoundBy d name (d.kind.form?.any Form.isHoisted) must) :=
    upkeep_boundBy hgrammar hd fun _ h => h.resolve_left id
  have hwithin (c : Node) (hc : c ∈ root.namedChildren) :
      root.Outer c ∧ ∃ t ∈ root.namedChildren, c ∈ t.nodes :=
    ⟨.top hc, c, hc, self_mem_nodes c⟩
  by_cases hhoisted : d.kind.form?.any Form.isHoisted
  · -- The name is open up to the statement that declares it, and bound from there on.
    obtain ⟨hhere, g, hg, hname⟩ := exists_ownHoistedName hd.binds hhoisted true
    have hvisited := hd.mem_bodyVisits true
    have hvisits (e : Node × Bool) (he : e ∈ root.bodyVisits true) :
        root.Outer e.1 ∧ ∃ t ∈ root.namedChildren, e.1 ∈ t.nodes := by
      obtain ⟨c, hc, he⟩ := List.mem_flatMap.1 he
      exact (hup False).withinVisits (fun _ => hwithin c hc) he
    have hturn : Keeps (BoundBy d name (d.kind.form?.any Form.isHoisted) True) b
        (hoistBody source root ScopeTree.globalId true) Anything := by
      rw [hoistBody_eq]
      refine .forM_turn hvisited hb (fun e he b' hb' => (hup False).hoist.visit hb'.holds (hvisits e he))
        (fun b' hb' => ?_) fun e he b' hb' => (hup True).hoist.visit hb'.holds (hvisits e he)
      exact (turn_boundBy hup hhoisted).hoistHere (hvisits _ hvisited) hhere hg hname
        ((hup False).hoist.place b' d _ hb'.holds (hvisits _ hvisited) hhoisted)
    exact hturn.weaken fun _ h => h.imp id fun _ => trivial
  · exact ((hup False).hoist.hoistBody hb fun c hc _ => hwithin c hc).weaken
      fun _ h => h.imp id fun h => hhoisted h

/-- **After linking the first statements of a file the name is bound if its declaration is hoisted
or among them**, and not otherwise. -/
theorem bound_link (hgrammar : root.Grammatical) (hpatterns : root.PatternsFit)
    (hd : root.SoleBinder source d name) {first : List Node} {early : Prop}
    (hfirst : ∀ c ∈ first, c ∈ root.namedChildren)
    (hhoisted : d.kind.form?.any Form.isHoisted → early)
    (hearly : ∀ c ∈ first, d ∈ c.nodes → early)
    (hlinked : early → ¬ d.kind.form?.any Form.isHoisted → ∃ c ∈ first, c.Carries d)
    (hb : b.BoundBy d name (d.kind.form?.any Form.isHoisted) (d.kind.form?.any Form.isHoisted)) :
    Keeps (BoundBy d name early early) b
      (first.forM fun c => statement source c ScopeTree.globalId none) Anything := by
  have hup (must : Prop) : BodyUpkeep source root ScopeTree.globalId (· ∈ root.nodes)
      (fun n => root.Outer n ∧ ∃ c ∈ first, n ∈ c.nodes) (fun n => True ∧ root.Standing n)
      (BoundBy d name early must) := by
    refine upkeep_boundBy hgrammar hd ?_
    rintro ⟨c, hc, hmem⟩ -
    exact hearly c hc hmem
  have hwithin (c : Node) (hc : c ∈ first) : root.Outer c ∧ ∃ t ∈ first, c ∈ t.nodes :=
    ⟨.top (hfirst c hc), c, hc, self_mem_nodes c⟩
  have hlink {must : Prop} {b' : Builder} (hb' : b'.BoundBy d name early must) (c : Node)
      (hc : c ∈ first) :
      Keeps (BoundBy d name early must) b' (statement source c ScopeTree.globalId none) Anything :=
    ((hup must).nest.statement c (hwithin c hc) b' _ _ hb' fun _ =>
      ⟨trivial, .top (hfirst c hc)⟩).anything
  by_cases hform : d.kind.form?.any Form.isHoisted
  · refine Keeps.weaken (.forM (hb.imp hhoisted fun _ => hform : b.BoundBy d name early True)
      fun c hc b' hb' => hlink hb'.holds c hc) fun _ h => h.imp id fun _ => trivial
  have hopen : b.BoundBy d name early False := hb.imp hhoisted False.elim
  by_cases hmay : early
  · obtain ⟨c, hc, hcarries⟩ := hlinked hmay hform
    refine Keeps.weaken (.forM_turn hc hopen (fun y hy b' hb' => hlink hb'.holds y hy)
      (fun b' hb' => ?_) fun y hy b' hb' => hlink hb'.holds y hy :
        Keeps (BoundBy d name early True) b _ Anything) fun _ h => h.imp id fun _ => trivial
    exact bound_linkTop hup hmay (hwithin c hc) hpatterns ⟨trivial, .top (hfirst c hc)⟩ hb'.holds
      hcarries hform hd.binds
  · exact Keeps.weaken (.forM hopen fun c hc b' hb' => hlink hb'.holds c hc)
      fun _ h => h.imp id hmay

end Passes

end Build

end DeadCode
