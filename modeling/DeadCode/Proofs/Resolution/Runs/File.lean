import DeadCode.Proofs.Resolution.Runs.Callable
import DeadCode.Proofs.Resolution.File

/-! # The leaves of a file are met

A whole file is resolved by acts and by entering callables. Both are the events of its history. Since
the loop over the callables ends only when all of them were entered, every leaf of the file is met. -/

namespace DeadCode

open Node

namespace Trace

/-! ## Histories -/

/-- An event in the history of a file: an act, or the entry of a callable. -/
inductive Event (source : String) (root : Node) (w : Trace) : Trace → Prop where
  | act {w' : Trace} (h : Act source root w w') : Event source root w w'
  | enter {key : Key} {callable : Callable} {scope : ScopeId} {scopes : ScopeTree}
      (hfound : w.builder.callable? key = some callable)
      (hclass : callable.node.kind.isClass = false)
      (hfits : w.places.length = w.builder.scopes.size)
      (hadd : w.builder.scopes.addScope callable.scope .function = .ok (scope, scopes)) :
      Event source root w (w.entered key callable scopes)

/-- The trace with which a file begins: its one scope is that of the file. -/
def start (path : Path) (ambient : List String) (root : Node) : Trace where
  builder := .start path ambient
  places := [⟨.file, root⟩]

/-- The traces to which events lead from the beginning of a file. -/
def Reached (path : Path) (ambient : List String) (source : String) (root : Node) (w : Trace) :
    Prop :=
  Relation.ReflTransGen (Event source root) (start path ambient root) w

/-- An event in which no call is noted unless something is met. -/
structure Incident (source : String) (root : Node) (w w' : Trace) : Prop where
  event : Event source root w w'
  sites : w'.log = w.log → w.SameCalls w'

section History

variable {path : Path} {ambient : List String} {source : String} {root : Node} {w w' : Trace}

/-- **No event takes anything away.** -/
theorem Event.grows (h : Event source root w w') : w.Extends w' := by
  cases h with
  | act h => exact h.grows
  | enter _ _ _ hadd => exact extends_entered hadd

theorem Leads.incidents (h : w.Leads source root w') :
    Relation.ReflTransGen (Incident source root) w w' :=
  Relation.ReflTransGen.mono (fun _ _ h => ⟨.act h.act, h.sites⟩) _ _ h.deeds

/-- A use was made in the course of a history: in an earlier trace, and the edges it led to are still
there. -/
structure Made (path : Path) (ambient : List String) (source : String) (root : Node) (w : Trace)
    (u : Use) (scope : ScopeId) (during : Option Node) (w₀ : Trace) (b : Builder) : Prop where
  reached : Reached path ambient source root w₀
  grows : w₀.Extends w
  proper : u.Proper source
  mem : u.node ∈ root.nodes
  within : w₀.Within scope u.node
  opened : w₀.Open source scope during
  performs : u.Performs source scope w₀.builder b
  edges : ∀ e ∈ b.graph.edges, e ∈ w.builder.graph.edges

/-- A use that an event adds to the log is made by the event. -/
theorem Event.exists_made (hevent : Event source root w w') (h : Reached path ambient source root w)
    {u : Use} {scope : ScopeId} {during : Option Node} (hu : ⟨.use u, scope, during⟩ ∈ w'.log) :
    ⟨.use u, scope, during⟩ ∈ w.log ∨
      ∃ b, w'.Made path ambient source root u scope during w b := by
  have hgrows := hevent.grows
  cases hevent with
  | enter => exact .inl hu
  | act hact =>
    cases hact with
    | use hproper hmem hin hopen hperforms =>
      rcases List.mem_cons.1 hu with heq | hu
      · cases heq
        exact .inr ⟨_, h, hgrows, hproper, hmem, hin, hopen, hperforms, fun e he => he⟩
      · exact .inl hu
    | register =>
      rcases List.mem_cons.1 hu with heq | hu
      · cases heq
      · exact .inl hu
    | _ => exact .inl hu

/-- **What was met was met by an act.** -/
theorem Reached.exists_made (h : Reached path ambient source root w) {u : Use} {scope : ScopeId}
    {during : Option Node} (hu : ⟨.use u, scope, during⟩ ∈ w.log) :
    ∃ w₀ b, w.Made path ambient source root u scope during w₀ b := by
  induction h with
  | refl => cases hu
  | @tail w₁ w₂ hreached hevent ih =>
    rcases hevent.exists_made hreached hu with hlog | hmade
    · obtain ⟨w₀, b, hmade⟩ := ih hlog
      exact ⟨w₀, b, { hmade with
        grows := hmade.grows.trans hevent.grows
        edges := fun e he => hevent.grows.edges e (hmade.edges e he) }⟩
    · exact ⟨w₁, hmade⟩

/-- What was left for later is registered. -/
theorem Reached.registered (h : Reached path ambient source root w) {entry : Visited} {d : Node}
    (hentry : entry ∈ w.log) (hd : entry.leaf = .defer d) :
    d ∈ root.callables ∧ d.kind.isClass = false ∧ (w.builder.callable? d.key).isSome := by
  induction h with
  | refl => cases hentry
  | @tail w₁ w₂ _ hevent ih =>
    have hold (hlog : entry ∈ w₁.log) := by
      obtain ⟨hmem, hclass, hsome⟩ := ih hlog
      exact And.intro hmem (And.intro hclass (hevent.grows.callables _ hsome))
    cases hevent with
    | enter => exact hold hentry
    | act hact =>
      cases hact with
      | use =>
        rcases List.mem_cons.1 hentry with rfl | hentry
        · cases hd
        · exact hold hentry
      | register during hmem _ hdefers _ =>
        rcases List.mem_cons.1 hentry with rfl | hentry
        · cases hd
          obtain ⟨hcallable, hclass⟩ := Visit.isCallable_of_defers hdefers
          refine ⟨mem_callables.2 ⟨hmem, hcallable⟩, hclass, ?_⟩
          change (List.lookup _ _).isSome
          rw [Builder.lookup_setCallable, if_pos rfl]
          rfl
        · exact hold hentry
      | _ => exact hold hentry

end History

/-! ## Between two callables -/

/-- What is true of a trace between two callables: the functions of all scopes are hoisted, and the
statements, the top level and the callables that were begun were brought to their ends. -/
structure Between (path : Path) (ambient : List String) (source : String) (root : Node)
    (w : Trace) : Prop where
  incidents : Relation.ReflTransGen (Incident source root) (start path ambient root) w
  calm : w.Calm source
  finished : ∀ x ∈ w.builder.graph.vertices, x.key.kind = .expressionStatement →
    w.Finished source root x
  file : w.Came Anywhere (bodyLeaves source root)
  entered : ∀ entry ∈ w.builder.expanded, ∃ c ∈ root.callables, c.key = entry.1 ∧
    w.Came Anywhere (callableLeaves source c)

namespace Between

open Build

variable {path : Path} {ambient : List String} {source : String} {root : Node} {w w' : Trace}

theorem reached (h : w.Between path ambient source root) : Reached path ambient source root w :=
  Relation.ReflTransGen.mono (fun _ _ h => h.event) _ _ h.incidents

theorem after (h : w.Between path ambient source root) (hw : w.Leads source root w') :
    w'.Between path ambient source root where
  incidents := h.incidents.trans hw.incidents
  calm := hw.calm h.calm
  finished := by
    intro x hx hkind
    rcases hw.accounted x hx hkind with hx | hx
    · exact (h.finished x hx hkind).mono hw.grows
    · exact hx
  file := h.file.mono hw.grows
  entered := by
    intro entry hentry
    rw [hw.expanded_eq] at hentry
    obtain ⟨c, hc, hkey, hcame⟩ := h.entered entry hentry
    exact ⟨c, hc, hkey, hcame.mono hw.grows⟩

/-- **Entering a callable** keeps what is true between two callables. -/
theorem enter (hnested : root.Nested) (hroot : root.Grammatical)
    (h : w.Between path ambient source root) (hvalid : w.builder.Valid root) {key : Key}
    {callable : Callable} {b : Builder} (hfound : w.builder.callable? key = some callable)
    (hclass : callable.node.kind.isClass = false)
    (hrun : Build.enter source key w.builder = .ok ((), b)) :
    ∃ w' : Trace, w'.builder = b ∧ w'.Between path ambient source root := by
  have hplaced := hvalid.callables _ (Builder.mem_of_callable? hfound)
  obtain ⟨scopes, hadd⟩ := ScopeTree.exists_addScope hplaced.scope .function
  obtain ⟨w', hb, hw, hcalm, hcame⟩ := comes_enter hnested hroot h.calm hvalid hfound hadd hrun
  have henter : Event source root w (w.entered key callable scopes) :=
    .enter hfound hclass h.calm.fits hadd
  have hextends := henter.grows.trans hw.grows
  refine ⟨w', hb, (h.incidents.tail ⟨henter, fun _ => ⟨rfl, rfl⟩⟩).trans hw.incidents, hcalm, ?_,
    h.file.mono hextends, ?_⟩
  · intro x hx hkind
    rcases hw.accounted x hx hkind with hx | hx
    · exact (h.finished x hx hkind).mono hextends
    · exact hx
  · intro entry hentry
    rw [hw.expanded_eq] at hentry
    rcases List.mem_cons.1 hentry with rfl | hentry
    · exact ⟨callable.node, hplaced.mem, hplaced.key, hcame⟩
    · obtain ⟨c, hc, hkey, hcame⟩ := h.entered entry hentry
      exact ⟨c, hc, hkey, hcame.mono hextends⟩

/-- One round of the work list. -/
theorem round (hnested : root.Nested) (hroot : root.Grammatical)
    (h : w.Between path ambient source root) (hvalid : w.builder.Valid root) {b : Builder}
    (hround : Round source w.builder b) :
    ∃ w' : Trace, w'.builder = b ∧ w'.Between path ambient source root := by
  obtain ⟨key, rest, hagenda, hrun⟩ := hround
  obtain ⟨callable, hfound, hclass, -⟩ :=
    Builder.isPending_iff.1 (Builder.isPending_of_agenda hagenda)
  have hqueue : w.Leads source root { w with builder := { w.builder with queue := rest } } :=
    .of_vertices_eq ⟨.note rfl rfl rfl rfl, fun _ => ⟨rfl, rfl⟩⟩ rfl
  exact (h.after hqueue).enter hnested hroot (hvalid.requeue rest) hfound hclass hrun

/-- The rounds of the work list, to its end. -/
theorem drains (hnested : root.Nested) (hroot : root.Grammatical) {b b' : Builder}
    (hdrains : Drains source b (.ok b')) (hvalid : b.Valid root) (hb : w.builder = b)
    (h : w.Between path ambient source root) :
    ∃ w' : Trace, w'.builder = b' ∧ w'.Between path ambient source root := by
  generalize hresult : (Except.ok b' : Except BuildError Builder) = result at hdrains
  induction hdrains generalizing w with
  | done =>
    cases hresult
    exact ⟨w, hb, h⟩
  | fail => cases hresult
  | round hround _ ih =>
    subst hb
    obtain ⟨w', hw', h'⟩ := h.round hnested hroot hvalid hround
    exact ih (hround.enters hvalid).valid hw' h' hresult

/-- **When no callable waits, every leaf of the file was met.** -/
theorem met_of_seen (hdistinct : root.DistinctCallables) (h : w.Between path ambient source root)
    (hvalid : w.builder.Valid root) (hagenda : w.builder.agenda = []) {leaf : Leaf}
    (hseen : root.Seen source leaf) : w.Meets Anywhere leaf := by
  induction hseen with
  | file hleaf => exact h.file _ hleaf
  | @enter d leaf _ hleaf ih =>
    obtain ⟨entry, hentry, hd, -⟩ := ih
    obtain ⟨hmem, hclass, hsome⟩ := h.reached.registered hentry hd
    obtain ⟨callable, hfound⟩ := Option.isSome_iff_exists.1 hsome
    have hplaced := hvalid.callables _ (Builder.mem_of_callable? hfound)
    have hnode : callable.node = d := hdistinct.eq_of_key_eq hplaced.mem hmem hplaced.key
    -- It does not wait, so it was entered.
    have hexpanded : (d.key, callable.scope) ∈ w.builder.expanded := by
      by_contra hnew
      have hwaits := hvalid.mem_waiting.2
        ⟨Builder.mem_of_callable? hfound, by rw [hnode]; exact hclass, hnew⟩
      rw [Builder.waiting_of_agenda_nil hagenda] at hwaits
      cases hwaits
    obtain ⟨c, hc, hkey, hcame⟩ := h.entered _ hexpanded
    obtain rfl := hdistinct.eq_of_key_eq hc hmem hkey
    exact hcame leaf hleaf

end Between

/-! ## The whole file -/

section File

open Build

variable {path : Path} {ambient : List String} {source : String} {root : Node}

/-- **The top level** is hoisted and linked, and then the functions of the file are hoisted. -/
theorem between_topLevel (hnested : root.Nested) (hroot : root.Grammatical) {b : Builder}
    (hrun : topLevel source root (.start path ambient) = .ok ((), b)) :
    ∃ w : Trace, w.builder = b ∧ w.Between path ambient source root := by
  have hquiet : (start path ambient root).Quiet source (some ScopeTree.globalId) := by
    refine ⟨rfl, fun scope hlt hbusy => ?_, ScopeTree.grounded_ofAmbient ambient⟩
    have hzero : scope < 1 := hlt
    exact absurd (congrArg some (Nat.lt_one_iff.1 hzero).symm) hbusy
  have hruns : Runs source root (start path ambient root) (topLevel source root) fun _ w' =>
      w'.Calm source ∧ w'.Came Anywhere (bodyLeaves source root) :=
    runs_wholeBody hnested hroot hquiet (ScopeTree.wellFormed_ofAmbient ambient).takesHoisted_globalId
      rfl (self_mem_nodes root) (fun c hc => .file rfl hc) rfl true none
  obtain ⟨w, hb, hw, hcalm, hcame⟩ := hruns () b hrun
  refine ⟨w, hb, hw.incidents, hcalm, fun x hx hkind => ?_, hcame, fun entry hentry => ?_⟩
  · -- A file begins without statements.
    refine (hw.accounted x hx hkind).resolve_left fun hstart => ?_
    simp [start, Builder.start] at hstart
  · rw [hw.expanded_eq] at hentry
    cases hentry

theorem acts_connectReturns {w : Trace} : Acts source root w connectReturns :=
  .bind_get (Acts.forM fun _ _ _ _ => .forM fun _ _ _ _ => acts_connect rfl)

/-- **A file is the end of a history** in which every expression statement was linked to its end and,
if callables are told apart by their identities, every leaf of the file was met. -/
theorem exists_of_file (hnested : root.Nested) (hroot : root.Grammatical) {b₃ : Builder}
    (h : file source root (.start path ambient) = .ok ((), b₃)) :
    ∃ w : Trace, w.builder = b₃ ∧ w.Between path ambient source root ∧
      (root.DistinctCallables → ∀ leaf, root.Seen source leaf → w.Meets Anywhere leaf) := by
  rw [file_eq] at h
  obtain ⟨⟨⟩, b₁, htop, hrest⟩ := exists_of_bind_ok h
  obtain ⟨⟨⟩, b₂, hall, hreturns⟩ := exists_of_bind_ok hrest
  have hvalid₁ : b₁.Valid root := by
    have hstart := outcome_topLevel (Builder.valid_start root path ambient) source
    rw [Outcome, htop] at hstart
    exact hstart.1.valid
  obtain ⟨w₁, hb₁, h₁⟩ := between_topLevel hnested hroot htop
  have hdrains := drains_enterAll source hvalid₁ hvalid₁.load_le
  rw [hall] at hdrains
  obtain ⟨hvalid₂, -, hagenda⟩ := hdrains.invariant (fun _ _ _ _ _ => trivial) hvalid₁ trivial
  obtain ⟨w₂, rfl, h₂⟩ := h₁.drains hnested hroot hdrains hvalid₁ hb₁
  obtain ⟨w₃, rfl, h₃, -⟩ := acts_connectReturns (w := w₂) () b₃ hreturns
  refine ⟨w₃, rfl, h₂.after h₃, fun hdistinct leaf hseen => ?_⟩
  exact (h₂.met_of_seen hdistinct hvalid₂ hagenda hseen).mono h₃.grows

/-- **What is built is the end of such a history.** -/
theorem exists_of_build? (hnested : root.Nested) (hroot : root.Grammatical)
    {graph : StatementGraph} {scopes : ScopeTree}
    (h : StatementGraph.build? path source root ambient = .ok (graph, scopes)) :
    ∃ w : Trace, w.Between path ambient source root ∧ w.builder.graph = graph ∧
      w.builder.scopes = scopes ∧
      (root.DistinctCallables → ∀ leaf, root.Seen source leaf → w.Meets Anywhere leaf) := by
  obtain ⟨b, hfile, rfl, rfl⟩ := exists_file_of_build? h
  obtain ⟨w, rfl, hbetween, hmet⟩ := exists_of_file hnested hroot hfile
  exact ⟨w, hbetween, rfl, rfl, hmet⟩

end File

end Trace

end DeadCode
