import DeadCode.Proofs.Resolution.Keeps
import DeadCode.Proofs.Resolution.Runs.File

/-! # The calls of a file

When a call is linked, the names of its callee are looked up, and what they lead to is noted. If this
is a binding that is declared and stands for a callable, the call is a call site of the callable, with
the statement around it. -/

namespace DeadCode

open Node

/-- **A call led to a callable when it was linked**: the names of its callee led to a binding that was
declared and stood for the callable, and the call lies in a statement. -/
def LinkedCall.Calls (r : LinkedCall) (key : Key) (site : VertexId) : Prop :=
  (∃ x, r.found = some x ∧ x.declaration.isSome ∧ x.callable = some key) ∧ r.site = some site

/-- Statements and noted calls are as they were in another builder. -/
def Builder.SameSites (b b' : Builder) : Prop :=
  b'.graph.vertices = b.graph.vertices ∧ b'.callSites = b.callSites ∧ b'.calls = b.calls

/-- The call of a use, with the names of its callee. -/
def Use.callee? : Use → Option (Node × List String)
  | call n _ callee => some (n, [callee])
  | memberCall n _ chain => some (n, chain)
  | name _ _ | argument _ | member _ _ _ | pattern _ => none

variable {u : Use} {n : Node} {chain : List String} {source : String} {b b' : Builder}
  {scope : ScopeId}

theorem Use.node_of_callee? (h : u.callee? = some (n, chain)) : u.node = n := by
  cases u <;> cases h <;> rfl

namespace Build

open Builder

variable {source : String} {b b' : Builder} {scope : ScopeId}

/-! ## What notes a call -/

theorem relatable_sameSites (b b' : Builder) (n : Node) : Relatable b.SameSites b' n :=
  fun _ hlater _ _ _ _ _ _ _ hconnect =>
    ⟨(StatementGraph.of_connect hconnect).2.2.1.trans hlater.holds.1, hlater.holds.2⟩

/-- **Linking a call notes it**, and it gives a call site if and only if it leads to a callable. -/
theorem of_namedCallee {n callee : Node} {count : Nat} {chain : List String} {fallback : RelationKind}
    (hkind : fallback.isReference)
    (h : namedCallee source n callee scope count chain fallback b = .ok ((), b')) :
    b'.calls = b.calls.push (b.lookUp n chain scope) ∧ ∀ key site,
      (key, site) ∈ b'.callSites ↔
        (key, site) ∈ b.callSites ∨ (b.lookUp n chain scope).Calls key site := by
  obtain ⟨_, b₀, hlink, h⟩ := exists_of_bind_ok h
  obtain ⟨hgraph, hscopes, hold, hpush⟩ : b₀.graph = b.graph ∧ b₀.scopes = b.scopes ∧
      b₀.callSites = b.callSites ∧ b₀.calls = b.calls.push (b.lookUp n chain scope) := by
    cases hlink
    exact ⟨rfl, rfl, rfl, rfl⟩
  rw [← hold, ← hpush]
  have hb : b₀.SameSites b₀ := ⟨rfl, rfl, rfl⟩
  have hsame (hnot : ∀ x, b.scopes.lookupChain? scope chain = some x → x.declaration.isSome →
      x.callable = none) (hsites : b'.callSites = b₀.callSites ∧ b'.calls = b₀.calls) :
      b'.calls = b₀.calls ∧ ∀ key site, (key, site) ∈ b'.callSites ↔
        (key, site) ∈ b₀.callSites ∨ (b.lookUp n chain scope).Calls key site := by
    refine ⟨hsites.2, fun key site => ?_⟩
    rw [hsites.1]
    refine ⟨.inl, fun hcall => hcall.resolve_right ?_⟩
    rintro ⟨⟨x, hx, hdeclared, hcallable⟩, -⟩
    rw [hnot x hx hdeclared] at hcallable
    cases hcallable
  rw [get_bind_apply, hscopes] at h
  cases hfound : b.scopes.lookupChain? scope chain with
  | none =>
    rw [hfound] at h
    refine hsame (by simp [hfound]) ?_
    by_cases hlength : 1 < chain.length
    · rw [if_pos hlength] at h
      exact ((relating b₀.SameSites).memberReference (s := ⟨b₀, hb⟩)
        (relatable_sameSites b₀ b₀ callee) rfl () b' h).1.holds.2
    · rw [if_neg hlength] at h
      cases h
      exact ⟨rfl, rfl⟩
  | some x =>
    obtain ⟨name, declaration, origin, exportName, callable, members⟩ := x
    rw [hfound] at h
    cases declaration with
    | none =>
      refine hsame (by simp [hfound]) ?_
      cases callable with
      | none =>
        cases h
        exact ⟨rfl, rfl⟩
      | some key =>
        cases h
        exact ⟨rfl, rfl⟩
    | some target =>
      cases callable with
      | none =>
        refine hsame (by simp [hfound]) ?_
        exact (keeps_relate hb (relatable_sameSites b₀ b₀ callee) hkind () b' h).1.holds.2
      | some found =>
        obtain ⟨_, b₁, hcall, h⟩ := exists_of_bind_ok h
        obtain ⟨_, b₂, hparameters, h⟩ := exists_of_bind_ok h
        have h₁ := (keeps_relate hb (relatable_sameSites b₀ b₀ n) rfl () b₁ hcall).1.holds
        obtain ⟨hvertices, hsites, hcalls⟩ :=
          ((relating b₀.SameSites).parameterReferences (s := ⟨b₁, h₁⟩) (relatable_sameSites b₀ b₁ n)
            trivial () b₂ hparameters).1.holds
        obtain ⟨site?, b₃, hsite, h⟩ := exists_of_bind_ok h
        have hpair : (b₂.graph.findVertex? n.span, b₂) = (site?, b₃) := Except.ok.inj hsite
        obtain ⟨rfl, rfl⟩ := Prod.mk.inj hpair
        have hfind : b₂.graph.findVertex? n.span = b.graph.findVertex? n.span := by
          unfold StatementGraph.findVertex?
          rw [hvertices, hgraph]
        rw [hfind] at h
        cases hv : b.graph.findVertex? n.span with
        | none =>
          rw [hv] at h
          cases h
          refine ⟨hcalls, fun key site => ?_⟩
          show (key, site) ∈ b₂.callSites ↔ _
          simp [LinkedCall.Calls, Builder.lookUp, hsites, hv]
        | some v =>
          rw [hv] at h
          cases h
          refine ⟨hcalls, fun key site => ?_⟩
          show (key, site) ∈ b₂.callSites.push (found, v) ↔ _
          rw [hsites, Array.mem_push, Prod.mk.injEq]
          refine or_congr_right ⟨?_, ?_⟩
          · rintro ⟨rfl, rfl⟩
            exact ⟨⟨_, hfound, rfl, rfl⟩, hv⟩
          · rintro ⟨⟨x, hx, -, hcallable⟩, hsite⟩
            cases hfound.symm.trans hx
            exact ⟨(Option.some.inj hcallable).symm, Option.some.inj (hsite.symm.trans hv)⟩

end Build

/-- Uses that are no calls note none. -/
theorem Use.sameCalls_of_performs (hu : u.Proper source) (hcallee : u.callee? = none)
    (h : u.Performs source scope b b') : b'.callSites = b.callSites ∧ b'.calls = b.calls := by
  let N := Build.relating b.SameSites
  have hrefers (n : Node) : N.refers ⟨b, rfl, rfl, rfl⟩ n := Build.relatable_sameSites b b n
  cases u with
  | name n kind =>
    refine (N.reference (hrefers n) ?_ () b' h).1.holds.2
    rcases hu.2 with rfl | rfl <;> rfl
  | argument n =>
    obtain ⟨index, h⟩ := h
    exact (N.argumentReference (hrefers n) () b' h).1.holds.2
  | member n chain kind =>
    refine (N.memberReference (hrefers n) ?_ () b' h).1.holds.2
    rcases hu with rfl | rfl | rfl <;> rfl
  | pattern n => exact (N.patternReferences (hrefers n) () b' h).1.holds.2
  | call => cases hcallee
  | memberCall => cases hcallee

/-- A use that is a call resolves its callee. -/
theorem Use.exists_namedCallee_of_performs (hcallee : u.callee? = some (n, chain))
    (h : u.Performs source scope b b') :
    ∃ callee count fallback, fallback.isReference ∧
      Build.namedCallee source n callee scope count chain fallback b = .ok ((), b') := by
  cases u with
  | call _ callee name =>
    cases hcallee
    obtain ⟨count, h⟩ := h
    exact ⟨callee, count, _, rfl, h⟩
  | memberCall _ callee chain =>
    cases hcallee
    obtain ⟨count, h⟩ := h
    exact ⟨callee, count, _, rfl, h⟩
  | _ => cases hcallee

namespace Trace

/-! ## Keeping account of the calls -/

/-- Nothing was met but what is no call. -/
def MeetsNoCall (w w' : Trace) : Prop :=
  w'.log = w.log ∨ ∃ entry, w'.log = entry :: w.log ∧
    ∀ u, entry.leaf = .use u → u.callee? = none

/-- **The calls of a history account for its call sites**: these are the calls that led to callables,
each of them has an edge, and all calls that were met are there. They are calls of the file, in the
statements that were found around them. -/
structure Accounts (root : Node) (w : Trace) : Prop where
  inside : ∀ r ∈ w.builder.calls, r.call ∈ root.nodes
  around : ∀ r ∈ w.builder.calls, ∀ site, r.site = some site →
    ∃ x, w.builder.graph.vertex? site = some x ∧ x.span.contains r.call.span
  sites : ∀ key site, (key, site) ∈ w.builder.callSites ↔ ∃ r ∈ w.builder.calls, r.Calls key site
  edges : ∀ r ∈ w.builder.calls, ∀ key site, r.Calls key site →
    ∃ e ∈ w.builder.graph.edges, e.source = site ∧ e.relation.kind = .call
  met : ∀ u scope during, ⟨.use u, scope, during⟩ ∈ w.log → ∀ n chain,
    u.callee? = some (n, chain) → ∃ r ∈ w.builder.calls, r.call = n ∧ r.chain = chain

namespace Accounts

variable {path : Path} {ambient : List String} {source : String} {root : Node} {w w' : Trace}

/-- The account stands where no call is met. -/
theorem keep (h : w.Accounts root) (hgrows : w.Extends w') (hnone : w.MeetsNoCall w')
    (hsame : w.SameCalls w') : w'.Accounts root := by
  obtain ⟨hsites, hcalls⟩ := hsame
  constructor
  all_goals
    rw [hcalls]
  · exact h.inside
  · intro r hr site hsite
    obtain ⟨x, hx, hspan⟩ := h.around r hr site hsite
    exact ⟨x, hgrows.graph site x hx, hspan⟩
  · rw [hsites]
    exact h.sites
  · exact fun r hr key site hcalls =>
      (h.edges r hr key site hcalls).imp fun e he => ⟨hgrows.edges e he.1, he.2⟩
  · intro u scope during hmet
    rcases hnone with hlog | ⟨entry, hlog, hentry⟩
    · rw [hlog] at hmet
      exact h.met u scope during hmet
    · rw [hlog] at hmet
      rcases List.mem_cons.1 hmet with rfl | hmet
      · simp [hentry u rfl]
      · exact h.met u scope during hmet

/-- **Linking a call adds it to the account.** -/
theorem call (h : w.Accounts root) {b : Builder} {u : Use} {n : Node} {chain : List String}
    {scope : ScopeId} {during : Option Node} (hu : u.callee? = some (n, chain))
    (hn : n ∈ root.nodes) (hperforms : u.Performs source scope w.builder b)
    (hgrows : w.Extends { w with builder := b, log := ⟨.use u, scope, during⟩ :: w.log }) :
    Accounts root { w with builder := b, log := ⟨.use u, scope, during⟩ :: w.log } := by
  obtain ⟨callee, count, fallback, hkind, hrun⟩ := Use.exists_namedCallee_of_performs hu hperforms
  obtain ⟨hcalls, hsites⟩ := Build.of_namedCallee hkind hrun
  constructor
  all_goals
    simp only [hcalls, Array.mem_push]
  · rintro r (hr | rfl)
    · exact h.inside r hr
    · exact hn
  · rintro r (hr | rfl) site hsite
    · obtain ⟨x, hx, hspan⟩ := h.around r hr site hsite
      exact ⟨x, hgrows.graph site x hx, hspan⟩
    · obtain ⟨x, hx⟩ := StatementGraph.findVertex?_eq_some_iff.1 hsite
      exact ⟨x, hgrows.graph site x hx.vertex, hx.contains⟩
  · intro key site
    rw [hsites, h.sites]
    simp only [or_and_right, exists_or, exists_eq_left]
  · rintro r (hr | rfl) key site hleads
    · exact (h.edges r hr key site hleads).imp fun e he => ⟨hgrows.edges e he.1, he.2⟩
    · obtain ⟨⟨x, hx, hdeclared, hcallable⟩, hsite⟩ := hleads
      obtain ⟨target, htarget⟩ := Option.isSome_iff_exists.1 hdeclared
      obtain ⟨e, he, hrelation, hsource, -⟩ :=
        (Build.namedCallee_ok hrun).2.1 x target hx htarget (by rw [hcallable]; rfl)
      exact ⟨e, he, Option.some.inj (hsource.symm.trans hsite), by rw [hrelation]; rfl⟩
  · intro u' scope' during' hmet n' chain' hcallee
    rcases List.mem_cons.1 hmet with heq | hmet
    · cases heq
      cases hu.symm.trans hcallee
      exact ⟨_, .inr rfl, rfl, rfl⟩
    · obtain ⟨r, hr, hcall⟩ := h.met u' scope' during' hmet n' chain' hcallee
      exact ⟨r, .inl hr, hcall⟩

/-- **One incident more**, and the calls still account for the call sites. -/
theorem incident (h : w.Accounts root) (hincident : Incident source root w w') :
    w'.Accounts root := by
  have hgrows := hincident.event.grows
  obtain ⟨hevent, hsites⟩ := hincident
  cases hevent with
  | enter => exact h.keep hgrows (.inl rfl) ⟨rfl, rfl⟩
  | act hact =>
    cases hact with
    | @use u scope during b hu hmem hin hopen hperforms =>
      cases hcallee : u.callee? with
      | none =>
        refine h.keep hgrows (.inr ⟨_, rfl, ?_⟩) (Use.sameCalls_of_performs hu hcallee hperforms)
        rintro _ ⟨⟩
        exact hcallee
      | some callee => exact h.call hcallee (Use.node_of_callee? hcallee ▸ hmem) hperforms hgrows
    | register => exact h.keep hgrows (.inr ⟨_, rfl, by rintro _ ⟨⟩⟩) ⟨rfl, rfl⟩
    | _ => exact h.keep hgrows (.inl rfl) (hsites rfl)

/-- **The calls of a file account for its call sites.** -/
theorem of_incidents
    (h : Relation.ReflTransGen (Incident source root) (start path ambient root) w) :
    w.Accounts root := by
  induction h with
  | refl => constructor <;> simp [start, Builder.start]
  | tail _ hincident ih => exact ih.incident hincident

end Accounts

end Trace

end DeadCode
