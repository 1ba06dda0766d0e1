import DeadCode.Module.Basic
import DeadCode.Proofs.Resolution.ExportClauses
import DeadCode.Proofs.Syntax.SourceOrder

/-! # The place of an export clause

An export clause is resolved where it stands. Functions and `var` declarations are hoisted, so a
clause finds them from any place in the file. A class or a `let` or `const` declaration is declared
when linking comes to it: a clause that stands before it finds nothing, and the export is said to be
produced by the `export` statement itself. -/

namespace DeadCode

namespace Node

/-- **A declaration is known at a statement**: it is hoisted, or it starts before the statement. -/
def KnownAt (d s : Node) : Prop :=
  d.kind.form?.any Form.isHoisted ∨ d.span.start < s.span.start

instance (d s : Node) : Decidable (d.KnownAt s) :=
  inferInstanceAs (Decidable (_ ∨ _))

/-- **A statement lists `l as n` in an export clause.** -/
def ListsAs (source : String) (s : Node) (l n : String) : Prop :=
  ∃ specifier name, s.Specifies specifier name ∧ name.text? source = some l ∧
    ((specifier.child? .aliased).bind (·.staticKey? source)).getD l = n

theorem ListsAs.mem_statementExports {source : String} {s : Node} {l n : String}
    (h : s.ListsAs source l n) : (n, some l) ∈ s.statementExports source := by
  obtain ⟨specifier, name, hspec, htext, hname⟩ := h
  have hkey : name.staticKey? source = some l := by
    rw [staticKey?, hspec.identifier]
    exact htext
  have hmem : (n, some l) ∈ s.namedChildren.flatMap (·.clauseExports source false) := by
    obtain ⟨clause, hclause, hkind, hspecifier⟩ := hspec.clause
    refine List.mem_flatMap.2 ⟨clause, hclause, ?_⟩
    rw [clauseExports, hkind]
    refine List.mem_filterMap.2 ⟨specifier, hspecifier, ?_⟩
    simp [hspec.listed, hkey, hname]
  rw [statementExports, hspec.declaration, hspec.value, hspec.origin]
  dsimp only [Option.isSome_none]
  split
  · next hnil =>
    rw [hnil] at hmem
    cases hmem
  · exact hmem

theorem SoleBinder.kind_ne {source l : String} {root d : Node} (h : root.SoleBinder source d l) :
    d.kind ≠ .exportStatement := by
  intro hkind
  have hbinds := h.binds
  simp [boundNames, hkind, Kind.form?] at hbinds

/-- It is enough that the nodes which declare the name have the identity of the declaration. -/
theorem SoleBinder.of_key_eq {source l : String} {root c d : Node} (hroot : root.WellSpaced)
    (hc : c ∈ root.namedChildren) (hcarries : c.Carries d) (hbinds : l ∈ d.boundNames source)
    (honly : ∀ n ∈ root.nodes, l ∈ n.statementNames source → n.key = d.key) :
    root.SoleBinder source d l where
  top := ⟨c, hc, hcarries⟩
  binds := hbinds
  only := by
    intro n hn
    have hd : d ∈ root.nodes :=
      mem_nodes_trans hcarries.mem_nodes (child_mem_nodes (mem_children_of_namedChildren hc))
    have hplaced {m : Node} (hm : l ∈ m.statementNames source) : root.Placed m := by
      refine placed_of_kind (.inl (.inl (form?_isSome_of_statementNames hm))) fun hkind => ?_
      simp [statementNames, hkind, Kind.form?] at hm
    exact hroot.spaced_placed.eq_of_key_eq hn.mem_nodes hd (hplaced hn.1)
      (hplaced (mem_statementNames_of_boundNames hbinds)) (honly n hn.mem_nodes hn.1)

end Node

theorem ScopeTree.lookup?_globalId (tree : ScopeTree) (name : String) :
    tree.lookup? globalId name = tree.local? globalId name := by
  rw [lookup?, chain]
  cases hscope : tree.scope? globalId with
  | none => simp [local?, hscope]
  | some s =>
    obtain ⟨parent, kind, bindings⟩ := s
    cases parent <;> simp [globalId]

namespace Builder

variable {b b' : Builder} {d n : Node} {name : String} {known : Prop} {v : VertexId}

theorem HasCarried.mono (h : b.HasCarried n) (hgrows : b.Grows b') : b'.HasCarried n :=
  fun d hd hform hblock => (h d hd hform hblock).imp fun _ hv => hv.mono hgrows

/-- What the name denotes in the scope of the file stands for its declaration, if anything. -/
theorem BoundBy.of_declarationOf? (h : b.BoundBy d name known known)
    (hv : b.scopes.declarationOf? ScopeTree.globalId name = some v) : known ∧ b.StandsFor v d := by
  rw [ScopeTree.declarationOf?, ScopeTree.lookup?_globalId] at hv
  obtain ⟨x, hx, hv⟩ := Option.bind_eq_some_iff.1 hv
  exact h.only x v hx hv

theorem BoundBy.exists_declarationOf? (h : b.BoundBy d name known known) (hknown : known) :
    ∃ v, b.scopes.declarationOf? ScopeTree.globalId name = some v := by
  obtain ⟨x, hx, hsome⟩ := h.bound hknown
  obtain ⟨v, hv⟩ := Option.isSome_iff_exists.1 hsome
  refine ⟨v, ?_⟩
  rw [ScopeTree.declarationOf?, ScopeTree.lookup?_globalId, hx]
  exact hv

theorem Spared.vertexByKey?_eq {root s : Node} {carried : Option Node} {old : Edge → Prop}
    (h : b.Spared root s carried old) (hv : b.StandsFor v n) :
    b.graph.vertexByKey? n.key = some v := by
  obtain ⟨x, hx, hkey⟩ := hv
  rw [← hkey]
  exact h.stands.vertexByKey?_eq hx

end Builder

namespace Build

open Builder Node

variable {source l : String} {root s specifier name d : Node} {b b' : Builder}
  {carried : Option Node} {old : Edge → Prop} {before after : List Node}

/-! ## The run around a clause -/

theorem exists_of_file_ok (hordered : root.orderedChildren source = before ++ s :: after)
    (h : file source root b = .ok ((), b')) :
    ∃ b₁ b₂ b₃ b₄ b₅, hoistBody source root ScopeTree.globalId true b = .ok ((), b₁) ∧
      before.forM (fun c => statement source c ScopeTree.globalId none) b₁ = .ok ((), b₂) ∧
      statement source s ScopeTree.globalId none b₂ = .ok ((), b₃) ∧
      after.forM (fun c => statement source c ScopeTree.globalId none) b₃ = .ok ((), b₄) ∧
      enterAll source root.entryBound b₄ = .ok ((), b₅) ∧ connectReturns b₅ = .ok ((), b') := by
  obtain ⟨_, b₁, hhoist, h⟩ := exists_of_bind_ok h
  obtain ⟨_, b₄, hlink, h⟩ := exists_of_bind_ok h
  obtain ⟨_, b₅, henter, hreturns⟩ := exists_of_bind_ok h
  rw [linkBody, hordered, List.forM_eq_forM, List.forM_append, List.forM_cons] at hlink
  obtain ⟨_, b₂, hbefore, hlink⟩ := exists_of_bind_ok hlink
  obtain ⟨_, b₃, hs, hafter⟩ := exists_of_bind_ok hlink
  exact ⟨b₁, b₂, b₃, b₄, b₅, hhoist, hbefore, hs, hafter, henter, hreturns⟩

section Spared

variable (hroot : root.WellSpaced) (hgrammar : root.Grammatical) (hnames : root.NamesFit)
  (hs : s ∈ root.namedChildren)
include hroot hgrammar hnames hs

theorem spared_hoistBody (hspec : s.Specifies specifier name) (hb : b.Spared root s none old) :
    Keeps (Spared root s none old) b (hoistBody source root ScopeTree.globalId true) Anything := by
  rw [hoistBody_eq]
  refine .forM hb fun e he b₁ h₁ => ?_
  obtain ⟨c, hc, he⟩ := List.mem_flatMap.1 he
  by_cases hcs : c = s
  · subst hcs
    rw [statementVisits, if_pos (by rw [hspec.kind]; rfl), hoistVisits_of_export hspec.kind,
      hspec.declaration] at he
    obtain rfl := List.mem_singleton.1 he
    rw [hoistHere_of_not (by rw [hoistsHere, hspec.kind]; rfl)]
    exact .pure h₁.holds trivial
  · have hup : FileUpkeep source root (Apart root s none)
        (fun n => Apart root s none n ∧ ¬ root.Boxed n) (fun _ => True) (Spared root s none old) :=
      upkeep_spared hroot hgrammar hnames hs (by simp)
    exact hup.hoist.visit h₁.holds (hup.withinVisits (fun _ => Apart.of_top hroot hc hcs) he)

theorem spared_link (hwraps : ∀ d ∈ carried, s.Wraps d) {beside : List Node}
    (hbeside : ∀ c ∈ beside, c ∈ root.namedChildren ∧ c ≠ s) (hb : b.Spared root s carried old) :
    Keeps (Spared root s carried old) b
      (beside.forM fun c => statement source c ScopeTree.globalId none)
      fun _ b' => ∀ c ∈ beside, b'.HasCarried c := by
  refine .forM_each hb (fun _ _ _ hgrows h => h.mono hgrows) fun c hc b₁ h₁ => ?_
  obtain ⟨hmem, hne⟩ := hbeside c hc
  exact (upkeep_spared hroot hgrammar hnames hs hwraps).nest.statement c
    (Apart.of_top hroot hmem hne) b₁ _ _ h₁.holds fun _ => trivial

theorem spared_rest (hwraps : ∀ d ∈ carried, s.Wraps d) {b₁ b₂ : Builder}
    (haround : root.Around source s before after) (hb : b.Spared root s carried old)
    (hafter : after.forM (fun c => statement source c ScopeTree.globalId none) b = .ok ((), b₁))
    (henter : enterAll source root.entryBound b₁ = .ok ((), b₂))
    (hreturns : connectReturns b₂ = .ok ((), b')) :
    b.Later (Spared root s carried old) b' ∧ ∀ c ∈ after, b'.HasCarried c := by
  have hup : FileUpkeep source root (Apart root s carried)
      (fun n => Apart root s carried n ∧ ¬ root.Boxed n) (fun _ => True)
      (Spared root s carried old) := upkeep_spared hroot hgrammar hnames hs hwraps
  obtain ⟨h₁, hcarried⟩ := spared_link hroot hgrammar hnames hs hwraps
    (fun c hc => ⟨(haround.later c hc).1, (haround.later c hc).2.1⟩) hb () b₁ hafter
  have h₂ := (hup.enters.enterAll root.entryBound h₁.holds () b₂ henter).1
  have h₃ := (keeps_connectReturns h₂.holds hup.returns () b' hreturns).1
  have hlater := h₂.trans h₃
  exact ⟨h₁.trans hlater, fun c hc => (hcarried c hc).mono hlater.grows⟩

end Spared

theorem exists_carrier (hd : root.SoleBinder source d l) (hspec : s.Specifies specifier name) :
    ∃ c ∈ root.namedChildren, c ≠ s ∧ c.Carries d := by
  obtain ⟨c, hc, hcarries⟩ := hd.top
  refine ⟨c, hc, ?_, hcarries⟩
  rintro rfl
  rcases hcarries with rfl | ⟨-, hdeclaration⟩
  · exact hd.kind_ne hspec.kind
  · rw [hspec.declaration] at hdeclaration
    cases hdeclaration

/-- **When linking comes to a clause, a name is bound if its declaration is known there.** -/
theorem bound_before (hroot : root.WellSpaced) (hgrammar : root.Grammatical)
    (hpatterns : root.PatternsFit) (hd : root.SoleBinder source d l)
    (hspec : s.Specifies specifier name) (haround : root.Around source s before after)
    (hb : b.BoundBy d l (d.kind.form?.any Form.isHoisted) (d.kind.form?.any Form.isHoisted)) :
    Keeps (BoundBy d l (d.KnownAt s) (d.KnownAt s)) b
      (before.forM fun c => statement source c ScopeTree.globalId none) Anything := by
  have hcontains {c : Node} (hc : c ∈ root.namedChildren) (hmem : d ∈ c.nodes) :
      c.span.contains d.span :=
    hroot.laid.nested.contains (child_mem_nodes (mem_children_of_namedChildren hc)) hmem
  refine bound_link hgrammar hpatterns hd (fun c hc => (haround.earlier c hc).1) .inl
    (fun c hc hmem => .inr ?_) (fun hknown hhoisted => ?_) hb
  · -- What is linked before the clause ends before it, so a declaration in it starts before it.
    obtain ⟨hc, -, hstop⟩ := haround.earlier c hc
    have hne : d.span.Nonempty := hroot.statements d hd.mem_nodes (.inl (.inl hd.form))
    have hinside := hcontains hc hmem
    simp only [Span.contains_iff, Span.Nonempty] at hinside hne
    omega
  · -- What is linked after the clause starts no earlier, and so does all that lies in it.
    obtain ⟨c, hc, hne, hcarries⟩ := exists_carrier hd hspec
    refine ⟨c, (haround.mem_or_mem hc hne).resolve_right fun hlater => ?_, hcarries⟩
    have hstart := hknown.resolve_left hhoisted
    have hafter := (haround.later c hlater).2.2
    have hinside := hcontains hc hcarries.mem_nodes
    simp only [Span.contains_iff] at hinside
    omega

/-- **What a clause reads of a declaration**: when the file is resolved, the statement reads the
declaration by its name if it is known there, and otherwise uses nothing by this name. -/
theorem exists_reads_of_file {path : Path} {ambient : List String} (hroot : root.WellSpaced)
    (hgrammar : root.Grammatical) (hnames : root.NamesFit) (hpatterns : root.PatternsFit)
    (hs : s ∈ root.namedChildren) (hspec : s.Specifies specifier name)
    (htext : name.text? source = some l) (hd : root.SoleBinder source d l)
    (h : file source root (start path ambient) = .ok ((), b)) :
    ∃ u v, b.graph.vertexByKey? s.key = some u ∧ b.graph.vertexByKey? d.key = some v ∧
      (d.KnownAt s → ⟨u, v, .named .read l⟩ ∈ b.graph.edges) ∧
      ∀ e ∈ b.graph.edges, e.source = u → e.relation.kind.isUsage → e.relation.var = some l →
        d.KnownAt s ∧ e.target = v := by
  have hne : s.span.Nonempty :=
    hroot.statements s (child_mem_nodes (mem_children_of_namedChildren hs))
      (.inl (.inl (by rw [hspec.kind]; rfl)))
  obtain ⟨before, after, haround⟩ := exists_around source hroot.laid hs hne
  obtain ⟨b₁, b₂, b₃, b₄, b₅, hhoist, hbefore, hlink, hafter, henter, hreturns⟩ :=
    exists_of_file_ok haround.ordered h
  -- Up to the clause it uses nothing, and the name is bound if its declaration is known.
  have hspared₁ := (spared_hoistBody hroot hgrammar hnames hs hspec (.start root s path ambient)
    () b₁ hhoist).1
  have hbound₁ := (bound_hoistBody hgrammar hd (.start d l _ path ambient) () b₁ hhoist).1.holds
  obtain ⟨hspared₂, hcarried₂⟩ := spared_link hroot hgrammar hnames hs (by simp)
    (fun c hc => ⟨(haround.earlier c hc).1, (haround.earlier c hc).2.1⟩) hspared₁.holds () b₂
    hbefore
  obtain ⟨hbound₂, -⟩ :=
    bound_before hroot hgrammar hpatterns hd hspec haround hbound₁ () b₂ hbefore
  -- The clause reads what is bound, and nothing after it adds to that.
  obtain ⟨hspared₃, u, hu, hused, hread⟩ :=
    reads_of_statement hspec htext hroot hnames hs hspared₂.holds hlink
  obtain ⟨hrest, hcarried⟩ :=
    spared_rest hroot hgrammar hnames hs (by simp) haround hspared₃.holds hafter henter hreturns
  have hgrows : b₂.Grows b := hspared₃.grows.trans hrest.grows
  have hu' := hu.mono hrest.grows
  -- On whichever side of the clause it stands, the declaration has been linked in the end.
  obtain ⟨v, hv⟩ : ∃ v, b.StandsFor v d := by
    obtain ⟨c, hc, hcs, hcarries⟩ := exists_carrier hd hspec
    have hblock : d.kind.form? ≠ some .block := by
      intro hform
      have hbinds := hd.binds
      simp [boundNames, hform] at hbinds
    rcases haround.mem_or_mem hc hcs with hmem | hmem
    · exact ((hcarried₂ c hmem).mono hgrows) d hcarries hd.form hblock
    · exact hcarried c hmem d hcarries hd.form hblock
  have hkey := hrest.holds.vertexByKey?_eq hv
  have hbound {w : VertexId} (hw : b₂.scopes.declarationOf? ScopeTree.globalId l = some w) :
      d.KnownAt s ∧ w = v := by
    obtain ⟨hknown, hstands⟩ := hbound₂.holds.of_declarationOf? hw
    have hw' := hrest.holds.vertexByKey?_eq (hstands.mono hgrows)
    exact ⟨hknown, Option.some.inj (hw'.symm.trans hkey)⟩
  refine ⟨u, v, hrest.holds.vertexByKey?_eq hu', hkey, fun hknown => ?_,
    fun e he hsource husage hvar => ?_⟩
  · obtain ⟨w, hw⟩ := hbound₂.holds.exists_declarationOf? hknown
    obtain rfl : w = v := (hbound hw).2
    exact hrest.holds.kept _ (hread w hw)
  · have hold : e ∈ b₃.graph.edges :=
      (hrest.holds.old_iff (by rw [hsource]; exact hu') husage).1 he
    obtain ⟨found, hrelation, hfound⟩ := hused e hold hsource husage
    rw [hrelation] at hvar
    obtain rfl : found = l := Option.some.inj hvar
    exact hbound hfound

end Build

/-! ## The export of a listed name -/

namespace Export

variable {graph : StatementGraph} {u v : VertexId} {l : String}

/-- What an export statement reads by a local name, and by this name alone, produces the value. -/
theorem producerOf_of_reads (hread : ⟨u, v, .named .read l⟩ ∈ graph.edges)
    (hall : ∀ e ∈ graph.edges, e.source = u → e.relation.kind.isUsage → e.relation.var = some l →
      e.target = v) : producerOf graph u (some l) = v := by
  dsimp only [producerOf]
  cases hfound : (graph.outgoing u).find? fun e =>
      (e.relation.kind = .read || e.relation.kind = .call) && e.relation.var = some l with
  | none =>
    have hnot := List.find?_eq_none.1 hfound ⟨u, v, .named .read l⟩
      (by simpa [StatementGraph.outgoing] using hread)
    simp [Relation.named] at hnot
  | some e =>
    have hmem := List.mem_of_find?_eq_some hfound
    have hname := List.find?_some hfound
    simp only [StatementGraph.outgoing, List.mem_reverse, List.mem_filter, Array.mem_toList_iff,
      decide_eq_true_eq] at hmem
    simp only [Bool.and_eq_true, Bool.or_eq_true, decide_eq_true_eq] at hname
    refine hall e hmem.1 hmem.2 ?_ hname.2
    rcases hname.1 with hkind | hkind <;> rw [hkind] <;> rfl

theorem producerOf_of_not_reads
    (hnone : ∀ e ∈ graph.edges, e.source = u → e.relation.kind.isUsage → e.relation.var ≠ some l) :
    producerOf graph u (some l) = u := by
  dsimp only [producerOf]
  rw [List.find?_eq_none.2, Option.map_none, Option.getD_none]
  intro e hmem hname
  simp only [StatementGraph.outgoing, List.mem_reverse, List.mem_filter, Array.mem_toList_iff,
    decide_eq_true_eq] at hmem
  simp only [Bool.and_eq_true, Bool.or_eq_true, decide_eq_true_eq] at hname
  refine hnone e hmem.1 hmem.2 ?_ hname.2
  rcases hname.1 with hkind | hkind <;> rw [hkind] <;> rfl

end Export

namespace SourceModule

open Node

/-- **The export of a name that a clause lists.** If one declaration at the top of the file binds
the name and nothing else does so there, then the `export` statement reads the declaration if and
only if it is known at the clause. The declaration produces the export in that case, and the
`export` statement itself in the other. -/
theorem exists_listed_export (path : Path) (source : String) (language : Language)
    (ambient : List String) {root : Node} (hroot : root.WellSpaced) (hgrammar : root.Grammatical)
    (hnames : root.NamesFit) (hpatterns : root.PatternsFit) :
    ∃ m, ofTree path source language root ambient = .ok m ∧
      ∀ s l n d, s ∈ root.namedChildren → s.ListsAs source l n → root.SoleBinder source d l →
        ∃ u v, m.graph.vertexByKey? s.key = some u ∧ m.graph.vertexByKey? d.key = some v ∧ u ≠ v ∧
          (⟨u, v, .named .read l⟩ ∈ m.graph.edges ↔ d.KnownAt s) ∧
          { name := n, vertex := u, producer := if d.KnownAt s then v else u
            path := path.canonical, line := (s.location source).line, commonJs := false } ∈
              m.exports := by
  rcases Build.file_phases path source root ambient with
    ⟨error, -, hnot⟩ | ⟨-, -, b, -, -, -, -, hfile⟩
  · exact absurd hroot.laid.nested hnot
  rw [ofTree, build?_eq, hfile]
  refine ⟨_, rfl, fun s l n d hs hlists hd => ?_⟩
  have hmem := hlists.mem_statementExports
  obtain ⟨specifier, name, hspec, htext, -⟩ := hlists
  obtain ⟨u, v, hu, hv, hread, hall⟩ :=
    Build.exists_reads_of_file hroot hgrammar hnames hpatterns hs hspec htext hd hfile
  have hproducer : Export.producerOf b.graph u (some l) = if d.KnownAt s then v else u := by
    split
    · next hknown =>
      exact Export.producerOf_of_reads (hread hknown) fun e he hsource husage hvar =>
        (hall e he hsource husage hvar).2
    · next hunknown =>
      exact Export.producerOf_of_not_reads fun e he hsource husage hvar =>
        hunknown (hall e he hsource husage hvar).1
  refine ⟨u, v, hu, hv, ?_, ⟨fun he => (hall _ he rfl rfl rfl).1, hread⟩, ?_⟩
  · -- One statement of the graph cannot be both, since its identity has a kind.
    rintro rfl
    obtain ⟨x, hx, hkey⟩ := StatementGraph.exists_of_vertexByKey? hu
    obtain ⟨y, hy, hkey'⟩ := StatementGraph.exists_of_vertexByKey? hv
    obtain rfl : x = y := Option.some.inj (hx.symm.trans hy)
    have hkind : d.kind = s.kind := congrArg Key.kind (hkey'.symm.trans hkey)
    exact hd.kind_ne (hkind.trans hspec.kind)
  · refine List.mem_flatMap.2 ⟨s, hs, ?_⟩
    rw [Export.ofStatement, hu, hspec.kind]
    refine List.mem_map.2 ⟨(n, some l), hmem, ?_⟩
    rw [← hproducer]

/-- The name `a` in `export { a as b };` at an offset. -/
def listedName (start : Nat) : Node :=
  .part .name (.of .identifier (start + 9) (start + 10))

/-- The part `a as b` in `export { a as b };` at an offset. -/
def listedPart (start : Nat) : Node :=
  .of (.other "export_specifier") (start + 9) (start + 15)
    [listedName start, .token "as" (start + 11) (start + 13),
     .part .aliased (.of .identifier (start + 14) (start + 15))]

/-- The statement `export { a as b };` at an offset. -/
def clauseStatement (start : Nat) : Node :=
  .of .exportStatement start (start + 18)
    [.token "export" start (start + 6),
     .of .exportClause (start + 7) (start + 17)
       [.token "\x7b" (start + 7) (start + 8), listedPart start,
        .token "\x7d" (start + 16) (start + 17)], .token ";" (start + 17) (start + 18)]

theorem clauseStatement_specifies (start : Nat) :
    (clauseStatement start).Specifies (listedPart start) (listedName start) :=
  ⟨rfl, rfl, rfl, rfl, ⟨_, List.mem_cons_self, rfl, List.mem_cons_self⟩, rfl, rfl, rfl, rfl⟩

/-- The statement `const a = 1;` after a clause. -/
def constantDeclaration : Node :=
  .of .lexicalDeclaration 19 31
    [.part .kind (.token "const" 19 24),
     .of .variableDeclarator 25 30
       [.part .name (.of .identifier 25 26), .token "=" 27 28,
        .part .value (.of .numberLiteral 29 30)], .token ";" 30 31]

/-- A constant between two clauses that list it. -/
def listedTwiceText : String :=
  "export \x7b a as b \x7d;\nconst a = 1;\nexport \x7b a as c \x7d;"

/-- The tree of `listedTwiceText`. -/
def listedTwiceFile : Node :=
  .of (.other "program") 0 50 [clauseStatement 0, constantDeclaration, clauseStatement 32]

/-- The constant produces the export of the clause after it, but not that of the one before it. -/
theorem exists_listed_export_listedTwice :
    listedTwiceFile.WellSpaced ∧ listedTwiceFile.Grammatical ∧ listedTwiceFile.NamesFit ∧
      listedTwiceFile.PatternsFit ∧ ∃ m,
        ofTree ⟨"/app/lib.js"⟩ listedTwiceText .javaScript listedTwiceFile
          ScopeTree.defaultAmbient = .ok m ∧
        ∃ u v w, m.graph.vertexByKey? constantDeclaration.key = some v ∧ u ≠ v ∧
          ⟨u, v, .named .read "a"⟩ ∉ m.graph.edges ∧
          ⟨"b", u, u, ⟨"/app/lib"⟩, 1, false⟩ ∈ m.exports ∧
          ⟨w, v, .named .read "a"⟩ ∈ m.graph.edges ∧
          ⟨"c", w, v, ⟨"/app/lib"⟩, 3, false⟩ ∈ m.exports := by
  have hfile : listedTwiceFile.WellSpaced ∧ listedTwiceFile.Grammatical ∧ listedTwiceFile.NamesFit ∧
      listedTwiceFile.PatternsFit := by decide +kernel
  obtain ⟨hroot, hgrammar, hnames, hpatterns⟩ := hfile
  refine ⟨hroot, hgrammar, hnames, hpatterns, ?_⟩
  obtain ⟨m, hm, h⟩ := exists_listed_export ⟨"/app/lib.js"⟩ listedTwiceText .javaScript
    ScopeTree.defaultAmbient hroot hgrammar hnames hpatterns
  have hd : listedTwiceFile.SoleBinder listedTwiceText constantDeclaration "a" :=
    .of_key_eq hroot (List.mem_cons_of_mem _ List.mem_cons_self) (.inl rfl) (by decide +kernel)
      (by decide +kernel)
  have hb : (clauseStatement 0).ListsAs listedTwiceText "a" "b" :=
    ⟨_, _, clauseStatement_specifies 0, by decide +kernel⟩
  have hc : (clauseStatement 32).ListsAs listedTwiceText "a" "c" :=
    ⟨_, _, clauseStatement_specifies 32, by decide +kernel⟩
  obtain ⟨u, v, -, hv, hne, hedge, hexport⟩ := h _ _ _ _ List.mem_cons_self hb hd
  obtain ⟨w, v', -, hv', -, hedge', hexport'⟩ := h _ _ _ _
    (List.mem_cons_of_mem _ (List.mem_cons_of_mem _ List.mem_cons_self)) hc hd
  obtain rfl : v = v' := Option.some.inj (hv.symm.trans hv')
  have hunknown : ¬ constantDeclaration.KnownAt (clauseStatement 0) := by decide
  have hknown : constantDeclaration.KnownAt (clauseStatement 32) := by decide
  rw [if_neg hunknown] at hexport
  rw [if_pos hknown] at hexport'
  have hplaces : (Path.canonical ⟨"/app/lib.js"⟩ = ⟨"/app/lib"⟩ ∧
      ((clauseStatement 0).location listedTwiceText).line = 1 ∧
      ((clauseStatement 32).location listedTwiceText).line = 3) := by decide +kernel
  obtain ⟨hpath, hfirst, hthird⟩ := hplaces
  rw [hpath, hfirst] at hexport
  rw [hpath, hthird] at hexport'
  exact ⟨m, hm, u, v, w, hv, hne, fun he => hunknown (hedge.1 he), hexport, hedge'.2 hknown,
    hexport'⟩

/-- A clause before the constant that it lists. -/
def clauseFirstText : String :=
  "export \x7b a as b \x7d;\nconst a = 1;"

/-- The tree of `clauseFirstText`. -/
def clauseFirstFile : Node :=
  .of (.other "program") 0 31 [clauseStatement 0, constantDeclaration]

/-- **The place of a clause matters**: where the clause stands before the constant, the `export`
statement is said to produce the export, and nothing reads the constant. -/
theorem clauseFirst_produces_itself :
    (clauseStatement 0).ListsAs clauseFirstText "a" "b" ∧
      clauseFirstFile.SoleBinder clauseFirstText constantDeclaration "a" ∧ ∃ m,
        ofTree ⟨"/app/index.js"⟩ clauseFirstText .javaScript clauseFirstFile
          ScopeTree.defaultAmbient = .ok m ∧
        m.graph.vertexByKey? (clauseStatement 0).key = some 0 ∧
        m.graph.vertexByKey? constantDeclaration.key = some 1 ∧
        m.exports = [⟨"b", 0, 0, ⟨"/app/index"⟩, 1, false⟩] ∧ m.graph.incoming 1 = [] := by
  refine ⟨⟨_, _, clauseStatement_specifies 0, by decide +kernel⟩, ?_, ?_⟩
  · exact .of_key_eq (by decide +kernel) (List.mem_cons_of_mem _ List.mem_cons_self) (.inl rfl)
      (by decide +kernel) (by decide +kernel)
  exact exists_ok_of_decide (by decide +kernel)

end SourceModule

end DeadCode
