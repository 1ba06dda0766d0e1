import DeadCode.Proofs.Module.Basic
import DeadCode.Proofs.Module.ExportClauses

/-! # The exports of a declaration

An `export` statement with a declaration exports the names that the declaration binds, or one of
them as `default`. When it is linked, it reads the declaration by each of these names, and nothing
else in the file relates it to what it uses: what is in the declaration belongs to the declaration.
So the declaration produces all of these exports. -/

namespace DeadCode

/-- Whether statements of a form declare functions, classes or variables. -/
def Form.bindsNames : Form → Bool
  | functionDecl | classDecl | lexicalDecl | varDecl => true
  | _ => false

theorem Form.isDeclaration_of_bindsNames {form : Form} (h : form.bindsNames) :
    form.isDeclaration := by
  cases form <;> first | rfl | cases h

namespace Node

variable {source : String} {s d : Node}

/-- A declaration that binds names exports these. -/
theorem declarationNames_eq {form : Form} (hform : d.kind.form? = some form)
    (hbinds : form.bindsNames) : d.declarationNames source = d.boundNames source := by
  unfold declarationNames boundNames
  cases hkind : d.kind <;> rw [hkind] at hform <;> cases hform <;> first | rfl | cases hbinds

/-- Whether an `export` statement exports a default. -/
def isDefault (s : Node) : Bool :=
  s.children.any (·.kind = .defaultToken)

/-- The exports of a statement that wraps a declaration. -/
theorem Wraps.statementExports_eq (h : s.Wraps d) {form : Form} (hform : d.kind.form? = some form)
    (hbinds : form.bindsNames) :
    s.statementExports source =
      if s.isDefault then [("default", (d.boundNames source).head?)]
      else (d.boundNames source).map fun name => (name, some name) := by
  rw [statementExports, h.2]
  dsimp only
  rw [declarationNames_eq hform hbinds]
  rfl

end Node

namespace Builder

open Node

variable {root s d : Node} {old : Edge → Prop} {b : Builder} {u v : VertexId}

/-- **An `export` statement uses its declaration, by each name that it binds, and nothing else.** -/
def Exporting (source : String) (root s d : Node) (b : Builder) : Prop :=
  ∃ u v, b.StandsFor u s ∧ b.StandsFor v d ∧ b.Spared root s (some d) fun e =>
    ∃ name ∈ d.boundNames source, e = ⟨u, v, .named .read name⟩

/-- An `export` statement uses nothing yet, and its declaration may be in the graph or not. -/
def Pending (root s d : Node) (b : Builder) : Prop :=
  b.Spared root s none (fun _ => False) ∨ b.Spared root s (some d) fun _ => False

/-- A declaration with a statement is carried. -/
theorem Pending.carry (h : b.Pending root s d) (hv : b.StandsFor v d) :
    b.Spared root s (some d) fun _ => False := by
  rcases h with h | h
  · exact { h with
      present := by simpa using ⟨v, hv⟩
      callables := fun entry hentry => .inl (h.callables entry hentry).of_none }
  · exact h

theorem Pending.addVertex (h : b.Pending root s d) {n : Node} {x : Vertex} (hn : n ∈ root.nodes)
    (hplaced : root.Placed n) (hkey : x.key = n.key) :
    Pending root s d { b with graph := (b.graph.addVertex x).2 } :=
  h.imp (·.addVertex hn hplaced hkey) (·.addVertex hn hplaced hkey)

end Builder

namespace Build

open Builder Node

variable {source : String} {root s d : Node} {carried : Option Node} {old : Edge → Prop}
  {b b' : Builder} {u v : VertexId}

/-! ## The run around a declaration -/

/-- The reads of an export are the only edges it adds. -/
theorem spared_reads (names : List String) (hb : b.Spared root s carried old)
    (hu : b.StandsFor u s) :
    Keeps (Spared root s carried fun e =>
        old e ∨ ∃ name ∈ names, e = ⟨u, v, .named .read name⟩) b
      (names.forM fun name => connect u v (.named .read name)) Anything := by
  induction names generalizing b old with
  | nil =>
    have hnone : Keeps (Spared root s carried old) b (pure ()) Anything := .pure hb trivial
    simpa using hnone
  | cons name rest ih =>
    rw [List.forM_eq_forM, List.forM_cons]
    have hfirst : Keeps (Spared root s carried fun e => old e ∨ e = ⟨u, v, .named .read name⟩) b
        (connect u v (.named .read name)) Anything :=
      .of_connect fun id graph hconnect =>
        hb.relate hconnect (fun _ => .inl) (fun _ he => he) fun _ _ => .inr rfl
    refine hfirst.turn fun _ b₁ h₁ _ => ?_
    simpa [or_assoc] using ih h₁.holds (hu.mono h₁.grows)

section Exporting

variable (hroot : root.WellSpaced) (hgrammar : root.Grammatical) (hnames : root.NamesFit)
  (hs : s ∈ root.namedChildren) (hwraps : s.Wraps d)
include hroot hs hwraps

theorem spared_statementVertex (hb : b.Pending root s d) (scope : ScopeId) :
    Keeps (Spared root s (some d) fun _ => False) b (statementVertex source d scope)
      fun v b' => b'.StandsFor v d := by
  have hsmem : s ∈ root.nodes := child_mem_nodes (mem_children_of_namedChildren hs)
  have hdmem : d ∈ root.nodes := mem_nodes_trans (child_mem_nodes hwraps.mem_children) hsmem
  refine (Keeps.of_addVertex ?_).imp fun _ _ _ hv => hv.2
  exact (hb.addVertex hdmem (hwraps.placed hroot hsmem) rfl).carry
    ⟨_, (b.graph.vertex?_addVertex _).choose_spec⟩

theorem apart_carried : Apart root s (some d) d ∧ ¬ root.Boxed d :=
  ⟨.inr ⟨d, rfl, self_mem_nodes d⟩,
    (hwraps.placed hroot (child_mem_nodes (mem_children_of_namedChildren hs))).2⟩

include hgrammar hnames

/-- Hoisting what the `export` statement declares may bring its declaration into the graph. -/
theorem pending_hoistBody {form : Form} (hform : d.kind.form? = some form)
    (hbinds : form.bindsNames) (hb : b.Pending root s d) :
    Keeps (Pending root s d) b (hoistBody source root ScopeTree.globalId true) Anything := by
  have hcarried : FileUpkeep source root (Apart root s (some d))
      (fun n => Apart root s (some d) n ∧ ¬ root.Boxed n) (fun _ => True)
      (Spared root s (some d) fun _ => False) :=
    upkeep_spared hroot hgrammar hnames hs (by simpa using hwraps)
  have halone : FileUpkeep source root (Apart root s none)
      (fun n => Apart root s none n ∧ ¬ root.Boxed n) (fun _ => True)
      (Spared root s none fun _ => False) :=
    upkeep_spared hroot hgrammar hnames hs (by simp)
  have hd := apart_carried hroot hs hwraps
  have hplain : d.kind.holdsStatements = false := by
    cases form <;> simp_all [Form.bindsNames, Kind.holdsStatements, Kind.isCompound]
  rw [hoistBody_eq]
  refine .forM hb fun e he b₁ h₁ => ?_
  obtain ⟨c, hc, he⟩ := List.mem_flatMap.1 he
  by_cases hcs : c = s
  · subst hcs
    rw [statementVisits, if_pos (by rw [hwraps.1]; rfl), hoistVisits_of_export hwraps.1,
      hwraps.2, Option.toList_some, List.flatMap_singleton, statementVisits,
      if_pos (by rw [hform]; rfl), hoistVisits_of_plain hplain] at he
    rcases List.mem_cons.1 he with rfl | he
    · rw [hoistHere_of_not (by rw [hoistsHere, hwraps.1]; rfl)]
      exact .pure h₁.holds trivial
    · obtain rfl := List.mem_singleton.1 he
      by_cases hhere : d.hoistsHere source true
      · exact (hcarried.hoistHere hd hhere
          (spared_statementVertex hroot hs hwraps h₁.holds _)).weaken fun _ => .inr
      · rw [hoistHere_of_not (by simpa using hhere)]
        exact .pure h₁.holds trivial
  · rcases h₁.holds with h | h
    · exact (halone.hoist.visit h (halone.withinVisits (fun _ => Apart.of_top hroot hc hcs)
        he)).weaken fun _ => .inl
    · exact (hcarried.hoist.visit h (hcarried.withinVisits (fun _ => Apart.of_top hroot hc hcs)
        he)).weaken fun _ => .inr

/-- The statements beside an export leave it pending. -/
theorem pending_link {beside : List Node} (hbeside : ∀ c ∈ beside, c ∈ root.namedChildren ∧ c ≠ s)
    (hb : b.Pending root s d) :
    Keeps (Pending root s d) b (beside.forM fun c => statement source c ScopeTree.globalId none)
      Anything := by
  rcases hb with hb | hb
  · exact ((spared_link hroot hgrammar hnames hs (by simp) hbeside hb).weaken fun _ => .inl).anything
  · exact ((spared_link hroot hgrammar hnames hs (by simpa using hwraps) hbeside hb).weaken
      fun _ => .inr).anything

/-- **Linking the `export` statement**: it reads its declaration by each name. -/
theorem exporting_statement {form : Form} (hform : d.kind.form? = some form)
    (hbinds : form.bindsNames) (hb : b.Pending root s d) :
    Keeps (Exporting source root s d) b (statement source s ScopeTree.globalId none) Anything := by
  have hup : FileUpkeep source root (Apart root s (some d))
      (fun n => Apart root s (some d) n ∧ ¬ root.Boxed n) (fun _ => True)
      (Spared root s (some d) fun _ => False) :=
    upkeep_spared hroot hgrammar hnames hs (by simpa using hwraps)
  have hsmem : s ∈ root.nodes := child_mem_nodes (mem_children_of_namedChildren hs)
  have hplaced : root.Placed s := placed_of_kind (.inl hwraps.ownable) (by rw [hwraps.1]; decide)
  rw [statement, hwraps.1]
  have hown : Keeps (Pending root s d) b (statementVertex source s ScopeTree.globalId)
      fun u b' => b'.StandsFor u s :=
    (Keeps.of_addVertex (hb.addVertex hsmem hplaced rfl)).imp fun _ _ _ hu => hu.2
  refine hown.turn fun u b₁ h₁ hu => ?_
  refine Keeps.turn (.pure h₁.holds trivial : Keeps (Pending root s d) b₁ _ Anything)
    fun _ b₂ h₂ _ => ?_
  refine .withChild (fun c hc _ => ?_) fun hnone => ?_
  · obtain rfl : d = c := Option.some.inj (hwraps.2.symm.trans hc)
    have hdeclared := hup.declaration (apart_carried hroot hs hwraps) (fun _ => trivial) hform
      (Form.isDeclaration_of_bindsNames hbinds)
      (spared_statementVertex hroot hs hwraps h₂.holds ScopeTree.globalId) (some u)
    refine hdeclared.turn fun _ b₃ h₃ _ => ?_
    refine (spared_statementVertex hroot hs hwraps (.inr h₃.holds) _).turn fun v b₄ h₄ hv => ?_
    have hu₄ := hu.mono (h₂.grows.trans (h₃.grows.trans h₄.grows))
    intro _ b₅ hrun
    have h₅ := (spared_reads _ h₄.holds hu₄ () b₅ hrun).1
    refine ⟨⟨h₅.grows, u, v, hu₄.mono h₅.grows, hv.mono h₅.grows, ?_⟩, trivial⟩
    simpa using h₅.holds
  · rw [hwraps.2] at hnone
    cases hnone

/-- **In every file an `export` statement uses its declaration**, by each name that it binds, and
nothing else. -/
theorem exporting_of_file {path : Path} {ambient : List String} {form : Form}
    (hform : d.kind.form? = some form) (hbinds : form.bindsNames)
    (h : file source root (start path ambient) = .ok ((), b)) : b.Exporting source root s d := by
  have hne := hwraps.nonempty hroot (child_mem_nodes (mem_children_of_namedChildren hs))
  obtain ⟨before, after, haround⟩ := exists_around source hroot.laid hs hne
  obtain ⟨b₁, b₂, b₃, b₄, b₅, hhoist, hbefore, hlink, hafter, henter, hreturns⟩ :=
    exists_of_file_ok haround.ordered h
  have h₁ := (pending_hoistBody hroot hgrammar hnames hs hwraps hform hbinds
    (.inl (.start root s path ambient)) () b₁ hhoist).1
  have h₂ := (pending_link hroot hgrammar hnames hs hwraps
    (fun c hc => ⟨(haround.earlier c hc).1, (haround.earlier c hc).2.1⟩) h₁.holds () b₂ hbefore).1
  obtain ⟨u, v, hu, hv, h₃⟩ := (exporting_statement hroot hgrammar hnames hs hwraps hform hbinds
    h₂.holds () b₃ hlink).1.holds
  have hrest := (spared_rest hroot hgrammar hnames hs (by simpa using hwraps) haround h₃ hafter
    henter hreturns).1
  exact ⟨u, v, hu.mono hrest.grows, hv.mono hrest.grows, hrest.holds⟩

end Exporting

end Build

/-! ## The exports -/

namespace Export

open Node

variable {source : String} {path : Path} {root s : Node} {graph : StatementGraph} {u : VertexId}

/-- **The exports of a statement stand together** among those of the file. -/
theorem filter_ofFile (hlaid : root.LaidOut) (hs : s ∈ root.namedChildren)
    (hne : s.span.Nonempty) (hu : graph.vertexByKey? s.key = some u) :
    (ofFile source path root graph).filter (·.vertex = u) = ofStatement source path graph s := by
  obtain ⟨before, after, hsplit⟩ := List.append_of_mem hs
  have hordered : root.namedChildren.Pairwise fun a b => a.span.stop ≤ b.span.start :=
    (hlaid.ordered root (self_mem_nodes root)).sublist List.filter_sublist
  rw [hsplit, List.pairwise_append, List.pairwise_cons] at hordered
  obtain ⟨-, ⟨hafter, -⟩, hbefore⟩ := hordered
  -- The other statements have other ranges, so they are other vertices of the graph.
  have hother (c : Node) (hc : c ∈ before ∨ c ∈ after) :
      (ofStatement source path graph c).filter (·.vertex = u) = [] := by
    refine List.filter_eq_nil_iff.2 fun e he hvertex => ?_
    have hkey := vertex_of_mem_ofStatement he
    rw [of_decide_eq_true hvertex] at hkey
    obtain ⟨x, hx, hxkey⟩ := StatementGraph.exists_of_vertexByKey? hu
    obtain ⟨y, hy, hykey⟩ := StatementGraph.exists_of_vertexByKey? hkey
    obtain rfl : x = y := Option.some.inj (hx.symm.trans hy)
    have hspan : s.span = c.span := congrArg Key.span (hxkey.symm.trans hykey)
    have hapart := hc.imp (fun hc => hbefore c hc s List.mem_cons_self) fun hc => hafter c hc
    rw [← hspan] at hapart
    unfold Span.Nonempty at hne
    omega
  have hown : (ofStatement source path graph s).filter (·.vertex = u) =
      ofStatement source path graph s := by
    refine List.filter_eq_self.2 fun e he => decide_eq_true ?_
    exact Option.some.inj ((vertex_of_mem_ofStatement he).symm.trans hu)
  rw [ofFile, hsplit, List.flatMap_append, List.flatMap_cons, List.filter_append, List.filter_append,
    List.filter_flatMap, List.filter_flatMap, hown,
    List.flatMap_eq_nil_iff.2 fun c hc => hother c (.inl hc),
    List.flatMap_eq_nil_iff.2 fun c hc => hother c (.inr hc), List.nil_append, List.append_nil]

end Export

namespace SourceModule

open Node

/-- **The exports of a declaration.** An `export` statement with a declaration of a function, of a
class or of variables exports the names that the declaration binds, in their order, or one of them
as `default`. The declaration produces each of these exports. -/
theorem exists_exported_names (path : Path) (source : String) (language : Language)
    (ambient : List String) {root : Node} (hroot : root.WellSpaced) (hgrammar : root.Grammatical)
    (hnames : root.NamesFit) :
    ∃ m, ofTree path source language root ambient = .ok m ∧
      ∀ s d form, s ∈ root.namedChildren → s.Wraps d → d.kind.form? = some form →
        form.bindsNames → (s.isDefault → d.boundNames source ≠ []) →
        ∃ u v, m.graph.vertexByKey? s.key = some u ∧ m.graph.vertexByKey? d.key = some v ∧ u ≠ v ∧
          m.exports.filter (·.vertex = u) =
            (if s.isDefault then ["default"] else d.boundNames source).map fun name =>
              { name, vertex := u, producer := v, path := path.canonical
                line := (s.location source).line, commonJs := false } := by
  rcases Build.file_phases path source root ambient with
    ⟨error, -, hnot⟩ | ⟨-, -, b, -, -, -, -, hfile⟩
  · exact absurd hroot.laid.nested hnot
  rw [ofTree, build?_eq, hfile]
  refine ⟨_, rfl, fun s d form hs hwraps hform hbinds hdefault => ?_⟩
  obtain ⟨u, v, hu, hv, hb⟩ :=
    Build.exporting_of_file hroot hgrammar hnames hs hwraps hform hbinds hfile
  have hukey := hb.vertexByKey?_eq hu
  have hvkey := hb.vertexByKey?_eq hv
  have hne := hwraps.nonempty hroot (child_mem_nodes (mem_children_of_namedChildren hs))
  refine ⟨u, v, hukey, hvkey, ?_, (Export.filter_ofFile hroot.laid hs hne hukey).trans ?_⟩
  · -- One statement of the graph cannot be both, since its identity has a kind.
    rintro rfl
    obtain ⟨x, hx, hkey⟩ := hu
    obtain ⟨y, hy, hkey'⟩ := hv
    obtain rfl : x = y := Option.some.inj (hx.symm.trans hy)
    have hkind : d.kind = s.kind := congrArg Key.kind (hkey'.symm.trans hkey)
    rw [hkind, hwraps.1] at hform
    cases hform
    cases hbinds
  · have hproducer {name : String} (hname : name ∈ d.boundNames source) :
        Export.producerOf b.graph u (some name) = v := by
      refine Export.producerOf_of_reads (hb.kept _ ⟨name, hname, rfl⟩) fun e he hsource husage _ => ?_
      obtain ⟨_, -, rfl⟩ := (hb.old_iff (by rw [hsource]; exact hu) husage).1 he
      rfl
    rw [Export.ofStatement, hukey, hwraps.1]
    dsimp only
    rw [hwraps.statementExports_eq hform hbinds]
    split
    · next hdef =>
      obtain ⟨name, rest, hnames⟩ := List.exists_cons_of_ne_nil (hdefault hdef)
      have hfirst : name ∈ d.boundNames source := by simp [hnames]
      simp [hnames, hproducer hfirst]
    · rw [List.map_map]
      exact List.map_congr_left fun name hname => by simp [hproducer hname]

/-- The declaration `const { a, b } = o;` after `export`. -/
def exportedConstants : Node :=
  .part .declaration (.of .lexicalDeclaration 7 26
    [.part .kind (.token "const" 7 12),
     .of .variableDeclarator 13 25
       [.part .name (.of .objectPattern 13 21
          [.token "\x7b" 13 14, .of .shorthandPropertyIdentifierPattern 15 16, .token "," 16 17,
           .of .shorthandPropertyIdentifierPattern 18 19, .token "\x7d" 20 21]), .token "=" 22 23,
        .part .value (.of .identifier 24 25)], .token ";" 25 26])

/-- The declaration `function f() { }` after `export default`. -/
def exportedFunction : Node :=
  .part .declaration (.of .functionDeclaration 42 58
    [.keyword .functionLiteral 42 50, .part .name (.of .identifier 51 52),
     .part .parameters (.of .formalParameters 52 54 [.token "(" 52 53, .token ")" 53 54]),
     .part .body (.of .statementBlock 55 58 [.token "\x7b" 55 56, .token "\x7d" 57 58])])

/-- The statement that exports the constants by their names. -/
def namedExport : Node :=
  .of .exportStatement 0 26 [.token "export" 0 6, exportedConstants]

/-- The statement that exports the function as the default. -/
def defaultExport : Node :=
  .of .exportStatement 27 58 [.token "export" 27 33, .keyword .defaultToken 34 41, exportedFunction]

/-- A file with both. -/
def declaringText : String :=
  "export const \x7b a, b \x7d = o;\nexport default function f() \x7b \x7d"

/-- The tree of `declaringText`. -/
def declaringFile : Node :=
  .of (.other "program") 0 58 [namedExport, defaultExport]

/-- Both names of the pattern are exported, and the function as the default. -/
theorem exists_exported_names_declaringFile :
    declaringFile.WellSpaced ∧ declaringFile.Grammatical ∧ declaringFile.NamesFit ∧ ∃ m,
      ofTree ⟨"/app/lib.js"⟩ declaringText .javaScript declaringFile
        ScopeTree.defaultAmbient = .ok m ∧
      ∃ s d t f, m.graph.vertexByKey? exportedConstants.key = some d ∧
        m.graph.vertexByKey? exportedFunction.key = some f ∧ s ≠ d ∧ t ≠ f ∧
        m.exports.filter (·.vertex = s) =
          [⟨"a", s, d, ⟨"/app/lib"⟩, 1, false⟩, ⟨"b", s, d, ⟨"/app/lib"⟩, 1, false⟩] ∧
        m.exports.filter (·.vertex = t) = [⟨"default", t, f, ⟨"/app/lib"⟩, 2, false⟩] := by
  have hfile : declaringFile.WellSpaced ∧ declaringFile.Grammatical ∧ declaringFile.NamesFit := by
    decide +kernel
  obtain ⟨hroot, hgrammar, hnames⟩ := hfile
  refine ⟨hroot, hgrammar, hnames, ?_⟩
  obtain ⟨m, hm, h⟩ := exists_exported_names ⟨"/app/lib.js"⟩ declaringText .javaScript
    ScopeTree.defaultAmbient hroot hgrammar hnames
  have hbound : exportedConstants.boundNames declaringText = ["a", "b"] ∧
      exportedFunction.boundNames declaringText = ["f"] := by decide +kernel
  have hplaces : Path.canonical ⟨"/app/lib.js"⟩ = ⟨"/app/lib"⟩ ∧
      (namedExport.location declaringText).line = 1 ∧
      (defaultExport.location declaringText).line = 2 := by decide +kernel
  obtain ⟨hpath, hfirst, hsecond⟩ := hplaces
  obtain ⟨s, d, -, hd, hsd, hconstants⟩ := h namedExport exportedConstants .lexicalDecl
    List.mem_cons_self ⟨rfl, rfl⟩ rfl rfl (by decide)
  obtain ⟨t, f, -, hf, htf, hfunction⟩ := h defaultExport exportedFunction .functionDecl
    (List.mem_cons_of_mem _ List.mem_cons_self) ⟨rfl, rfl⟩ rfl rfl (by simp [hbound.2])
  have hnamed : namedExport.isDefault = false := by decide
  have hdefault : defaultExport.isDefault = true := by decide
  rw [hnamed, hbound.1, hpath, hfirst] at hconstants
  rw [hdefault, hpath, hsecond] at hfunction
  exact ⟨m, hm, s, d, t, f, hd, hf, hsd, htf, hconstants, hfunction⟩

end SourceModule

end DeadCode
