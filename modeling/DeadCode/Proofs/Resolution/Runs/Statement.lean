import DeadCode.Proofs.Resolution.Runs.Expression
import DeadCode.Proofs.Resolution.Statement

/-! # The leaves of a statement are met

Linking a statement meets all its leaves, and the scopes it adds have places in the text: those of
blocks, branches, cases and loops. -/

namespace DeadCode

open Node

namespace Trace

/-! ## Statements in their places -/

/-- A statement stands in the place of a scope, and the functions of all scopes were hoisted. -/
structure Standing (source : String) (root : Node) (w : Trace) (scope : ScopeId) (n : Node) :
    Prop where
  calm : w.Calm source
  lt : scope < w.builder.scopes.size
  mem : n ∈ root.nodes
  held : ∃ p, w.places[scope]? = some p ∧ p.Holds n

/-- A statement is being linked: it is in the graph. -/
structure Linking (source : String) (root : Node) (w : Trace) (scope : ScopeId) (n : Node)
    (vertex : VertexId) : Prop extends w.Standing source root scope n where
  vertex : w.builder.StandsFor vertex n

variable {source : String} {root n c : Node} {w w' : Trace} {scope : ScopeId} {vertex : VertexId}
  {during : Option Node}

theorem Standing.mono (h : w.Standing source root scope n) (hw : w.Extends w')
    (hcalm : w'.Calm source) : w'.Standing source root scope n where
  calm := hcalm
  lt := Nat.lt_of_lt_of_le h.lt hw.size_le
  mem := h.mem
  held := by
    obtain ⟨p, hp, hholds⟩ := h.held
    exact ⟨p, hw.place hp, hholds⟩

theorem Standing.after (h : w.Standing source root scope n) (hw : w.Leads source root w') :
    w'.Standing source root scope n :=
  h.mono hw.grows (hw.calm h.calm)

theorem Standing.reached (h : w.Standing source root scope n) :
    w.At scope (.ofStatement n.kind) n := by
  obtain ⟨p, hp, hholds⟩ := h.held
  exact ⟨p, hp, hholds.along⟩

/-- A statement that is exported or has a label stands where the export or the label does. -/
theorem Standing.inner (h : w.Standing source root scope n)
    (hkind : n.kind = .exportStatement ∨ n.kind = .labeledStatement) (hc : c ∈ n.children) :
    w.Standing source root scope c where
  calm := h.calm
  lt := h.lt
  mem := mem_nodes_trans (child_mem_nodes hc) h.mem
  held := by
    obtain ⟨p, hp, hholds⟩ := h.held
    exact ⟨p, hp, hholds.inner hkind hc⟩

namespace Linking

theorem after (h : w.Linking source root scope n vertex) (hw : w.Leads source root w') :
    w'.Linking source root scope n vertex :=
  { h.toStanding.after hw with vertex := h.vertex.mono hw.grows.grows }

theorem visits (h : w.Linking source root scope n vertex) (hnested : root.Nested) :
    w.Visits source root scope (some n) (.ofStatement n.kind) n where
  mem := h.mem
  reached := h.reached
  opened := h.calm.opened h.lt fun s hs => by
    cases hs
    exact ⟨vertex, h.vertex⟩
  covered := by
    have hholds : w.builder.Holds root vertex n := h.vertex.holds
    exact hholds.covers hnested

end Linking

theorem Visits.inside (h : w.Visits source root scope during (.ofStatement n.kind) n)
    (hnested : root.Nested) (hkind : n.kind.holdsStatements) (hc : c ∈ n.children) :
    w.Visits source root scope during (.ofStatement c.kind) c := by
  rw [Visit.ofStatement_eq_link hkind] at h
  rw [← Visit.below_link hkind]
  exact h.child hnested (Visit.defers_link hkind) hc

theorem Visits.header (h : w.Visits source root scope during (.ofStatement n.kind) n)
    (hnested : root.Nested) (hroot : root.Grammatical) (hkind : n.kind.holdsStatements)
    (hc : c ∈ n.children) (hfield : c.field.any Field.isHeader) :
    w.Visits source root scope during .resolve c := by
  have hcompound : ¬ c.kind.isCompound :=
    (hroot n h.mem).header (Kind.isCompound_of_holdsStatements hkind) c hc hfield
  have hv := h.inside hnested hkind hc
  rwa [Visit.ofStatement, if_neg hcompound] at hv

theorem Visits.inScope {visit : Visit} {inner : ScopeId}
    (h : w.Visits source root scope during visit n) (hcalm : w.Calm source)
    (hlt : inner < w.builder.scopes.size) (hat : w.At inner visit n) :
    w.Visits source root inner during visit n where
  mem := h.mem
  reached := hat
  opened := hcalm.opened hlt h.opened.during
  covered := h.covered

end Trace

namespace Build

open Trace

/-- **A statement binds the names that it declares.** -/
theorem binds_introduced {source : String} {root n : Node} {w : Trace} {scope : ScopeId}
    {vertex : VertexId} {binding : Binding} {hoist : Hoist}
    (h : w.Linking source root scope n vertex) (hname : n.Introduces source binding.name hoist)
    (hv : binding.declaration = some vertex) : w.Binds source root scope binding hoist := by
  cases hname with
  | ofClass hform hname =>
    have hkind : n.kind = .classDeclaration ∨ n.kind = .abstractClassDeclaration := by
      generalize n.kind = kind at hform
      cases kind <;> simp [Kind.form?] at hform ⊢
    refine .statement h.mem (List.mem_append_right _ ?_) hv h.vertex fun hk => ?_
    · rcases hkind with hk | hk <;> simp [hk, hname]
    · simp [hk] at hkind
  | @ofVariable d pattern isVar hform hd hpattern hname =>
    have hkind : d.kind = .variableDeclarator := by simpa using (List.mem_filter.1 hd).2
    refine .statement (mem_nodes_trans (child_mem_nodes (mem_children_of_declarators hd)) h.mem)
      (List.mem_append_right _ (by simpa [hkind, hpattern] using hname)) hv h.vertex
      fun hk => ⟨?_, h.mem, h.held⟩
    cases isVar with
    | false => rfl
    | true => simp [hk, Kind.form?] at hform

/-! ## Statements in statements -/

end Build

namespace Trace

/-- A node lies in a statement that is in the graph, on the way to the statements that it holds. -/
structure Amid (source : String) (root : Node) (w : Trace) (scope : ScopeId) (vertex : VertexId)
    (n m : Node) : Prop where
  calm : w.Calm source
  visits : w.Visits source root scope (some n) (.ofStatement m.kind) m
  vertex : w.builder.StandsFor vertex n

/-- What a statement holds is being linked in a scope. -/
structure Entered (source : String) (root : Node) (w : Trace) (scope : ScopeId) (vertex : VertexId)
    (n : Node) : Prop extends w.Amid source root scope vertex n n where
  standing : n.kind = .exportStatement ∨ n.kind = .labeledStatement → w.Standing source root scope n

/-- A scope has a place, and the functions of all scopes were hoisted. -/
structure Room (source : String) (w : Trace) (scope : ScopeId) (p : ScopePlace) : Prop where
  calm : w.Calm source
  lt : scope < w.builder.scopes.size
  place : w.places[scope]? = some p

/-- A scope has the place of a node in a statement. -/
structure Opened (source : String) (root : Node) (w : Trace) (scope : ScopeId) (vertex : VertexId)
    (n m : Node) : Prop extends w.Room source scope ⟨.ofStatement m.kind, m⟩,
    w.Amid source root scope vertex n m

variable {source : String} {root n m c : Node} {w w' : Trace} {scope : ScopeId}
  {vertex : VertexId} {during : Option Node} {p : ScopePlace}

theorem Linking.entered (h : w.Linking source root scope n vertex) (hnested : root.Nested) :
    w.Entered source root scope vertex n :=
  ⟨⟨h.calm, h.visits hnested, h.vertex⟩, fun _ => h.toStanding⟩

theorem Amid.after (h : w.Amid source root scope vertex n m) (hw : w.Leads source root w') :
    w'.Amid source root scope vertex n m where
  calm := hw.calm h.calm
  visits := h.visits.mono hw.grows
  vertex := h.vertex.mono hw.grows.grows

theorem Entered.after (h : w.Entered source root scope vertex n) (hw : w.Leads source root w') :
    w'.Entered source root scope vertex n :=
  { h.toAmid.after hw with standing := fun hkind => (h.standing hkind).after hw }

theorem Room.after (h : w.Room source scope p) (hw : w.Leads source root w') :
    w'.Room source scope p where
  calm := hw.calm h.calm
  lt := Nat.lt_of_lt_of_le h.lt hw.grows.size_le
  place := hw.grows.place h.place

theorem Room.standing (h : w.Room source scope p) (hmem : c ∈ root.nodes) (hholds : p.Holds c) :
    w.Standing source root scope c :=
  ⟨h.calm, h.lt, hmem, p, h.place, hholds⟩

theorem Opened.item (h : w.Opened source root scope vertex n m) (hc : c ∈ m.children)
    (hholds : ScopePlace.Holds ⟨.ofStatement m.kind, m⟩ c) : w.Standing source root scope c :=
  h.standing (mem_nodes_trans (child_mem_nodes hc) h.visits.mem) hholds

end Trace

namespace Build

open Trace

section Compound

variable {source : String} {root n : Node} {w : Trace} {scope header : ScopeId} {vertex : VertexId}
  {owner : Option VertexId} {α : Type}

/-- A statement is linked: its leaves were met, and it is in the graph if it is an expression. -/
def Links (source : String) (root : Node) (w : Trace) (step : Build Unit) (n : Node) : Prop :=
  Runs source root w step fun _ w' => w'.Came Anywhere (statementLeaves source n) ∧
    (n.kind = .expressionStatement → ∃ v, w'.builder.StandsFor v n)

theorem Links.comes {step : Build Unit} (h : Links source root w step n) :
    Comes source root w Anywhere step (statementLeaves source n) :=
  Runs.imp h fun _ _ _ hpost => ⟨hpost.1, trivial⟩

/-- A block scope is added whose place is a node that is visited as a statement. -/
theorem runs_room {m : Node} (hcalm : w.Calm source) (hat : w.At scope (.ofStatement m.kind) m) :
    Runs source root w (addScope scope .block) fun block w' =>
      w'.Room source block ⟨.ofStatement m.kind, m⟩ := by
  refine (runs_addBlock (p := ⟨.ofStatement m.kind, m⟩) hcalm hat ?_).imp
    fun _ _ hw hpost => ⟨hw.calm hcalm, hpost.2, hpost.1⟩
  unfold Visit.ofStatement
  split <;> simp

/-- Statements other than expressions are added to the graph before their parts are linked. -/
theorem runs_entered {next : VertexId → Build α} {post : α → Trace → Prop}
    (h : w.Standing source root scope n) (hform : n.kind.form?.isSome)
    (hkind : n.kind ≠ .expressionStatement)
    (hnext : ∀ v w', w.Leads source root w' → w'.Linking source root scope n v →
      Runs source root w' (next v) post) :
    Runs source root w (do
      let vertex ← statementVertex source n scope
      owner.forM fun owner => connect owner vertex { kind := .decl }
      next vertex) post := by
  refine Runs.bind (runs_addVertex rfl h.mem (.inl (.inl hform)) ?_ (absurd · hkind))
    fun vertex w₁ h₁ hvertex => ?_
  · intro hfunction
    have hat := h.reached
    rw [Visit.ofStatement, if_pos (by simp [Kind.isCompound, hfunction])] at hat
    exact ⟨scope, hat⟩
  refine Runs.bind (Acts.forM_option fun _ _ => acts_connect rfl) fun _ w₂ h₂ _ => ?_
  exact hnext vertex w₂ (h₁.trans h₂)
    { h.after (h₁.trans h₂) with vertex := hvertex.mono h₂.grows.grows }

/-- **An expression statement is linked to its end**: all leaves of its parts are met in its course. -/
theorem links_expression (hnested : root.Nested) (hroot : root.Grammatical)
    (h : w.Standing source root scope n) (hkind : n.kind = .expressionStatement) :
    Links source root w (do
      let vertex ← statementVertex source n scope
      owner.forM fun owner => connect owner vertex { kind := .decl }
      expressions source n scope) n := by
  intro a b hrun
  obtain ⟨vertex, b₁, hvertex, hrun⟩ := exists_of_bind_ok hrun
  -- The first act adds the statement; what comes after it accounts for it.
  obtain ⟨w₁, rfl, hdeed, hstands, hnew⟩ := exists_deed_of_addVertex rfl h.mem
    (.inl (.inl (by rw [hkind]; rfl))) (by simp [hkind, Kind.form?]) hvertex
  have hlinking : w₁.Linking source root scope n vertex :=
    { h.mono hdeed.act.grows (hdeed.act.quiet h.calm) with vertex := hstands }
  have hresolve {w' : Trace} (h : w'.Linking source root scope n vertex) :
      w'.Visits source root scope (some n) .resolve n := by
    have hv := h.visits hnested
    rwa [hkind] at hv
  have hrest : Comes source root w₁ (Here scope (some n)) (do
      owner.forM fun owner => connect owner vertex { kind := .decl }
      expressions source n scope) (partLeaves source n) := by
    refine Runs.bind (Acts.forM_option fun _ _ => acts_connect rfl) fun _ w₂ h₂ _ => ?_
    have hv := hresolve (hlinking.after h₂)
    exact (historyWalk hnested hroot scope (some n) fun _ h => h).expressions hv (by rw [hkind]; rfl)
  obtain ⟨w', hw', hleads, hcame, -⟩ := hrest a b hrun
  refine ⟨w', hw', ⟨.head hdeed hleads.deeds, fun y hy hky => ?_⟩, ?_, fun _ => ?_⟩
  · rcases hleads.accounted y hy hky with hy | hy
    · rcases hnew y hy with hy | ⟨rfl, -⟩
      · exact .inl hy
      · refine .inr ⟨n, h.mem, rfl, scope, ?_, hcame⟩
        exact (hresolve (hlinking.after hleads)).reached
    · exact .inr hy
  · rw [statementLeaves, hkind]
    exact hcame.anywhere
  · exact ⟨vertex, (hlinking.after hleads).vertex⟩

/-- **The steps of a statement that holds no other meet its leaves.** -/
def historyWhole {root : Node} (hnested : root.Nested) (hroot : root.Grammatical)
    (source : String) : Whole (histories source root Anywhere) source where
  inside w scope v n := w.Linking source root scope n v
  walk n scope := historyWalk hnested hroot scope (some n) fun _ _ => trivial
  inside_later h hn := Linking.after hn h
  held hn := hn.visits hnested
  backs hn := hn.vertex.holds
  function hn hform hname _ _ := Runs.to_logic (runs_hoist hn.mem hform hname hn.vertex).acts
  declares hn hname _ hshape := Runs.to_logic (acts_declare (binds_introduced hn hname rfl)
    (ValueShape.Rooted.bind hshape _ hn.vertex.lt_size).rooted)
  var hn hname := Runs.to_logic (acts_hoistVar (binds_introduced hn hname rfl))
  returns _ _ := Runs.to_logic (acts_noteReturn _)

/-- **A statement that holds no other is linked.** -/
theorem links_whole (hnested : root.Nested) (hroot : root.Grammatical)
    (h : w.Standing source root scope n) {form : Form} (hform : n.kind.form? = some form)
    (hnesting : form.isNesting = false) : Links source root w (statement source n scope owner) n := by
  by_cases hkind : n.kind = .expressionStatement
  · obtain rfl : form = .expression := by
      rw [hkind] at hform
      exact (Option.some.inj hform).symm
    rw [statement, hform]
    exact links_expression hnested hroot h hkind
  · refine (historyWhole hnested hroot source).statement hform hnesting fun hnext => ?_
    refine runs_entered h (by rw [hform]; rfl) hkind fun v w' _ hn => ?_
    exact (hnext v w' hn).imp fun _ _ _ hend => ⟨hend.1, fun hk => absurd hk hkind⟩

theorem runs_exposed {d : Node} (h : w.Entered source root scope vertex n)
    (hform : n.kind.form? = some .exportDecl) (hd : n.child? .declaration = some d)
    (hlinked : d.kind = .expressionStatement → ∃ v, w.builder.StandsFor v d) :
    Acts source root w (do
      let target ← statementVertex source d scope
      (d.boundNames source).forM fun name => connect vertex target (.named .read name)) := by
  have hexport := Kind.eq_of_form hform rfl
  have hmem := mem_children_of_child? hd
  have hinner := (h.standing (.inl hexport)).inner (.inl hexport) hmem
  refine Runs.bind (runs_addVertex rfl hinner.mem (.inr ⟨n, h.visits.mem, hexport, hd⟩) ?_ hlinked)
    fun target w₁ h₁ htarget => ?_
  · intro hfunction
    have hat := hinner.reached
    rw [Visit.ofStatement, if_pos (by simp [Kind.isCompound, hfunction])] at hat
    exact ⟨scope, hat⟩
  · refine Acts.forM fun name _ w₂ h₂ => ?_
    exact acts_exported h.visits.mem hmem (h.after (h₁.trans h₂)).vertex
      (htarget.mono h₂.grows.grows)

end Compound

/-- **The steps of a statement meet its leaves.** -/
def historyPassage {root : Node} (hnested : root.Nested) (hroot : root.Grammatical)
    (source : String) : Passage (histories source root Anywhere) source root where
  due w scope _ n := w.Standing source root scope n
  inside w scope v n := w.Entered source root scope v n
  amid w scope v n m := w.Amid source root scope v n m
  opened w scope v n m := w.Opened source root scope v n m
  linked w n := n.kind = .expressionStatement → ∃ v, w.builder.StandsFor v n
  due_later h hn := Standing.after hn h
  inside_later h hn := Entered.after hn h
  opened_later h hm := { Room.after hm.toRoom h, Amid.after hm.toAmid h with }
  linked_other {_ n} hform hk := by
    rw [hk] at hform
    rcases hform with hform | hform <;> cases hform
  linked_inside hn _ _ := ⟨_, hn.vertex⟩
  mem_nodes hn := hn.visits.mem
  walk n scope := historyWalk hnested hroot scope (some n) fun _ _ => trivial
  whole hn hform hnesting := links_whole hnested hroot hn hform hnesting
  enter {_ _ _ n _ _ _ _} hn hform hnesting _ hnext :=
    runs_entered hn (by rw [hform]; rfl) (by rintro hk; rw [hk] at hform; cases hform; cases hnesting)
      fun v w' hw hlinking => hnext v w' hw (hlinking.entered hnested)
  amid_self hn _ := hn.toAmid
  amid_child hm hkind hc :=
    { hm with
      visits := hm.visits.inside hnested (Kind.holdsStatements_of_holdsDirectly (hkind hroot).1.1) hc }
  header hm hkind hfield hc := hm.visits.header hnested hroot
    (Kind.holdsStatements_of_headerFields (hkind hroot).2.1) (mem_children_of_child? hc)
    (by rw [field_of_child? hc]; exact hfield)
  exportValue hn hform _ hc := hn.visits.header hnested hroot
    (Kind.holdsStatements_of_form hform rfl) (mem_children_of_child? hc)
    (by rw [field_of_child? hc]; rfl)
  clause hn _ hfield hpart _ := hn.visits.header hnested hroot
    (Kind.holdsStatements_of_headerFields hfield) (mem_children_of_childrenAt hpart)
    (by rw [field_of_childrenAt hpart]; exact Kind.isHeader_of_mem_headerFields hfield)
  listed {w _ _ n clause specifier name} hn _ _ _ _ hclause _ hspecifier hname := by
    -- The names of an export clause lie in it, whatever they are parts of.
    have hclause' := mem_children_of_namedChildren hclause
    have hspecifier' := mem_children_of_namedChildren hspecifier
    have hname' := mem_children_of_child? hname
    have hmem : name ∈ root.nodes := mem_nodes_trans (child_mem_nodes hname')
      (mem_nodes_trans (child_mem_nodes hspecifier')
        (mem_nodes_trans (child_mem_nodes hclause') hn.visits.mem))
    have hin := ((hn.visits.reached.within.child hclause').child hspecifier').child hname'
    exact comes_use (u := .name name .read) (fun _ _ => trivial)
      ⟨by simp [Spells, field_of_child? hname], .inl rfl⟩ hmem hin hn.visits.opened fun _ hrun => hrun
  block {w scope _ n} hn hform := by
    have hblock : n.kind = .statementBlock := Kind.eq_of_form hform rfl
    refine ((runs_room hn.calm hn.reached).imp fun block w' _ hroom c hc => ?_).to_logic
    have hmem := mem_children_of_namedChildren hc
    exact hroom.standing (mem_nodes_trans (child_mem_nodes hmem) hn.mem)
      (.item (by rw [hblock]; rfl) (.inl hblock) hmem)
  enclose {w _ v n m} hm := ((runs_room hm.calm hm.visits.reached).imp fun block w' hw hroom =>
    (⟨hroom, (hm.after hw).visits.inScope hroom.calm hroom.lt ⟨_, hroom.place, .refl⟩,
      (hm.after hw).vertex⟩ : w'.Opened source root block v n m)).to_logic
  branch hm _ := hm.standing hm.visits.mem (.self rfl)
  blockItem hm hkind hc :=
    have hmem := mem_children_of_namedChildren hc
    hm.item hmem (.item (by rw [hkind hroot]; rfl) (.inl (hkind hroot)) hmem)
  caseItem hm hkind hc :=
    have hmem := mem_children_of_mem_without (mem_children_of_namedChildren hc)
    hm.item hmem (.item (by rcases hkind hroot with hk | hk <;> rw [hk] <;> rfl) (.inr (hkind hroot))
      hmem)
  loop {_ _ _ n} hm hform := by
    refine ⟨hm.toAmid, ?_⟩
    rintro (hk | hk) <;> rw [hk] at hform <;> rcases hform with hform | hform <;> cases hform
  declared {_ _ _ n _ _} hm hform hfield hpart _ := by
    have hmem := mem_children_of_childrenAt hpart
    have hfor : n.kind = .forStatement := Kind.eq_of_form hform rfl
    refine hm.item hmem (.header (by rw [hfor]; rfl) hfor hmem ?_)
    rw [field_of_childrenAt hpart]
    exact Kind.isHeader_of_mem_headerFields hfield
  target {w _ _ n left} hm hform hkeyword hleft := by
    have hin : n.kind = .forInStatement := Kind.eq_of_form hform rfl
    refine Runs.to_logic (acts_declareNames fun name hname w' hw => ?_)
    refine .statement hm.visits.mem (List.mem_append_right _ ?_) rfl (hm.vertex.mono hw.grows.grows)
      (by simp [hin])
    change name ∈ _
    simpa [hin, hleft, hkeyword] using hname
  handled {w _ _ n _ handler _} hm hn hform hhandler hparameter := by
    have hcatch : handler.kind = .catchClause :=
      hroot.kind_eq hn hhandler (by rw [Kind.eq_of_form hform rfl]; rfl)
    refine Runs.to_logic (acts_declareNames fun name hname w' hw => ?_)
    refine .statement (mem_nodes_trans (child_mem_nodes (mem_children_of_child? hhandler)) hn)
      (List.mem_append_right _ ?_) rfl (hm.vertex.mono hw.grows.grows)
      (by simp [Kind.eq_of_form hform rfl])
    change name ∈ _
    simpa [hcatch, hparameter] using hname
  labeled hn hform hc := (hn.standing (.inr (Kind.eq_of_form hform rfl))).inner
    (.inr (Kind.eq_of_form hform rfl)) (mem_children_of_child? hc)
  carried hn hform hc := (hn.standing (.inl (Kind.eq_of_form hform rfl))).inner
    (.inl (Kind.eq_of_form hform rfl)) (mem_children_of_child? hc)
  exposed hn hform hd hlinked := ((runs_exposed hn hform hd hlinked).imp fun _ _ hw _ _ =>
    ⟨_, (hn.after hw).vertex⟩).to_logic

/-- **Linking a statement meets its leaves.** -/
theorem links_statement {source : String} {root : Node} (hnested : root.Nested)
    (hroot : root.Grammatical) (n : Node) (w : Trace) (scope : ScopeId) (owner : Option VertexId)
    (h : w.Standing source root scope n) : Links source root w (statement source n scope owner) n :=
  (historyPassage hnested hroot source).statement h

end Build

end DeadCode
