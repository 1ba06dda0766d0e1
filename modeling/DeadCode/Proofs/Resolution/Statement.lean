import DeadCode.Proofs.Resolution.Expression
import DeadCode.Proofs.Resolution.Hoisting
import DeadCode.Proofs.Resolution.Passage
import DeadCode.Resolution.Statement

/-! # What linking a statement can do

Linking a statement and hoisting the declarations in it are made of moves, like resolving an
expression is. A linked statement is owned by a statement around it, and the callables that are
registered are those that a visit of the statement comes upon. -/

namespace DeadCode

namespace Builder

variable {root n c : Node} {declared : Node → Prop} {b b' : Builder} {scope : ScopeId}
  {vertex : VertexId} {owner : Option VertexId}

theorem Owns.descend (h : b.Owns root vertex n) (hc : c ∈ n.descendants) : b.Owns root vertex c := by
  obtain ⟨outer, hmem, hn, hkind, hholds⟩ := h
  exact ⟨outer, hmem, Node.mem_descendants_trans (Node.mem_nodes_of_descendant hc) hn, hkind, hholds⟩

theorem StandsFor.owns (h : b.StandsFor vertex n) (hn : n ∈ root.nodes)
    (hform : n.kind.form?.isSome) (hc : c ∈ n.descendants) : b.Owns root vertex c :=
  ⟨n, hn, hc, .inl hform, h.holds⟩

/-- A statement is to be linked in a scope: another may own it, and the callables that a visit of it
comes upon are declared. -/
structure Awaits (root : Node) (declared : Node → Prop) (b : Builder) (scope : ScopeId)
    (owner : Option VertexId) (n : Node) : Prop where
  mem : n ∈ root.nodes
  scope : scope < b.scopes.size
  owned : ∀ v, owner = some v → b.Owns root v n
  met : ∀ d, Node.Met root (.ofStatement n.kind) n d → declared d

/-- A statement is being linked in a scope: it is in the graph, and the scope exists. -/
structure Linking (root : Node) (declared : Node → Prop) (b : Builder) (scope : ScopeId)
    (vertex : VertexId) (n : Node) : Prop where
  form : n.kind.form?.isSome
  vertex : b.StandsFor vertex n
  ready : b.Ready root n scope
  met : ∀ d, Node.Met root (.ofStatement n.kind) n d → declared d

theorem Awaits.after (h : b.Awaits root declared scope owner n)
    (hr : b.Reaches root declared b') : b'.Awaits root declared scope owner n :=
  { h with
    scope := Nat.lt_of_lt_of_le h.scope hr.grows.scopes
    owned := fun v hv => (h.owned v hv).mono hr.grows }

theorem Linking.after (h : b.Linking root declared scope vertex n)
    (hr : b.Reaches root declared b') : b'.Linking root declared scope vertex n :=
  { h with vertex := h.vertex.mono hr.grows, ready := h.ready.mono hr.grows }

theorem Linking.inScope (h : b.Linking root declared scope vertex n) {inner : ScopeId}
    (hinner : inner < b.scopes.size) : b.Linking root declared inner vertex n :=
  { h with ready := h.vertex.ready h.ready.mem hinner }

end Builder

namespace Node

variable {root n body arm c d : Node}

theorem Met.inside (h : Met root (.ofStatement c.kind) c d)
    (hkind : root.Grammatical → n.kind.holdsStatements) (hc : c ∈ n.children) :
    Met root (.ofStatement n.kind) n d :=
  (h.nested hkind hc).clause fun hroot => Kind.isCompound_of_holdsStatements (hkind hroot)

theorem Met.inHeader (h : Met root .resolve c d)
    (hkind : root.Grammatical → n.kind.holdsStatements) (hn : n ∈ root.nodes)
    (hc : c ∈ n.children) (hfield : c.field.any Field.isHeader) :
    Met root (.ofStatement n.kind) n d :=
  (h.header hkind hn hc hfield).clause fun hroot =>
    Kind.isCompound_of_holdsStatements (hkind hroot)

end Node

open Node

namespace Builder

variable {root n m c : Node} {declared : Node → Prop} {b b' : Builder} {scope : ScopeId}
  {vertex : VertexId}

theorem Awaits.inner (h : b.Awaits root declared scope none n) (hkind : n.kind.holdsStatements)
    (hc : c ∈ n.children) : b.Awaits root declared scope none c where
  mem := mem_nodes_trans (child_mem_nodes hc) h.mem
  scope := h.scope
  owned := nofun
  met := fun d hd => h.met d (hd.inside (fun _ => hkind) hc)

/-- A node lies in a statement that is being linked, on the way to the statements that it holds. -/
structure Amid (root : Node) (declared : Node → Prop) (b : Builder) (scope : ScopeId)
    (vertex : VertexId) (n m : Node) : Prop extends b.Linking root declared scope vertex n where
  mem : m ∈ n.nodes
  metInside : ∀ d, Met root (.ofStatement m.kind) m d → declared d

theorem Linking.amid (h : b.Linking root declared scope vertex n) :
    b.Amid root declared scope vertex n n :=
  { h with mem := self_mem_nodes n, metInside := h.met }

theorem Amid.after (h : b.Amid root declared scope vertex n m)
    (hr : b.Reaches root declared b') : b'.Amid root declared scope vertex n m :=
  { h with toLinking := h.toLinking.after hr }

theorem Amid.child (h : b.Amid root declared scope vertex n m)
    (hkind : root.Grammatical → m.kind.holdsStatements) (hc : c ∈ m.children) :
    b.Amid root declared scope vertex n c :=
  { h with
    mem := mem_nodes_trans (child_mem_nodes hc) h.mem
    metInside := fun d hd => h.metInside d (hd.inside hkind hc) }

theorem Amid.header (h : b.Amid root declared scope vertex n m)
    (hkind : root.Grammatical → m.kind.holdsStatements) (hc : c ∈ m.children)
    (hfield : c.field.any Field.isHeader) :
    b.Ready root c scope ∧ ∀ d, Met root .resolve c d → declared d :=
  have hm := h.ready.descend h.mem
  ⟨hm.child hc, fun d hd => h.metInside d (hd.inHeader hkind hm.mem hc hfield)⟩

theorem Amid.awaits (h : b.Amid root declared scope vertex n m) (hm : m ∈ n.descendants) :
    b.Awaits root declared scope (some vertex) m where
  mem := mem_nodes_trans h.mem h.ready.mem
  scope := h.ready.scope
  owned := by
    rintro _ ⟨⟩
    exact h.vertex.owns h.ready.mem h.form hm
  met := h.metInside

theorem Amid.item (h : b.Amid root declared scope vertex n m)
    (hkind : root.Grammatical → m.kind.holdsStatements) (hc : c ∈ m.children) :
    b.Awaits root declared scope (some vertex) c := by
  refine (h.child hkind hc).awaits ?_
  rcases mem_nodes_iff.1 h.mem with rfl | hm
  · exact child_mem_descendants hc
  · exact mem_descendants_trans (child_mem_nodes hc) hm

end Builder

namespace Build

open Builder

variable {root n : Node} {b : Builder} {scope : ScopeId} {vertex : VertexId}
  {declared : Node → Prop}

section Linked

variable {declared : Node → Prop} {source : String} {owner : Option VertexId} {α : Type}

/-- A statement that is no block gets its place in the graph and its owner. -/
theorem outcome_entered {next : VertexId → Build α} {post : α → Builder → Prop} (hb : b.Valid root)
    (h : b.Awaits root declared scope owner n) (hform : n.kind.form?.isSome)
    (hnext : ∀ v b', b.Reaches root declared b' → b'.Linking root declared scope v n →
      Outcome root declared b' (next v) post) :
    Outcome root declared b (do
      let vertex ← statementVertex source n scope
      owner.forM fun owner => connect owner vertex { kind := .decl }
      next vertex) post := by
  refine (outcome_statementVertex hb source n h.scope).bind fun v b₁ h₁ hv => ?_
  refine (Outcome.forM_option h₁.valid fun u hu => outcome_own h₁.valid
    ((h.owned u hu).mono h₁.grows) hv (.inl hform)).andThen fun _ b₂ h₂ => ?_
  have hr := h₁.trans h₂
  refine hnext v b₂ hr ⟨hform, hv.mono h₂.grows, ?_, h.met⟩
  exact (hv.mono h₂.grows).ready h.mem (Nat.lt_of_lt_of_le h.scope hr.grows.scopes)

theorem outcome_exposed {d : Node} (hb : b.Valid root) (h : b.Linking root declared scope vertex n) :
    Outcome root declared b (do
      let target ← statementVertex source d scope
      (d.boundNames source).forM fun name => connect vertex target (.named .read name))
      Anything := by
  refine (outcome_statementVertex hb source d h.ready.scope).bind fun target b₁ h₁ htarget => ?_
  refine .forM h₁.valid fun name _ b₂ h₂ => ?_
  exact outcome_connect h₂.valid (h.vertex.mono (h₁.trans h₂).grows).lt_size
    (htarget.mono h₂.grows).lt_size (by simp [Relation.named])

end Linked

/-- **The outcomes of the steps of a statement that holds no other.** -/
def outcomeWhole (root : Node) (declared : Node → Prop) (source : String) :
    Whole (outcomes root declared) source where
  inside s scope v n := s.1.Linking root declared scope v n
  walk _ scope := outcomeWalk root declared source scope
  inside_later h hn := Linking.after hn h
  held hn := ⟨hn.ready, hn.met⟩
  backs hn := hn.vertex.holds
  function hn _ _ _ hkey := (outcome_declare (Subtype.prop _) hn.ready.scope
    (sound_declaredCallable hn.vertex.lt_size hkey) _).does
  declares hn _ _ hshape := (outcome_declare (Subtype.prop _) hn.ready.scope
    (ValueShape.Sound.bind hshape _ hn.vertex.lt_size) _).does
  var hn _ :=
    (outcome_hoistVar (Subtype.prop _) hn.ready.scope hn.vertex.lt_size _ _).does
  returns hn _ := (outcome_noteReturn (Subtype.prop _) hn.vertex.lt_size).does

/-- **The outcomes of the steps of a statement.** -/
def outcomePassage (root : Node) (declared : Node → Prop) (source : String) :
    Passage (outcomes root declared) source root where
  due s scope owner n := s.1.Awaits root declared scope owner n
  inside s scope v n := s.1.Linking root declared scope v n
  amid s scope v n m := s.1.Amid root declared scope v n m
  opened s scope v n m := s.1.Amid root declared scope v n m
  linked _ _ := True
  due_later h hn := Awaits.after hn h
  inside_later h hn := Linking.after hn h
  opened_later h hm := Amid.after hm h
  linked_other _ := trivial
  linked_inside _ _ := trivial
  mem_nodes hn := hn.ready.mem
  walk _ scope := outcomeWalk root declared source scope
  whole hn hform hnesting := (outcomeWhole root declared source).statement hform hnesting
    fun hnext => outcome_entered (Subtype.prop _) hn (by rw [hform]; rfl)
      fun v b' hr hlinking => hnext v ⟨b', hr.valid⟩ hlinking
  enter hn hform _ _ hnext := outcome_entered (Subtype.prop _) hn (by rw [hform]; rfl)
    fun v b' hr hlinking => hnext v ⟨b', hr.valid⟩ hr hlinking
  amid_self hn _ := hn.amid
  amid_child hm hkind hc :=
    hm.child (fun hroot => Kind.holdsStatements_of_holdsDirectly (hkind hroot).1.1) hc
  header hm hkind hfield hc :=
    hm.header (fun hroot => Kind.holdsStatements_of_headerFields (hkind hroot).2.1)
      (mem_children_of_child? hc) (by rw [field_of_child? hc]; exact hfield)
  exportValue hn hform _ hc := hn.amid.header (fun _ => Kind.holdsStatements_of_form hform rfl)
    (mem_children_of_child? hc) (by rw [field_of_child? hc]; rfl)
  clause hn hform hfield hpart _ := hn.amid.header (fun _ => Kind.holdsStatements_of_form hform rfl)
    (mem_children_of_childrenAt hpart)
    (by rw [field_of_childrenAt hpart]; exact Kind.isHeader_of_mem_headerFields hfield)
  listed hn _ _ _ _ hclause _ hspecifier hname := (naming root declared).reference
    (((hn.ready.child (mem_children_of_namedChildren hclause)).child
      (mem_children_of_namedChildren hspecifier)).child (mem_children_of_child? hname)).covered rfl
  block {s _ _ n} hn hform := by
    refine Outcome.imp (outcome_addBlock s.2 hn.scope) fun block b' hr hblock =>
      ⟨hr.valid, fun c hc => ?_⟩
    have hmem := mem_children_of_namedChildren hc
    exact ⟨mem_nodes_trans (child_mem_nodes hmem) hn.mem, hblock,
      fun v hv => ((hn.owned v hv).mono hr.grows).descend (child_mem_descendants hmem),
      fun d hd => hn.met d (hd.inside (fun _ => Kind.holdsStatements_of_form hform rfl) hmem)⟩
  enclose {s _ _ n m} hm := Outcome.imp (outcome_addBlock s.2 hm.ready.scope) fun _ _ hr hblock =>
    ⟨hr.valid, { hm.after hr with toLinking := (hm.toLinking.after hr).inScope hblock }⟩
  branch hm hbranch := hm.awaits hbranch.mem_descendants
  blockItem hm hkind hc :=
    hm.item (fun hroot => by rw [hkind hroot]; rfl) (mem_children_of_namedChildren hc)
  caseItem hm hkind hc := hm.item (fun hroot => by rcases hkind hroot with hk | hk <;> rw [hk] <;> rfl)
    (mem_children_of_mem_without (mem_children_of_namedChildren hc))
  loop hm _ := hm.toLinking
  declared hm hform _ hpart _ := hm.item (fun _ => Kind.holdsStatements_of_form hform rfl)
    (mem_children_of_childrenAt hpart)
  target hm _ _ _ :=
    (outcome_declareNames (Subtype.prop _) hm.ready.scope hm.vertex.lt_size _).does
  handled hm _ _ _ _ :=
    (outcome_declareNames (Subtype.prop _) hm.ready.scope hm.vertex.lt_size _).does
  labeled hn hform hc := hn.amid.item (fun _ => Kind.holdsStatements_of_form hform rfl)
    (mem_children_of_child? hc)
  carried hn hform hc := hn.amid.item (fun _ => Kind.holdsStatements_of_form hform rfl)
    (mem_children_of_child? hc)
  exposed hn _ _ _ := (outcome_exposed (Subtype.prop _) hn).to_logic fun _ _ _ => trivial

/-- **The outcome of linking a statement.** -/
theorem outcome_statement {owner : Option VertexId} (source : String) (hb : b.Valid root)
    (h : b.Awaits root declared scope owner n) :
    Outcome root declared b (statement source n scope owner) Anything :=
  .of_logic hb ((outcomePassage root declared source).statement h)

/-! ## Hoisting -/

/-- **The outcomes of the steps of hoisting.** -/
def outcomeHoisting (root : Node) (declared : Node → Prop) (source : String) (scope : ScopeId) :
    Hoisting (outcomes root declared) source scope where
  due s n _ := s.1.Awaits root declared scope none n
  inside s v n := s.1.StandsFor v n
  done s n := ∃ v, s.1.StandsFor v n
  due_later h hn := Awaits.after hn h
  inside_later h hv := StandsFor.mono hv h.grows
  done_later h hdone := hdone.imp fun _ hv => hv.mono h.grows
  nested hn hkind hc := hn.inner (Kind.holdsStatements_of_holdsDirectly hkind)
    (mem_children_of_namedChildren hc)
  carried hn hkind hc := hn.inner (by rw [hkind]; rfl) (mem_children_of_child? hc)
  vertex hn _ := (outcome_statementVertex (Subtype.prop _) source _ hn.scope).to_logic
    fun _ _ hv => hv
  function {s v n name _} hn hv hform _ := by
    have hmet : Met root (.ofStatement n.kind) n n := by
      rw [Visit.ofStatement, if_pos (by simp [Kind.isCompound, hform])]
      exact .self (by simp [Visit.defers, hform])
    refine ((outcome_register s.2 (hv.ready hn.mem hn.scope) (mem_callables.1 hmet.mem).2 hv.holds
      (.inr (hn.met n hmet))).bind fun key b₁ h₁ hkey => ?_ : Outcome root declared s.1 _ fun _ b' =>
        ∃ v, b'.StandsFor v n).to_logic fun _ _ hdone => hdone
    exact (outcome_declare h₁.valid (Nat.lt_of_lt_of_le hn.scope h₁.grows.scopes)
      (sound_declaredCallable (hv.mono h₁.grows).lt_size hkey.2) _).imp fun _ _ h₂ _ =>
        ⟨v, hv.mono (h₁.trans h₂).grows⟩
  var hn hv _ _ := (outcome_hoistVar (Subtype.prop _) hn.scope hv.lt_size _ _).does
  imported hn hv _ _ := (outcome_declare (Subtype.prop _) hn.scope
    ((ValueShape.sound_origin _).bind _ hv.lt_size) _).does
  other hv _ := ⟨_, hv⟩

/-! ## Bodies -/

/-- **The outcome of hoisting what a body declares.** -/
theorem outcome_hoistBody (hb : b.Valid root) (source : String) {body : Node}
    (hbody : body ∈ root.nodes) (hscope : scope < b.scopes.size) (topLevel : Bool)
    (hd : ∀ c ∈ body.children, ∀ d, Met root (.ofStatement c.kind) c d → declared d) :
    Outcome root declared b (hoistBody source body scope topLevel) fun _ b' =>
      ∀ d ∈ body.bodyVisits topLevel, d.1.hoistsHere source d.2 → ∃ v, b'.StandsFor v d.1 := by
  refine .of_logic hb ((outcomeHoisting root declared source scope).body fun c hc _ => ?_)
  have hmem := mem_children_of_namedChildren hc
  exact ⟨mem_nodes_trans (child_mem_nodes hmem) hbody, hscope, nofun, hd c hmem⟩

theorem outcome_linkBody (hb : b.Valid root) (source : String) {body : Node}
    (hbody : body ∈ root.nodes) (hscope : scope < b.scopes.size) {owner : Option VertexId}
    (howner : ∀ v, owner = some v → ∀ c ∈ body.children, b.Owns root v c)
    (hd : ∀ c ∈ body.children, ∀ d, Met root (.ofStatement c.kind) c d → declared d) :
    Outcome root declared b (linkBody source body scope owner) Anything := by
  refine .forM hb fun c hc b' hr => ?_
  have hmem := mem_children_of_namedChildren (mem_namedChildren_of_orderedChildren hc)
  exact outcome_statement source hr.valid ⟨mem_nodes_trans (child_mem_nodes hmem) hbody,
    Nat.lt_of_lt_of_le hscope hr.grows.scopes, fun v hv => (howner v hv c hmem).mono hr.grows,
    hd c hmem⟩

end Build

end DeadCode
