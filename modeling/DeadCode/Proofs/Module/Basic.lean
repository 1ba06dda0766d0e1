import DeadCode.Module.Basic
import DeadCode.Proofs.Graph.Basic

/-! # The imports and exports of a file

The imports of a file are collected from all nodes of its tree, and its exports from those at the
top. Here both are said of the nodes that make them, and the model of a file is taken apart. -/

namespace DeadCode

/-! ## The nodes that import -/

/-- A node stands in a tree amid other nodes, the innermost first. -/
inductive Node.Amid (root : Node) : List Node → Node → Prop where
  | root : Amid root [] root
  | child {around : List Node} {n c : Node} (h : Amid root around n) (hc : c ∈ n.children) :
      Amid root (n :: around) c

/-- The specifier of the module that a node imports: that of an `import` statement, of an export of
names of another module, or of a call of `require` or of `import`. -/
def Node.importSource? (source : String) (n : Node) : Option String :=
  match n.kind with
  | .importStatement | .exportStatement => (n.child? .source).bind (·.stringValue? source)
  | .callExpression => (n.requireSource? source).or (n.dynamicSource? source)
  | _ => none

namespace Import

variable {context : Context} {root n : Node} {around : List Node} {i : Import}
  {specifier source : String} {kind : ImportKind} {names : List (Option String × ImportedName)}
  {path : Path} {graph : StatementGraph}

/-- An import belongs to the statement around its node. -/
theorem vertex_of_mem_ofNames (h : i ∈ ofNames context n specifier kind names) :
    i.vertex = context.graph.findVertex? n.span := by
  unfold ofNames at h
  split at h
  · cases h
  · obtain ⟨name, -, rfl⟩ := List.mem_map.1 h
    rfl

theorem source_of_mem_ofNames (h : i ∈ ofNames context n specifier kind names) :
    i.source = specifier := by
  unfold ofNames at h
  split at h
  · cases h
  · obtain ⟨name, -, rfl⟩ := List.mem_map.1 h
    rfl

/-- The target of an import is where its source leads. -/
theorem resolve?_of_mem_ofNames (h : i ∈ ofNames context n specifier kind names) :
    Specifier.resolve? context.directory i.source = some i.target := by
  unfold ofNames at h
  split at h
  · cases h
  · next htarget =>
    obtain ⟨name, -, rfl⟩ := List.mem_map.1 h
    exact htarget

/-- Every import at a node has the source that the node names. -/
theorem exists_mem_ofNames (h : i ∈ atNode context around n) :
    ∃ specifier kind names, n.importSource? context.source = some specifier ∧
      i ∈ ofNames context n specifier kind names := by
  unfold atNode at h
  dsimp only at h
  split at h
  · -- An import statement.
    next hk =>
    split at h
    · cases h
    · next hsource => exact ⟨_, _, _, by simp only [Node.importSource?, hk, hsource], h⟩
  · -- An export of names of another module.
    next hk =>
    split at h
    · cases h
    · next hsource => exact ⟨_, _, _, by simp only [Node.importSource?, hk, hsource], h⟩
  · -- A call of `require` or of `import`.
    next hk =>
    split at h
    · next hsource =>
      exact ⟨_, _, _, by simp only [Node.importSource?, hk, hsource, Option.some_or], h⟩
    · next hnone =>
      split at h
      · next hsource =>
        exact ⟨_, _, _, by simp only [Node.importSource?, hk, hnone, hsource, Option.none_or], h⟩
      · cases h
  · cases h

theorem vertex_of_mem_atNode (h : i ∈ atNode context around n) :
    i.vertex = context.graph.findVertex? n.span := by
  obtain ⟨specifier, kind, names, -, hnames⟩ := exists_mem_ofNames h
  exact vertex_of_mem_ofNames hnames

theorem inTree_eq (context : Context) (around : List Node) (n : Node) :
    inTree context around n = atNode context around n ++ inTrees context (n :: around) n.children := by
  cases n
  rw [inTree]

/-- The imports of trees are those of each. -/
theorem mem_inTrees {ns : List Node} :
    i ∈ inTrees context around ns ↔ ∃ n ∈ ns, i ∈ inTree context around n := by
  induction ns with
  | nil => simp [inTrees]
  | cons n rest ih => simp [inTrees, ih]

/-- The imports of a subtree are imports of the tree. -/
theorem mem_inTree_of_amid (h : root.Amid around n) (hi : i ∈ inTree context around n) :
    i ∈ inTree context [] root := by
  induction h with
  | root => exact hi
  | child _ hc ih =>
    refine ih ?_
    rw [inTree_eq]
    exact List.mem_append_right _ (mem_inTrees.2 ⟨_, hc, hi⟩)

/-- Every import of a tree stands at a node amid others. -/
theorem exists_amid_of_mem_inTree (h : root.Amid around n) (hi : i ∈ inTree context around n) :
    ∃ around' n', root.Amid around' n' ∧ i ∈ atNode context around' n' := by
  induction n using Node.childInduction generalizing around with
  | step n ih =>
    rw [inTree_eq, List.mem_append] at hi
    rcases hi with hi | hi
    · exact ⟨around, n, h, hi⟩
    · obtain ⟨c, hc, hi⟩ := mem_inTrees.1 hi
      exact ih c hc (.child h hc) hi

/-- **The imports of a file are those of its nodes.** -/
theorem mem_ofFile_iff :
    i ∈ ofFile path source root graph ↔ ∃ around n, root.Amid around n ∧
      i ∈ atNode { source, directory := path.parent?.getD ⟨"/"⟩, graph } around n := by
  constructor
  · exact exists_amid_of_mem_inTree .root
  · rintro ⟨around, n, hamid, hi⟩
    refine mem_inTree_of_amid hamid ?_
    rw [inTree_eq]
    exact List.mem_append_left _ hi

/-- The statement around a node that imports exists. -/
theorem lt_size_of_mem_ofFile {v : VertexId} (h : i ∈ ofFile path source root graph)
    (hv : i.vertex = some v) : v < graph.vertices.size := by
  obtain ⟨around, n, -, hi⟩ := mem_ofFile_iff.1 h
  obtain ⟨vertex, hfound, -⟩ :=
    StatementGraph.exists_of_findVertex? ((vertex_of_mem_atNode hi).symm.trans hv)
  exact StatementGraph.lt_size_of_vertex? hfound

/-- The target of an import of a file is where its source leads. -/
theorem resolve?_of_mem_ofFile (h : i ∈ ofFile path source root graph) :
    Specifier.resolve? (path.parent?.getD ⟨"/"⟩) i.source = some i.target := by
  obtain ⟨around, n, -, hi⟩ := mem_ofFile_iff.1 h
  obtain ⟨specifier, kind, names, -, hnames⟩ := exists_mem_ofNames hi
  have hresolve := resolve?_of_mem_ofNames hnames
  exact hresolve

end Import

/-! ## The statements that export -/

namespace Export

variable {source : String} {path : Path} {graph : StatementGraph} {e : Export}

/-- An export is that of its statement. -/
theorem vertex_of_mem_ofStatement {n : Node} (h : e ∈ ofStatement source path graph n) :
    graph.vertexByKey? n.key = some e.vertex := by
  unfold ofStatement at h
  split at h
  · cases h
  · next vertex hvertex =>
    rw [hvertex]
    dsimp only at h
    split at h
    · obtain ⟨name, -, rfl⟩ := List.mem_map.1 h
      rfl
    · obtain ⟨name, -, rfl⟩ := List.mem_map.1 h
      rfl
    · cases h

/-- The statement of a node that exports exists. -/
theorem lt_size_of_mem_ofFile {root : Node} (h : e ∈ ofFile source path root graph) :
    e.vertex < graph.vertices.size := by
  obtain ⟨n, -, hn⟩ := List.mem_flatMap.1 h
  exact (Array.findIdx?_eq_some_iff_getElem.1 (vertex_of_mem_ofStatement hn)).1

end Export

/-! ## Models of trees -/

namespace SourceModule

variable {m : SourceModule}

/-- **A file is the model of some tree.** -/
def HasTree (m : SourceModule) : Prop :=
  ∃ path source language root ambient, ofTree path source language root ambient = .ok m

/-- The parts of the model of a tree. -/
theorem of_ofTree {path : Path} {source : String} {language : Language} {root : Node}
    {ambient : List String} (h : ofTree path source language root ambient = .ok m) :
    m.path = path ∧ m.canonical = path.canonical ∧
      m.imports = Import.ofFile path source root m.graph ∧
      m.exports = Export.ofFile source path.canonical root m.graph := by
  unfold ofTree at h
  split at h
  · cases h
  · cases h
    dsimp only
    exact ⟨rfl, rfl, rfl, rfl⟩

/-- The graph of the model of a tree is the one built for it. -/
theorem exists_build?_of_ofTree {path : Path} {source : String} {language : Language} {root : Node}
    {ambient : List String} (h : ofTree path source language root ambient = .ok m) :
    ∃ scopes, StatementGraph.build? path source root ambient = .ok (m.graph, scopes) ∧
      m.imports = Import.ofFile path source root m.graph := by
  unfold ofTree at h
  split at h
  · cases h
  · next graph scopes hbuild =>
    cases h
    exact ⟨scopes, hbuild, rfl⟩

namespace HasTree

/-- The canonical path is that of the path. -/
theorem canonical_eq (h : m.HasTree) : m.canonical = m.path.canonical := by
  obtain ⟨path, source, language, root, ambient, htree⟩ := h
  obtain ⟨hpath, hcanonical, -⟩ := of_ofTree htree
  rw [hcanonical, hpath]

/-- **The statement that carries an import exists.** -/
theorem lt_size_of_import (h : m.HasTree) {i : Import} (hi : i ∈ m.imports) {v : VertexId}
    (hv : i.vertex = some v) : v < m.graph.vertices.size := by
  obtain ⟨path, source, language, root, ambient, htree⟩ := h
  obtain ⟨-, -, himports, -⟩ := of_ofTree htree
  rw [himports] at hi
  exact Import.lt_size_of_mem_ofFile hi hv

/-- The target of an import is what its specifier leads to, from the directory of the file. -/
theorem resolve?_of_import (h : m.HasTree) {i : Import} (hi : i ∈ m.imports) :
    Specifier.resolve? (m.path.parent?.getD ⟨"/"⟩) i.source = some i.target := by
  obtain ⟨path, source, language, root, ambient, htree⟩ := h
  obtain ⟨hpath, -, himports, -⟩ := of_ofTree htree
  rw [himports] at hi
  rw [hpath]
  exact Import.resolve?_of_mem_ofFile hi

/-- **The statement that exports exists.** -/
theorem lt_size_of_export (h : m.HasTree) {e : Export} (he : e ∈ m.exports) :
    e.vertex < m.graph.vertices.size := by
  obtain ⟨path, source, language, root, ambient, htree⟩ := h
  obtain ⟨-, -, -, hexports⟩ := of_ofTree htree
  rw [hexports] at he
  exact Export.lt_size_of_mem_ofFile he

end HasTree

end SourceModule

end DeadCode
