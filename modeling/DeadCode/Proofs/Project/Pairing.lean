import DeadCode.Proofs.Project.Accounting
import DeadCode.Proofs.Project.Analyzed
import Mathlib.Logic.Function.Basic

/-! # Paired edges and their tables

Every import edge between files is followed by its edge back, and neither is stored twice. The links
can also be collected import by import, with tables of what leaves and enters each statement; these
tables stay in step with the edges. -/

namespace DeadCode

/-! ## Edges and their ends -/

namespace CrossEdge

/-- The statement an edge leaves. -/
def source (e : CrossEdge) : Site :=
  ⟨e.sourceFile, e.sourceVertex⟩

/-- The statement an edge enters. -/
def target (e : CrossEdge) : Site :=
  ⟨e.targetFile, e.targetVertex⟩

/-- The edge from an export back to the statement that imports it, through the same name. -/
def back (e : CrossEdge) : CrossEdge :=
  { sourceFile := e.targetFile, sourceVertex := e.targetVertex, targetFile := e.sourceFile
    targetVertex := e.sourceVertex, relation := { e.relation with kind := .exports } }

/-- An import edge and its edge back. -/
def pair (e : CrossEdge) : List CrossEdge :=
  [e, e.back]

variable {a b e : CrossEdge} {edges : List CrossEdge}

/-- The edges back tell imports apart. -/
theorem back_inj (ha : a.relation.kind = .imports) (hb : b.relation.kind = .imports) :
    a.back = b.back ↔ a = b := by
  obtain ⟨_, _, _, _, _, _, _⟩ := a
  obtain ⟨_, _, _, _, _, _, _⟩ := b
  simp only at ha hb
  subst ha hb
  simp only [back, mk.injEq, Relation.mk.injEq]
  grind

theorem ne_back (ha : a.relation.kind = .imports) : a ≠ b.back := by
  rintro rfl
  cases ha

theorem filter_flatMap_pair (he : e.relation.kind = .imports)
    (h : ∀ a ∈ edges, a.relation.kind = .imports) :
    ((edges.flatMap pair).filter (· ≠ e.back)).filter (· ≠ e) =
      (edges.filter (· ≠ e)).flatMap pair := by
  induction edges with
  | nil => rfl
  | cons a rest ih =>
    obtain ⟨ha, hrest⟩ := List.forall_mem_cons.1 h
    have hother : e.back ≠ a := Ne.symm (ne_back ha)
    have hother' : a.back ≠ e := Ne.symm (ne_back he)
    rw [List.flatMap_cons, List.filter_append, List.filter_append, ih hrest]
    by_cases hae : a = e
    · subst hae
      simp [pair]
    · have hback : a.back ≠ e.back := fun heq => hae ((back_inj ha he).1 heq)
      simp [pair, hae, hback, hother', Ne.symm hother]

/-- **Repetitions of pairs** are repetitions of their import edges. -/
theorem distinct_flatMap_pair (h : ∀ a ∈ edges, a.relation.kind = .imports) :
    distinct (edges.flatMap pair) = (distinct edges).flatMap pair := by
  induction edges with
  | nil => rfl
  | cons e rest ih =>
    obtain ⟨he, hrest⟩ := List.forall_mem_cons.1 h
    have hdistinct : ∀ a ∈ distinct rest, a.relation.kind = .imports :=
      fun a ha => hrest a (mem_distinct.1 ha)
    -- An edge back is never an import edge, so the two halves of pairs never repeat each other.
    have hself : e.back ≠ e := Ne.symm (ne_back he)
    have hpair : distinct ((e :: rest).flatMap pair) =
        e :: (e.back :: (distinct (rest.flatMap pair)).filter (· ≠ e.back)).filter (· ≠ e) := rfl
    have hcons : distinct (e :: rest) = e :: (distinct rest).filter (· ≠ e) := rfl
    rw [hpair, hcons, List.filter_cons_of_pos (by simpa using hself), ih hrest,
      filter_flatMap_pair he hdistinct]
    rfl

/-- The import edges of pairs are their first halves, and the export edges their second ones. -/
theorem filter_kind_flatMap_pair (h : ∀ a ∈ edges, a.relation.kind = .imports) :
    (edges.flatMap pair).filter (·.relation.kind = .imports) = edges ∧
      (edges.flatMap pair).filter (·.relation.kind = .exports) = edges.map back := by
  induction edges with
  | nil => exact ⟨rfl, rfl⟩
  | cons e rest ih =>
    obtain ⟨he, hrest⟩ := List.forall_mem_cons.1 h
    obtain ⟨himports, hexports⟩ := ih hrest
    have hback : e.back.relation.kind = .exports := rfl
    rw [List.flatMap_cons, List.filter_append, List.filter_append, himports, hexports]
    simp [pair, he, hback]

end CrossEdge

/-- The statement that loads. -/
def ModuleLink.site (link : ModuleLink) : Site :=
  ⟨link.importer, link.vertex⟩

/-- The file of a statement exists and has the statement. -/
def Site.Present (files : List SourceModule) (site : Site) : Prop :=
  ∃ m, files[site.file]? = some m ∧ site.vertex < m.graph.vertices.size

/-! ## The edges of an import -/

namespace Occurrence

variable {files : List SourceModule} {o : Occurrence}

/-- The edges from the import to the exports it takes. -/
def importEdges (files : List SourceModule) (o : Occurrence) : List CrossEdge :=
  match o.resolution files with
  | .loaded vertex target matched =>
    matched.map fun m =>
      { sourceFile := o.file, sourceVertex := vertex, targetFile := target
        targetVertex := m.vertex, relation := .named .imports m.name }
  | _ => []

/-- Every import edge comes with one back. -/
theorem edges_eq_flatMap_pair (files : List SourceModule) (o : Occurrence) :
    o.edges files = (o.importEdges files).flatMap CrossEdge.pair := by
  unfold edges importEdges
  cases o.resolution files with
  | loaded vertex target matched =>
    rw [List.flatMap_map]
    rfl
  | _ => rfl

theorem of_mem_importEdges {e : CrossEdge} (h : e ∈ o.importEdges files) :
    ∃ name, e.relation = .named .imports name := by
  unfold importEdges at h
  split at h
  · obtain ⟨m, -, rfl⟩ := List.mem_map.1 h
    exact ⟨m.name, rfl⟩
  · cases h

end Occurrence

namespace Links

variable {files : List SourceModule} {dependencies : List Dependency} {e : CrossEdge}

/-- The import edges of files, each once. -/
def importEdges (files : List SourceModule) : List CrossEdge :=
  distinct ((occurrences files).flatMap (·.importEdges files))

theorem of_mem_importEdges (h : e ∈ importEdges files) :
    ∃ name, e.relation = .named .imports name := by
  obtain ⟨o, -, he⟩ := List.mem_flatMap.1 (mem_distinct.1 h)
  exact Occurrence.of_mem_importEdges he

theorem kind_of_mem_importEdges (h : e ∈ importEdges files) : e.relation.kind = .imports := by
  obtain ⟨name, hname⟩ := of_mem_importEdges h
  rw [hname]
  rfl

/-- **The edges of files** are their import edges, each with its edge back. -/
theorem edges_ofFiles (files : List SourceModule) (dependencies : List Dependency) :
    (ofFiles files dependencies).edges = (importEdges files).flatMap CrossEdge.pair := by
  have hflat : (occurrences files).flatMap (·.edges files) =
      ((occurrences files).flatMap (·.importEdges files)).flatMap CrossEdge.pair := by
    rw [List.flatMap_assoc]
    exact List.flatMap_congr fun o _ => o.edges_eq_flatMap_pair files
  have hkind : ∀ e ∈ (occurrences files).flatMap (·.importEdges files),
      e.relation.kind = .imports :=
    fun e he => kind_of_mem_importEdges (mem_distinct.2 he)
  simp only [ofFiles]
  rw [hflat, CrossEdge.distinct_flatMap_pair hkind]
  rfl

/-- The edges of links, in pairs. -/
theorem edgesOf_ofFiles (files : List SourceModule) (dependencies : List Dependency) :
    (ofFiles files dependencies).edgesOf .imports = importEdges files ∧
      (ofFiles files dependencies).edgesOf .exports = (importEdges files).map CrossEdge.back := by
  rw [edgesOf, edgesOf, edges_ofFiles]
  exact CrossEdge.filter_kind_flatMap_pair fun e => kind_of_mem_importEdges

/-- **Edges start and end at statements that exist.** -/
theorem present_of_mem_edges (h : ∀ m ∈ files, m.Analyzed)
    (he : e ∈ (ofFiles files dependencies).edges) :
    e.source.Present files ∧ e.target.Present files := by
  obtain ⟨o, ho, target, id, vertex, hleads, hvertex, found, hfound, he⟩ := mem_edges_iff.1 he
  have himporter : Site.Present files ⟨o.file, vertex⟩ := by
    obtain ⟨m, hm, hi, -⟩ := mem_occurrences_iff.1 ho
    exact ⟨m, hm, (h m (List.mem_of_getElem? hm)).hasTree.lt_size_of_import hi hvertex⟩
  have hexport : Site.Present files ⟨id, found.vertex⟩ := by
    obtain ⟨path, -, hid, -⟩ := hleads.mem_files
    obtain ⟨x, hx, hxvertex, -⟩ := exists_answers_of_mem_matchExports hfound
    rw [← hxvertex]
    exact ⟨target, hid, (h target (List.mem_of_getElem? hid)).hasTree.lt_size_of_export hx⟩
  simp only [Occurrence.edgePair, List.mem_cons, List.not_mem_nil, or_false] at he
  rcases he with rfl | rfl
  · exact ⟨himporter, hexport⟩
  · exact ⟨hexport, himporter⟩

/-! ## Finding links again -/

variable {file : FileId} {vertex : VertexId}

/-- The edges that leave a statement. -/
theorem mem_outgoing {links : Links} :
    e ∈ links.outgoing file vertex ↔ e ∈ links.edges ∧ e.source = ⟨file, vertex⟩ := by
  simp [outgoing, CrossEdge.source]

theorem mem_incoming {links : Links} :
    e ∈ links.incoming file vertex ↔ e ∈ links.edges ∧ e.target = ⟨file, vertex⟩ := by
  simp [incoming, CrossEdge.target]

theorem map_loaded (links : Links) (file : FileId) (vertex : VertexId) :
    (links.loaded file vertex).map (ModuleLink.mk file vertex) =
      links.modules.filter (·.site = ⟨file, vertex⟩) := by
  have hsite (link : ModuleLink) :
      decide (link.site = ⟨file, vertex⟩) = (link.importer = file && link.vertex = vertex) := by
    simp [ModuleLink.site]
  simp only [loaded, List.map_map, hsite]
  conv_rhs => rw [← List.map_id (links.modules.filter _)]
  refine List.map_congr_left fun link hlink => ?_
  obtain ⟨importer, v, target⟩ := link
  obtain ⟨-, hfile⟩ := List.mem_filter.1 hlink
  simp only [Bool.and_eq_true, decide_eq_true_eq] at hfile
  rw [Function.comp_apply, ← hfile.1, ← hfile.2, id]

/-- Links whose edges come in pairs and are found again from both ends. -/
structure Paired (links : Links) (files : List SourceModule) : Prop where
  /-- No edge is stored twice. -/
  nodup : links.edges.Nodup
  /-- Every edge imports or exports a name. -/
  named : ∀ e ∈ links.edges, ∃ kind name, (kind = .imports ∨ kind = .exports) ∧
    e.relation = .named kind name
  /-- The edges alternate: every import edge is followed by its edge back. -/
  alternate : links.edges = (links.edgesOf .imports).flatMap CrossEdge.pair
  /-- The export edges are those of the import edges turned round, in the same order. -/
  reciprocal : links.edgesOf .exports = (links.edgesOf .imports).map CrossEdge.back
  /-- Edges start and end at statements that exist. -/
  present : ∀ e ∈ links.edges, e.source.Present files ∧ e.target.Present files
  /-- The edges that leave a statement are found, in order. -/
  outgoing : ∀ file vertex, (links.outgoing file vertex).Sublist links.edges ∧
    ∀ e, e ∈ links.outgoing file vertex ↔ e ∈ links.edges ∧ e.source = ⟨file, vertex⟩
  /-- The edges that enter a statement are found, in order. -/
  incoming : ∀ file vertex, (links.incoming file vertex).Sublist links.edges ∧
    ∀ e, e ∈ links.incoming file vertex ↔ e ∈ links.edges ∧ e.target = ⟨file, vertex⟩
  /-- The files a statement loads are the targets of its module links, each once and in order. -/
  loaded : ∀ file vertex, (links.loaded file vertex).Nodup ∧
    (links.loaded file vertex).map (ModuleLink.mk file vertex) =
      links.modules.filter (·.site = ⟨file, vertex⟩)

end Links

/-! ## Tables -/

/-- Links as they are collected import by import. Beside the edges stand the positions of those that
leave and that enter each statement, and beside the module links the files that each statement
loads. -/
structure LinkTable where
  /-- The edges so far. -/
  edges : List CrossEdge := []
  /-- The module links so far. -/
  modules : List ModuleLink := []
  /-- The positions of the edges that leave a statement. -/
  leaving : Site → List Nat := fun _ => []
  /-- The positions of the edges that enter a statement. -/
  entering : Site → List Nat := fun _ => []
  /-- The files that a statement loads. -/
  loaded : Site → List FileId := fun _ => []

namespace LinkTable

/-- Adds an item to those of a statement. -/
def record {α : Type} (items : Site → List α) (site : Site) (item : α) : Site → List α :=
  Function.update items site (items site ++ [item])

theorem record_apply {α : Type} (items : Site → List α) (site : Site) (item : α) (s : Site) :
    record items site item s = items s ++ if site = s then [item] else [] := by
  rw [record, Function.update_apply]
  by_cases hs : s = site
  · simp [hs]
  · simp [hs, Ne.symm hs]

/-- Adds an edge, unless it is there. -/
def pushEdge (table : LinkTable) (e : CrossEdge) : LinkTable :=
  if e ∈ table.edges then table
  else
    { table with
      edges := table.edges ++ [e]
      leaving := record table.leaving e.source table.edges.length
      entering := record table.entering e.target table.edges.length }

/-- Adds a module link, unless its statement is known to load its target. -/
def pushModule (table : LinkTable) (link : ModuleLink) : LinkTable :=
  if link.target ∈ table.loaded link.site then table
  else
    { table with
      modules := table.modules ++ [link]
      loaded := record table.loaded link.site link.target }

/-- Adds what an import leads to. -/
def add (files : List SourceModule) (table : LinkTable) (o : Occurrence) : LinkTable :=
  (o.edges files).foldl pushEdge ((o.moduleLink? files).toList.foldl pushModule table)

/-- The table of all imports of some files. -/
def ofFiles (files : List SourceModule) : LinkTable :=
  (occurrences files).foldl (add files) {}

/-- The edges at some positions. -/
def edgesAt (table : LinkTable) (positions : List Nat) : List CrossEdge :=
  positions.filterMap (table.edges[·]?)

/-- The positions of the edges that satisfy a condition. -/
def positions (p : CrossEdge → Bool) (edges : List CrossEdge) : List Nat :=
  (edges.zipIdx.filter (p ·.1)).map (·.2)

variable {table : LinkTable} {links : List ModuleLink} {edges : List CrossEdge}

theorem positions_append (p : CrossEdge → Bool) (edges : List CrossEdge) (e : CrossEdge) :
    positions p (edges ++ [e]) = positions p edges ++ if p e then [edges.length] else [] := by
  rw [positions, positions, List.zipIdx_append, List.filter_append, List.map_append]
  by_cases he : p e <;> simp [he]

theorem edgesAt_positions (p : CrossEdge → Bool) (table : LinkTable) :
    table.edgesAt (positions p table.edges) = table.edges.filter p := by
  have hget : ∀ entry ∈ table.edges.zipIdx.filter (p ·.1),
      table.edges[entry.2]? = some entry.1 := fun entry hentry =>
    List.mem_zipIdx_iff_getElem?.1 (List.mem_filter.1 hentry).1
  have hfst : (table.edges.zipIdx.filter (p ·.1)).map Prod.fst = table.edges.filter p := by
    conv_rhs => rw [← List.zipIdx_map_fst 0 table.edges, List.filter_map]
    rfl
  rw [edgesAt, positions, List.filterMap_map, ← hfst, ← List.filterMap_eq_map]
  exact List.filterMap_congr fun entry hentry => hget entry hentry

/-- What a table holds after some module links and edges were pushed. -/
structure Kept (table : LinkTable) (links : List ModuleLink) (edges : List CrossEdge) : Prop where
  /-- Every edge that was pushed is stored once. -/
  edges : table.edges = distinct edges
  /-- Every module link that was pushed is stored once. -/
  modules : table.modules = distinct links
  /-- The positions of what leaves a statement are right. -/
  leaving : ∀ site, table.leaving site = positions (·.source = site) table.edges
  /-- The positions of what enters a statement are right. -/
  entering : ∀ site, table.entering site = positions (·.target = site) table.edges
  /-- The files a statement loads are those of its module links. -/
  loaded : ∀ site, table.loaded site = (table.modules.filter (·.site = site)).map (·.target)

theorem kept_empty : Kept {} [] [] :=
  ⟨rfl, rfl, fun _ => rfl, fun _ => rfl, fun _ => rfl⟩

/-- **Pushing an edge** keeps the table. -/
theorem Kept.pushEdge (h : Kept table links edges) (e : CrossEdge) :
    Kept (table.pushEdge e) links (edges ++ [e]) := by
  have hseen : e ∈ table.edges ↔ e ∈ edges := by rw [h.edges, mem_distinct]
  unfold LinkTable.pushEdge
  split
  · next he =>
    refine { h with edges := ?_ }
    rw [distinct_append_singleton, if_pos (hseen.1 he), h.edges]
  · next he =>
    refine ⟨?_, h.modules, fun site => ?_, fun site => ?_, h.loaded⟩
    · rw [distinct_append_singleton, if_neg (mt hseen.2 he), h.edges]
    · simp [record_apply, positions_append, h.leaving]
    · simp [record_apply, positions_append, h.entering]

/-- The table knows every module link. -/
theorem Kept.mem_loaded_iff (h : Kept table links edges) {link : ModuleLink} :
    link.target ∈ table.loaded link.site ↔ link ∈ links := by
  rw [h.loaded, h.modules]
  simp only [List.mem_map, List.mem_filter, mem_distinct, decide_eq_true_eq]
  constructor
  · rintro ⟨⟨importer, vertex, target⟩, ⟨hlink, hsite⟩, htarget⟩
    cases link
    cases hsite
    cases htarget
    exact hlink
  · exact fun hlink => ⟨link, ⟨hlink, rfl⟩, rfl⟩

/-- **Pushing a module link** keeps the table. -/
theorem Kept.pushModule (h : Kept table links edges) (link : ModuleLink) :
    Kept (table.pushModule link) (links ++ [link]) edges := by
  unfold LinkTable.pushModule
  split
  · next hlink =>
    refine { h with modules := ?_ }
    rw [distinct_append_singleton, if_pos (h.mem_loaded_iff.1 hlink), h.modules]
  · next hlink =>
    refine ⟨h.edges, ?_, h.leaving, h.entering, fun site => ?_⟩
    · rw [distinct_append_singleton, if_neg (mt h.mem_loaded_iff.2 hlink), h.modules]
    · by_cases hsite : link.site = site <;> simp [record_apply, hsite, h.loaded]

theorem Kept.foldl_pushEdge (h : Kept table links edges) (more : List CrossEdge) :
    Kept (more.foldl LinkTable.pushEdge table) links (edges ++ more) := by
  induction more generalizing table edges with
  | nil => simpa using h
  | cons e rest ih => simpa using ih (h.pushEdge e)

theorem Kept.foldl_pushModule (h : Kept table links edges) (more : List ModuleLink) :
    Kept (more.foldl LinkTable.pushModule table) (links ++ more) edges := by
  induction more generalizing table links with
  | nil => simpa using h
  | cons link rest ih => simpa using ih (h.pushModule link)

theorem Kept.foldl_add (h : Kept table links edges) (files : List SourceModule)
    (imports : List Occurrence) :
    Kept (imports.foldl (add files) table) (links ++ imports.filterMap (·.moduleLink? files))
      (edges ++ imports.flatMap (·.edges files)) := by
  induction imports generalizing table links edges with
  | nil => simpa using h
  | cons o rest ih =>
    have hadd := (h.foldl_pushModule (o.moduleLink? files).toList).foldl_pushEdge (o.edges files)
    have hlinks : (o :: rest).filterMap (·.moduleLink? files) =
        (o.moduleLink? files).toList ++ rest.filterMap (·.moduleLink? files) := by
      cases hlink : o.moduleLink? files <;> simp [hlink]
    rw [hlinks, List.flatMap_cons, ← List.append_assoc, ← List.append_assoc]
    exact ih hadd

/-- **The table of files** holds what their imports lead to. -/
theorem kept_ofFiles (files : List SourceModule) :
    Kept (ofFiles files) ((occurrences files).filterMap (·.moduleLink? files))
      ((occurrences files).flatMap (·.edges files)) :=
  kept_empty.foldl_add files (occurrences files)

/-- A table holds given links and gives their answers. -/
structure Represents (table : LinkTable) (links : Links) : Prop where
  /-- The edges are the same. -/
  edges : table.edges = links.edges
  /-- The module links are the same. -/
  modules : table.modules = links.modules
  /-- The edges that leave a statement are the same. -/
  outgoing : ∀ file vertex,
    table.edgesAt (table.leaving ⟨file, vertex⟩) = links.outgoing file vertex
  /-- The edges that enter a statement are the same. -/
  incoming : ∀ file vertex,
    table.edgesAt (table.entering ⟨file, vertex⟩) = links.incoming file vertex
  /-- The files that a statement loads are the same. -/
  loaded : ∀ file vertex, table.loaded ⟨file, vertex⟩ = links.loaded file vertex

/-- **The tables represent the links.** -/
theorem represents_ofFiles (files : List SourceModule) (dependencies : List Dependency) :
    (ofFiles files).Represents (.ofFiles files dependencies) := by
  have hkept := kept_ofFiles files
  refine ⟨hkept.edges, hkept.modules, fun file vertex => ?_, fun file vertex => ?_,
    fun file vertex => ?_⟩
  · rw [hkept.leaving, edgesAt_positions, hkept.edges]
    exact List.filter_congr fun e _ => by simp [CrossEdge.source]
  · rw [hkept.entering, edgesAt_positions, hkept.edges]
    exact List.filter_congr fun e _ => by simp [CrossEdge.target]
  · rw [hkept.loaded, hkept.modules]
    exact congrArg (List.map _) (List.filter_congr fun e _ => by simp [ModuleLink.site])

end LinkTable

namespace Links

variable {files : List SourceModule}

/-- **The links of analyzed files are paired.** Their edges are stored once each, and they alternate:
each import edge stands before its edge back, through the same name, between statements that exist.
What leaves and enters a statement and what it loads is found in order. Collecting the links import
by import, with positions kept beside them, gives the same edges, module links and answers. -/
theorem paired_ofFiles (h : ∀ m ∈ files, m.Analyzed) (dependencies : List Dependency) :
    (ofFiles files dependencies).Paired files ∧
      (LinkTable.ofFiles files).Represents (ofFiles files dependencies) := by
  obtain ⟨himports, hexports⟩ := edgesOf_ofFiles files dependencies
  refine ⟨⟨nodup_distinct _, fun e he => ?_, ?_, ?_, fun e => present_of_mem_edges h,
    fun file vertex => ⟨List.filter_sublist, fun e => mem_outgoing⟩,
    fun file vertex => ⟨List.filter_sublist, fun e => mem_incoming⟩, fun file vertex => ?_⟩,
    LinkTable.represents_ofFiles files dependencies⟩
  · rw [edges_ofFiles] at he
    obtain ⟨e', he', hpair⟩ := List.mem_flatMap.1 he
    obtain ⟨name, hname⟩ := of_mem_importEdges he'
    rcases List.mem_pair.1 hpair with rfl | rfl
    · exact ⟨.imports, name, .inl rfl, hname⟩
    · refine ⟨.exports, name, .inr rfl, ?_⟩
      rw [CrossEdge.back, hname]
      rfl
  · rw [himports, edges_ofFiles]
  · rw [himports, hexports]
  · have hlinks := map_loaded (ofFiles files dependencies) file vertex
    refine ⟨List.Nodup.of_map (ModuleLink.mk file vertex) ?_, hlinks⟩
    rw [hlinks]
    exact (nodup_distinct _).filter _

/-- A file that exports all that it exports itself, and a file that imports one name from it twice:
`export * from './a';` and `import { x, x as y } from './a';`. -/
def exportOfItself : List SourceText :=
  let exporting : Node :=
    .of (.other "program") 0 20
      [.of .exportStatement 0 20
         [.token "export" 0 6, .token "*" 7 8, .token "from" 9 13,
          .part .source (.quoted "'" 14 19), .token ";" 19 20]]
  let names : Node :=
    .of .namedImports 7 20
      [.token "\x7b" 7 8, .of .importSpecifier 9 10 [.part .name (.of .identifier 9 10)],
       .token "," 10 11,
       .of .importSpecifier 12 18
         [.part .name (.of .identifier 12 13), .token "as" 14 16,
          .part .aliased (.of .identifier 17 18)],
       .token "\x7d" 19 20]
  let importing : Node :=
    .of (.other "program") 0 32
      [.of .importStatement 0 32
         [.keyword .importToken 0 6, .of .importClause 7 20 [names], .token "from" 21 25,
          .part .source (.quoted "'" 26 31), .token ";" 31 32]]
  [{ path := ⟨"/a.js"⟩, text := some "export * from './a';", tree := some exporting },
   { path := ⟨"/b.js"⟩, text := some "import \x7b x, x as y \x7d from './a';"
     tree := some importing }]

/-- The statement that imports itself has an edge and an edge back, and the name that is imported
twice gives one pair. -/
theorem paired_exportOfItself :
    let files := (Project.ofSources {} none exportOfItself).files
    (∀ m ∈ files, m.Analyzed) ∧
    ((ofFiles files []).Paired files ∧ (LinkTable.ofFiles files).Represents (ofFiles files [])) ∧
    (ofFiles files []).edges =
      [⟨0, 0, 0, 0, .named .imports "*"⟩, ⟨0, 0, 0, 0, .named .exports "*"⟩,
       ⟨1, 0, 0, 0, .named .imports "x"⟩, ⟨0, 0, 1, 0, .named .exports "x"⟩] := by
  intro files
  have hanalyzed : ∀ m ∈ files, m.Analyzed := fun m => Project.analyzed_of_mem_files
  exact ⟨hanalyzed, paired_ofFiles hanalyzed [], by decide +kernel⟩

end Links

end DeadCode
