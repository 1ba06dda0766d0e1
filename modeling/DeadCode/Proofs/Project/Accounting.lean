import DeadCode.Project.Basic
import DeadCode.Proofs.Module.Basic
import Mathlib.Data.List.Basic

/-! # Every import is accounted for

An import is from a package, or it stays unresolved for one reason, or it is linked. Here each of
the three is said in terms of the files alone, and the links of a project are shown to keep account
of them: nothing is lost, nothing is counted twice, and no link is made up. -/

namespace DeadCode

/-! ## First occurrences -/

/-- Leaving out repetitions keeps the elements. -/
@[simp] theorem mem_distinct {α : Type} [DecidableEq α] {x : α} {xs : List α} :
    x ∈ distinct xs ↔ x ∈ xs := by
  unfold distinct
  induction xs with
  | nil => simp [distinctBy]
  | cons y rest ih =>
    rw [distinctBy, List.mem_cons, List.mem_filter, ih, List.mem_cons]
    by_cases hxy : x = y <;> simp [hxy]

/-- Nothing is left twice. -/
theorem nodup_distinct {α : Type} [DecidableEq α] (xs : List α) : (distinct xs).Nodup := by
  unfold distinct
  induction xs with
  | nil => exact List.nodup_nil
  | cons y rest ih =>
    rw [distinctBy, List.nodup_cons]
    exact ⟨by simp, ih.filter _⟩

/-- An element is added once. -/
theorem distinct_append_singleton {α : Type} [DecidableEq α] (xs : List α) (x : α) :
    distinct (xs ++ [x]) = if x ∈ xs then distinct xs else distinct xs ++ [x] := by
  unfold distinct
  induction xs with
  | nil => rfl
  | cons y rest ih =>
    rw [List.cons_append, distinctBy, ih, distinctBy]
    by_cases hxy : x = y
    · subst hxy
      split <;> simp
    · by_cases hrest : x ∈ rest <;> simp [hrest, hxy]

/-- Injective maps keep repetitions apart. -/
theorem distinct_map {α β : Type} [DecidableEq α] [DecidableEq β] {f : α → β}
    (hf : Function.Injective f) (xs : List α) : distinct (xs.map f) = (distinct xs).map f := by
  unfold distinct
  induction xs with
  | nil => rfl
  | cons x rest ih =>
    rw [List.map_cons, distinctBy, ih, List.filter_map, distinctBy, List.map_cons]
    simp [Function.comp_def, hf.eq_iff]

/-! ## From a path to a file -/

/-- A file lies at a canonical path: it has that path, or it is the `index` file there. -/
def SourceModule.LiesAt (m : SourceModule) (path : Path) : Prop :=
  m.canonical.Same path ∨ m.canonical.Same (path.child "index")

variable {files : List SourceModule} {path : Path} {target m : SourceModule} {id : FileId}

/-- The files at a path, with their numbers. -/
theorem mem_filesAt :
    (m, id) ∈ filesAt files path ↔ files[id]? = some m ∧ m.canonical.Same path := by
  simp [filesAt, List.mem_zipIdx_iff_getElem?]

/-- No file lies at a path at which none is found. -/
theorem filesAt_eq_nil :
    filesAt files path = [] ↔ ∀ m ∈ files, ¬ m.canonical.Same path := by
  rw [List.eq_nil_iff_forall_not_mem]
  constructor
  · intro h m hm hsame
    obtain ⟨id, hid⟩ := List.getElem?_of_mem hm
    exact h (m, id) (mem_filesAt.2 ⟨hid, hsame⟩)
  · rintro h ⟨m, id⟩ hmem
    obtain ⟨hid, hsame⟩ := mem_filesAt.1 hmem
    exact h m (List.mem_of_getElem? hid) hsame

/-- There is no candidate if no file lies at the path. -/
theorem candidates_eq_nil : candidates files path = [] ↔ ∀ m ∈ files, ¬ m.LiesAt path := by
  have hsplit : candidates files path = [] ↔
      filesAt files path = [] ∧ filesAt files (path.child "index") = [] := by
    unfold candidates
    cases filesAt files path <;> simp
  rw [hsplit, filesAt_eq_nil, filesAt_eq_nil, ← forall₂_and]
  simp only [SourceModule.LiesAt, not_or]

/-- A candidate is a file that lies at the path. -/
theorem of_mem_candidates (h : (m, id) ∈ candidates files path) :
    files[id]? = some m ∧ m.LiesAt path := by
  unfold candidates at h
  split at h
  · obtain ⟨hid, hsame⟩ := mem_filesAt.1 h
    exact ⟨hid, .inr hsame⟩
  · obtain ⟨hid, hsame⟩ := mem_filesAt.1 h
    exact ⟨hid, .inl hsame⟩

/-! ## The candidate that is chosen -/

variable {specifier : String} {found : List (SourceModule × FileId)}
  {candidate : SourceModule × FileId}

/-- **The best ranked candidate is the first of those with the least rank.** -/
theorem foldl_betterRanked_spec (first : SourceModule × FileId)
    (rest : List (SourceModule × FileId)) :
    ∃ before after, first :: rest = before ++ rest.foldl betterRanked first :: after ∧
      (∀ d ∈ before,
        extensionRank (rest.foldl betterRanked first).1.path < extensionRank d.1.path) ∧
      ∀ d ∈ after,
        extensionRank (rest.foldl betterRanked first).1.path ≤ extensionRank d.1.path := by
  -- The first candidate is the best so far, and changes on the way.
  induction rest generalizing first with
  | nil => exact ⟨[], [], rfl, by simp, by simp⟩
  | cons next rest ih =>
    rw [List.foldl_cons]
    by_cases hlt : extensionRank next.1.path < extensionRank first.1.path
    · have hbetter : betterRanked first next = next := if_pos hlt
      obtain ⟨before, after, hsplit, hbefore, hafter⟩ := ih next
      rw [hbetter]
      generalize rest.foldl betterRanked next = best at *
      refine ⟨first :: before, after, by rw [List.cons_append, ← hsplit], ?_, hafter⟩
      refine List.forall_mem_cons.2 ⟨Nat.lt_of_le_of_lt ?_ hlt, hbefore⟩
      cases before with
      | nil =>
        obtain ⟨rfl, -⟩ := List.cons.inj hsplit
        exact Nat.le_refl _
      | cons b before =>
        obtain ⟨rfl, -⟩ := List.cons.inj hsplit
        exact Nat.le_of_lt (hbefore next List.mem_cons_self)
    · have hbetter : betterRanked first next = first := if_neg hlt
      obtain ⟨before, after, hsplit, hbefore, hafter⟩ := ih first
      rw [hbetter]
      generalize rest.foldl betterRanked first = best at *
      have hnext := Nat.le_of_not_lt hlt
      cases before with
      | nil =>
        obtain ⟨rfl, rfl⟩ := List.cons.inj hsplit
        exact ⟨[], next :: rest, rfl, by simp, List.forall_mem_cons.2 ⟨hnext, hafter⟩⟩
      | cons b before =>
        obtain ⟨rfl, rfl⟩ := List.cons.inj hsplit
        obtain ⟨hfirst, hbefore⟩ := List.forall_mem_cons.1 hbefore
        refine ⟨first :: next :: before, after, rfl, ?_, hafter⟩
        exact List.forall_mem_cons.2
          ⟨hfirst, List.forall_mem_cons.2 ⟨Nat.lt_of_lt_of_le hfirst hnext, hbefore⟩⟩

/-- The best ranked candidate is a candidate. -/
theorem mem_of_bestRanked (h : bestRanked found = some candidate) : candidate ∈ found := by
  cases found with
  | nil => cases h
  | cons first rest =>
    obtain ⟨before, after, hsplit, -⟩ := foldl_betterRanked_spec first rest
    rw [← Option.some.inj h, hsplit]
    exact List.mem_append_right _ List.mem_cons_self

/-- The file that is chosen is a candidate. -/
theorem mem_of_chooseTarget (h : chooseTarget specifier found = some candidate) :
    candidate ∈ found := by
  rcases Option.or_eq_some_iff.1 h with h | ⟨-, h⟩
  · exact List.mem_of_find?_eq_some h
  · exact mem_of_bestRanked h

/-- One is chosen if there are candidates. -/
theorem chooseTarget_eq_none : chooseTarget specifier found = none ↔ found = [] := by
  unfold chooseTarget
  cases found <;> simp [bestRanked]

/-! ## What becomes of an import -/

namespace Import

/-- The file that a relative import means, with its index: the one chosen among those that lie at
the path. -/
def LeadsTo (files : List SourceModule) (i : Import) (target : SourceModule) (id : FileId) : Prop :=
  ∃ path, i.target = .relative path ∧
    chooseTarget i.source (candidates files path) = some (target, id)

/-- The reasons why a relative import stays unresolved. -/
inductive Unresolved (files : List SourceModule) (i : Import) : UnresolvedReason → Prop where
  /-- No file lies at the path. -/
  | missingModule {path : Path} (hrelative : i.target = .relative path)
      (hnone : ∀ m ∈ files, ¬ m.LiesAt path) : Unresolved files i .missingModule
  /-- There is a file, but no statement carries the import. -/
  | detached {target : SourceModule} {id : FileId} (hleads : i.LeadsTo files target id)
      (hvertex : i.vertex = none) : Unresolved files i .detached
  /-- A statement asks for one export of the file, and the file has nothing to match it. -/
  | missingExport {target : SourceModule} {id : FileId} {vertex : VertexId}
      (hleads : i.LeadsTo files target id) (hvertex : i.vertex = some vertex)
      (hone : i.imported.exportName?.isSome) (hnone : matchExports i.imported target = []) :
      Unresolved files i .missingExport

/-- A relative import is linked: a statement carries it, it leads to a file, and if it asks for one
export the file has something to match it. -/
def Linked (files : List SourceModule) (i : Import) : Prop :=
  ∃ target id vertex, i.LeadsTo files target id ∧ i.vertex = some vertex ∧
    (i.imported.exportName?.isSome → matchExports i.imported target ≠ [])

variable {i : Import} {vertex : VertexId}

/-- The file an import leads to lies at its path. -/
theorem LeadsTo.mem_files (h : i.LeadsTo files target id) :
    ∃ path, i.target = .relative path ∧ files[id]? = some target ∧ target.LiesAt path := by
  obtain ⟨path, hrelative, hchosen⟩ := h
  exact ⟨path, hrelative, of_mem_candidates (mem_of_chooseTarget hchosen)⟩

/-- An import leads to one file at most. -/
theorem LeadsTo.unique {target' : SourceModule} {id' : FileId} (h : i.LeadsTo files target id)
    (h' : i.LeadsTo files target' id') : target' = target ∧ id' = id := by
  obtain ⟨path, hrelative, hchosen⟩ := h
  obtain ⟨path', hrelative', hchosen'⟩ := h'
  rw [hrelative] at hrelative'
  cases hrelative'
  rw [hchosen] at hchosen'
  cases hchosen'
  exact ⟨rfl, rfl⟩

/-- An import leads nowhere if no file lies at its path. -/
theorem not_leadsTo_iff (hrelative : i.target = .relative path) :
    (¬ ∃ target id, i.LeadsTo files target id) ↔ ∀ m ∈ files, ¬ m.LiesAt path := by
  rw [← candidates_eq_nil, ← @chooseTarget_eq_none i.source,
    Option.eq_none_iff_forall_ne_some]
  constructor
  · rintro h ⟨target, id⟩ hchosen
    exact h ⟨target, id, path, hrelative, hchosen⟩
  · rintro h ⟨target, id, path', hrelative', hchosen⟩
    rw [hrelative] at hrelative'
    cases hrelative'
    exact h _ hchosen

end Import

/-! ## The resolution of an import -/

namespace Resolution

variable {i : Import} {vertex : VertexId} {matched : List Match}

/-- An import of a package. -/
theorem ofImport_of_package {name : String} {builtin : Bool} (h : i.target = .package name builtin) :
    ofImport files i = .package name := by
  rw [ofImport, h]

/-- An import that leads nowhere. -/
theorem ofImport_of_missing (hrelative : i.target = .relative path)
    (h : ∀ m ∈ files, ¬ m.LiesAt path) : ofImport files i = .missing := by
  simp only [ofImport, hrelative, chooseTarget_eq_none.2 (candidates_eq_nil.2 h)]

/-- An import without a statement. -/
theorem ofImport_of_detached (h : i.LeadsTo files target id) (hvertex : i.vertex = none) :
    ofImport files i = .detached := by
  obtain ⟨path, hrelative, hchosen⟩ := h
  simp only [ofImport, hrelative, hchosen, hvertex]

/-- An import that leads to a file. -/
theorem ofImport_of_leadsTo (h : i.LeadsTo files target id) (hvertex : i.vertex = some vertex) :
    ofImport files i = .loaded vertex id (matchExports i.imported target) := by
  obtain ⟨path, hrelative, hchosen⟩ := h
  simp only [ofImport, hrelative, hchosen, hvertex]

/-- **The four ways of an import**, each with the resolution it gets. -/
theorem ofImport_cases (files : List SourceModule) (i : Import) :
    (∃ name, i.packageName? = some name ∧ ofImport files i = .package name) ∨
    (i.Unresolved files .missingModule ∧ ofImport files i = .missing) ∨
    (i.Unresolved files .detached ∧ ofImport files i = .detached) ∨
    ∃ target id vertex, i.LeadsTo files target id ∧ i.vertex = some vertex ∧
      ofImport files i = .loaded vertex id (matchExports i.imported target) := by
  cases htarget : i.target with
  | package name builtin =>
    exact .inl ⟨name, by rw [Import.packageName?, htarget], ofImport_of_package htarget⟩
  | relative path =>
    right
    by_cases hleads : ∃ target id, i.LeadsTo files target id
    · right
      obtain ⟨target, id, hleads⟩ := hleads
      cases hvertex : i.vertex with
      | none => exact .inl ⟨.detached hleads hvertex, ofImport_of_detached hleads hvertex⟩
      | some vertex =>
        exact .inr ⟨target, id, vertex, hleads, rfl, ofImport_of_leadsTo hleads hvertex⟩
    · have hnone := (Import.not_leadsTo_iff htarget).1 hleads
      exact .inl ⟨.missingModule htarget hnone, ofImport_of_missing htarget hnone⟩

/-- The imports that are linked, and to what. -/
theorem ofImport_eq_loaded_iff :
    ofImport files i = .loaded vertex id matched ↔
      ∃ target, i.LeadsTo files target id ∧ i.vertex = some vertex ∧
        matched = matchExports i.imported target := by
  constructor
  · intro h
    obtain ⟨_, -, hr⟩ | ⟨-, hr⟩ | ⟨-, hr⟩ | ⟨target, _, _, hleads, hvertex, hr⟩ :=
      ofImport_cases files i <;> rw [h] at hr <;> cases hr
    exact ⟨target, hleads, hvertex, rfl⟩
  · rintro ⟨target, hleads, hvertex, rfl⟩
    exact ofImport_of_leadsTo hleads hvertex

end Resolution

namespace Occurrence

variable {o : Occurrence} {reason : UnresolvedReason}

/-- **The reason that is recorded** is the one for which the import is unresolved. -/
theorem unresolvedReason?_eq_some_iff :
    o.unresolvedReason? files = some reason ↔ o.item.Unresolved files reason := by
  constructor
  · intro h
    obtain ⟨_, -, hr⟩ | ⟨hmissing, hr⟩ | ⟨hdetached, hr⟩ | ⟨target, id, vertex, hleads, hvertex, hr⟩ :=
      Resolution.ofImport_cases files o.item <;>
      simp only [unresolvedReason?, resolution, hr] at h
    · cases h
    · cases h
      exact hmissing
    · cases h
      exact hdetached
    · split at h
      · next hnone =>
        cases h
        rw [Bool.and_eq_true, List.isEmpty_iff] at hnone
        exact .missingExport hleads hvertex hnone.2 hnone.1
      · cases h
  · intro h
    cases h with
    | missingModule hrelative hnone =>
      rw [unresolvedReason?, resolution, Resolution.ofImport_of_missing hrelative hnone]
    | detached hleads hvertex =>
      rw [unresolvedReason?, resolution, Resolution.ofImport_of_detached hleads hvertex]
    | missingExport hleads hvertex hone hnone =>
      rw [unresolvedReason?, resolution, Resolution.ofImport_of_leadsTo hleads hvertex, hnone]
      simp [hone]

/-- The imports that stay unresolved can be told from the others. -/
instance (files : List SourceModule) (i : Import) : Decidable (∃ reason, i.Unresolved files reason) :=
  decidable_of_iff ((Occurrence.mk 0 ⟨""⟩ i).unresolvedReason? files).isSome <| by
    rw [Option.isSome_iff_exists]
    exact exists_congr fun _ => unresolvedReason?_eq_some_iff

end Occurrence

namespace Import

variable {i : Import} {reason reason' : UnresolvedReason}

/-- An import is unresolved for one reason. -/
theorem Unresolved.unique (h : i.Unresolved files reason) (h' : i.Unresolved files reason') :
    reason' = reason := by
  rw [← Occurrence.unresolvedReason?_eq_some_iff (o := ⟨0, ⟨""⟩, i⟩)] at h h'
  rw [h] at h'
  exact (Option.some.inj h').symm

/-- **No import is lost.** -/
theorem accounted (files : List SourceModule) (i : Import) :
    i.packageName?.isSome ∨ (∃ reason, i.Unresolved files reason) ∨ i.Linked files := by
  obtain ⟨name, hname, -⟩ | ⟨hmissing, -⟩ | ⟨hdetached, -⟩ | ⟨target, id, vertex, hleads, hvertex, -⟩ :=
    Resolution.ofImport_cases files i
  · exact .inl (by rw [hname]; rfl)
  · exact .inr (.inl ⟨_, hmissing⟩)
  · exact .inr (.inl ⟨_, hdetached⟩)
  · by_cases hnone : i.imported.exportName?.isSome ∧ matchExports i.imported target = []
    · exact .inr (.inl ⟨_, .missingExport hleads hvertex hnone.1 hnone.2⟩)
    · exact .inr (.inr ⟨target, id, vertex, hleads, hvertex, not_and.1 hnone⟩)

end Import

/-! ## The exports an import is linked to -/

/-- An export of a file answers an import, under a label. An import of the whole module takes every
export as it is named. A name takes an export of that very name, or what stands for everything
another module exports; and the default import of a file that exports by assignment takes all. -/
inductive Export.Answers (target : SourceModule) (e : Export) (imported : ImportedName) :
    String → Prop where
  | whole (h : imported = .whole) : Answers target e imported e.name
  | named (h : imported.exportName? = some e.name) : Answers target e imported e.name
  | star {name : String} (h : imported.exportName? = some name) (hstar : e.name = "*") :
      Answers target e imported name
  | assigned (h : imported.exportName? = some "default")
      (hassigned : ∃ a ∈ target.exports, a.commonJs) : Answers target e imported e.name

/-- All exports of a file, under their own names. -/
theorem mem_allExports {found : Match} :
    found ∈ allExports target ↔
      ∃ e ∈ target.exports, found = { name := e.name, vertex := e.vertex } := by
  unfold allExports
  rw [List.mem_map]
  exact exists_congr fun e => and_congr_right fun _ => eq_comm

/-- **Only exports that answer an import are matched to it.** -/
theorem exists_answers_of_mem_matchExports {imported : ImportedName} {found : Match}
    (h : found ∈ matchExports imported target) :
    ∃ e ∈ target.exports, e.vertex = found.vertex ∧ e.Answers target imported found.name := by
  unfold matchExports at h
  split at h
  · split at h
    · next hwhole =>
      obtain ⟨e, he, rfl⟩ := mem_allExports.1 h
      exact ⟨e, he, rfl, .whole hwhole⟩
    · cases h
  · next name hname =>
    split at h
    · -- The first export of that name.
      next e he =>
      rw [List.mem_singleton] at h
      have hnamed : e.name = name := by simpa using List.find?_some he
      rw [h]
      refine ⟨e, List.mem_of_find?_eq_some he, rfl, .named ?_⟩
      rw [hname, hnamed]
    · split at h
      · next hassigned =>
        simp only [Bool.and_eq_true, decide_eq_true_eq, List.any_eq_true] at hassigned
        obtain ⟨e, he, rfl⟩ := mem_allExports.1 h
        refine ⟨e, he, rfl, .assigned ?_ hassigned.2⟩
        rw [hname, hassigned.1]
      · obtain ⟨e, he, rfl⟩ := List.mem_map.1 h
        obtain ⟨he, hstar⟩ := List.mem_filter.1 he
        exact ⟨e, he, rfl, .star hname (by simpa [Export.isStar] using hstar)⟩

/-! ## The exports named `*` -/

namespace Node

variable {source : String} {n : Node}

/-- A statement is `export * from`: the star is one of its children. -/
def isExportAll (n : Node) : Bool :=
  n.kind = .exportStatement && n.children.any (·.kind = .other "*")

/-- An `export` statement of another module lists no name: `export * from`, but also
`export {} from`. -/
def ListsNothing (source : String) (n : Node) : Prop :=
  n.kind = .exportStatement ∧ (n.child? .source).isSome ∧
    n.namedChildren.flatMap (·.clauseExports source true) = []

/-- The names under which a statement at the top of a file exports something. -/
def exportedNames (source : String) (n : Node) : List String :=
  match n.kind with
  | .exportStatement => (n.statementExports source).map Prod.fst
  | .expressionStatement => (n.expressionExports source).map Prod.fst
  | _ => []

/-- The names that an `export` statement lists, in a declaration or in a clause. -/
def listedNames (source : String) (n : Node) : List String :=
  match n.child? .declaration with
  | some declaration => declaration.declarationNames source
  | none => n.namedChildren.flatMap fun part => (part.clauseExports source true).map Prod.fst

/-- A statement spells the name `*` for something it exports, as `exports['*'] = 1` does. -/
def SpellsStar (source : String) (n : Node) : Prop :=
  n.kind = .exportStatement ∧ "*" ∈ n.listedNames source ∨
    n.kind = .expressionStatement ∧ "*" ∈ (n.expressionExports source).map Prod.fst

end Node

namespace SourceModule

/-- A file is the model of a tree of a text. -/
def IsModel (target : SourceModule) (source : String) (root : Node) : Prop :=
  ∃ path language ambient, ofTree path source language root ambient = .ok target

/-- A file has an answer of its own to a name: an export of that name, or, for the default, anything
if it exports by assignment. -/
def Offers (target : SourceModule) (name : String) : Prop :=
  (∃ e ∈ target.exports, e.name = name) ∨ name = "default" ∧ ∃ e ∈ target.exports, e.commonJs

/-- A statement of a file is `export * from`. -/
def ExportsAll (target : SourceModule) (root : Node) (v : VertexId) : Prop :=
  ∃ n ∈ root.namedChildren, n.isExportAll ∧ target.graph.vertexByKey? n.key = some v

end SourceModule

/-- The imports of all files, with where they stand. -/
theorem mem_occurrences_iff {o : Occurrence} :
    o ∈ occurrences files ↔
      ∃ m, files[o.file]? = some m ∧ o.item ∈ m.imports ∧ o.path = m.path := by
  constructor
  · intro h
    obtain ⟨⟨m, id⟩, hm, ho⟩ := List.mem_flatMap.1 h
    obtain ⟨i, hi, rfl⟩ := List.mem_map.1 ho
    exact ⟨m, List.mem_zipIdx_iff_getElem?.1 hm, hi, rfl⟩
  · rintro ⟨m, hm, hi, hpath⟩
    refine List.mem_flatMap.2 ⟨(m, o.file), List.mem_zipIdx_iff_getElem?.2 hm, ?_⟩
    exact List.mem_map.2 ⟨o.item, hi, by rw [← hpath]⟩

namespace Links

variable {dependencies : List Dependency} {o : Occurrence} {vertex : VertexId}

/-- **The module links** are those of the imports that lead to a file. -/
theorem mem_modules_iff {link : ModuleLink} :
    link ∈ (ofFiles files dependencies).modules ↔
      ∃ o ∈ occurrences files, ∃ target, o.item.LeadsTo files target link.target ∧
        o.item.vertex = some link.vertex ∧ o.file = link.importer := by
  have hlink (o : Occurrence) : o.moduleLink? files = some link ↔
      ∃ matched, o.resolution files = .loaded link.vertex link.target matched ∧
        o.file = link.importer := by
    unfold Occurrence.moduleLink?
    cases o.resolution files with
    | loaded vertex id matched =>
      cases link
      simp only [Option.some.injEq, ModuleLink.mk.injEq, Resolution.loaded.injEq]
      constructor
      · rintro ⟨rfl, rfl, rfl⟩
        exact ⟨matched, ⟨rfl, rfl, rfl⟩, rfl⟩
      · rintro ⟨_, ⟨rfl, rfl, rfl⟩, rfl⟩
        exact ⟨rfl, rfl, rfl⟩
    | _ => simp
  simp only [ofFiles, mem_distinct, List.mem_filterMap, hlink, Occurrence.resolution,
    Resolution.ofImport_eq_loaded_iff]
  refine exists_congr fun o => and_congr_right fun _ => ?_
  constructor
  · rintro ⟨_, ⟨target, hleads, hvertex, -⟩, hfile⟩
    exact ⟨target, hleads, hvertex, hfile⟩
  · rintro ⟨target, hleads, hvertex, hfile⟩
    exact ⟨_, ⟨target, hleads, hvertex, rfl⟩, hfile⟩

/-- **The edges of links** are those of the exports that imports ask for. -/
theorem mem_edges_iff {e : CrossEdge} :
    e ∈ (ofFiles files dependencies).edges ↔
      ∃ o ∈ occurrences files, ∃ target id vertex, o.item.LeadsTo files target id ∧
        o.item.vertex = some vertex ∧ ∃ found ∈ matchExports o.item.imported target,
          e ∈ Occurrence.edgePair o.file vertex id found := by
  simp only [ofFiles, mem_distinct, List.mem_flatMap]
  refine exists_congr fun o => and_congr_right fun _ => ?_
  constructor
  · intro h
    unfold Occurrence.edges at h
    split at h
    · next vertex id matched hloaded =>
      obtain ⟨target, hleads, hvertex, rfl⟩ := Resolution.ofImport_eq_loaded_iff.1 hloaded
      exact ⟨target, id, vertex, hleads, hvertex, List.mem_flatMap.1 h⟩
    · cases h
  · rintro ⟨target, id, vertex, hleads, hvertex, hfound⟩
    rw [Occurrence.edges, Occurrence.resolution, Resolution.ofImport_of_leadsTo hleads hvertex]
    exact List.mem_flatMap.2 hfound

/-- Links keep account of the imports of files. -/
structure Accounts (links : Links) (files : List SourceModule) : Prop where
  /-- Every import is from a package, unresolved, or linked. -/
  complete : ∀ o ∈ occurrences files,
    o.item.packageName?.isSome ∨ (∃ reason, o.item.Unresolved files reason) ∨ o.item.Linked files
  /-- No import is two of these, and none is unresolved for two reasons. -/
  exclusive : ∀ o ∈ occurrences files,
    (o.item.Linked files → o.item.packageName? = none) ∧
    ∀ reason, o.item.Unresolved files reason → o.item.packageName? = none ∧ ¬ o.item.Linked files ∧
      ∀ reason', o.item.Unresolved files reason' → reason' = reason
  /-- The records of unresolved imports are one for each of them, in the order of the files and of
  the imports in them, with the reason why it is unresolved. -/
  records : ∃ left : List (Occurrence × UnresolvedReason),
    left.map Prod.fst =
      (occurrences files).filter (fun o => ∃ reason, o.item.Unresolved files reason) ∧
    (∀ entry ∈ left, entry.1.item.Unresolved files entry.2) ∧
    links.unresolved = left.map fun entry => entry.1.unresolvedFor entry.2
  /-- An import leads to a file of the project that lies at its path. -/
  existing : ∀ o ∈ occurrences files, ∀ target id, o.item.LeadsTo files target id →
    ∃ path, o.item.target = .relative path ∧ files[id]? = some target ∧ target.LiesAt path
  /-- A statement whose import leads to a file loads the file, and has an edge to each export matched
  to the import and an edge back. -/
  linked : ∀ o ∈ occurrences files, ∀ target id vertex, o.item.LeadsTo files target id →
    o.item.vertex = some vertex →
      { importer := o.file, vertex, target := id } ∈ links.modules ∧
      ∀ found ∈ matchExports o.item.imported target,
        Occurrence.edgePair o.file vertex id found ⊆ links.edges
  /-- Every module link stems from an import that leads there. -/
  of_module : ∀ link ∈ links.modules, ∃ o ∈ occurrences files, ∃ target,
    o.item.LeadsTo files target link.target ∧ o.item.vertex = some link.vertex ∧
      o.file = link.importer
  /-- An export named `*` is that of a statement that names another module and lists nothing of it, or
  of one that spells this name. -/
  star : ∀ target ∈ files, ∀ source root, target.IsModel source root → ∀ e ∈ target.exports,
    e.name = "*" → ∃ n ∈ root.namedChildren, target.graph.vertexByKey? n.key = some e.vertex ∧
      (n.ListsNothing source ∨ n.SpellsStar source)
  /-- A name that a file has no answer to is linked to nothing but `export *` statements exactly if all
  statements that export the name `*` are such statements. -/
  unanswered : ∀ o ∈ occurrences files, ∀ target id name source root,
    o.item.LeadsTo files target id → o.item.imported.exportName? = some name →
    target.IsModel source root → ¬ target.Offers name →
    ((∀ found ∈ matchExports o.item.imported target, target.ExportsAll root found.vertex) ↔
      ∀ n ∈ root.namedChildren, ∀ v, target.graph.vertexByKey? n.key = some v →
        "*" ∈ n.exportedNames source → target.ExportsAll root v)
  /-- Every edge stems from an import that leads there, and stands for an export that answers it. -/
  of_edge : ∀ e ∈ links.edges, ∃ o ∈ occurrences files, ∃ target id vertex,
    o.item.LeadsTo files target id ∧ o.item.vertex = some vertex ∧
      ∃ x ∈ target.exports, ∃ label, x.Answers target o.item.imported label ∧
        e ∈ Occurrence.edgePair o.file vertex id { name := label, vertex := x.vertex }

end Links

end DeadCode
