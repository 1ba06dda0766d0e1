import DeadCode.Proofs.Path.Canonical
import DeadCode.Proofs.Project.Analyzed
import DeadCode.Proofs.Project.Entries

/-! # Imports of files by their full names

Extensions are left out before files are compared with an import, so many files can be at hand for
one specifier. A specifier that spells the name of a file with its extension still means that file:
the extension is read off the specifier again, in the letters it is written in. -/

namespace DeadCode

variable {files : List SourceModule} {m : SourceModule} {id : FileId} {path directory : Path}

/-- Files of a project that their paths tell apart: each is the model of a source, no two lie at the
same place, and no name is made of an extension and dots alone. -/
structure WellNamed (files : List SourceModule) : Prop where
  /-- The files are models of sources. -/
  ofSource : ∀ m ∈ files, m.OfSource
  /-- No two of them lie at the same place. -/
  distinct : files.Pairwise fun a b => ¬ a.path.normalize.Same b.path.normalize
  /-- Without their extensions they still have names. -/
  plainStem : ∀ m ∈ files, m.path.HasPlainStem

/-! ## The file at a place -/

theorem Path.fileName?_of_extension? (h : path.extension?.isSome) : path.fileName?.isSome := by
  obtain ⟨extension, hextension⟩ := Option.isSome_iff_exists.1 h
  obtain ⟨name, hname, -⟩ := Option.bind_eq_some_iff.1 hextension
  rw [hname]
  rfl

namespace WellNamed

theorem canonical_eq (h : WellNamed files) (hm : m ∈ files) : m.canonical = m.path.canonical :=
  (h.ofSource m hm).analyzed.hasTree.canonical_eq

/-- No earlier file has the same name in full. -/
theorem not_hasExtensionOf_of_lt (h : WellNamed files) {other : SourceModule} {j : FileId}
    (hj : files[j]? = some other) (hm : files[id]? = some m) (hlt : j < id)
    (hsame : other.canonical.Same m.canonical) (hextension : m.HasExtensionOf path) :
    ¬ other.HasExtensionOf path := by
  -- Two such files would lie at the same place.
  intro hother
  have hmem := List.mem_of_getElem? hm
  have hmem' := List.mem_of_getElem? hj
  obtain ⟨extension, hpath⟩ := Option.isSome_iff_exists.1 hextension.1
  rw [h.canonical_eq hmem, h.canonical_eq hmem'] at hsame
  have hplace := Path.same_normalize_of_canonical (hother.2.trans hpath)
    (hextension.2.trans hpath) (h.plainStem other hmem') (h.plainStem m hmem) hsame
  obtain ⟨hjlt, rfl⟩ := List.getElem?_eq_some_iff.1 hj
  obtain ⟨hidlt, rfl⟩ := List.getElem?_eq_some_iff.1 hm
  exact List.pairwise_iff_getElem.1 h.distinct j id hjlt hidlt hlt hplace

/-- **A path takes the file that lies where it leads.** -/
theorem takes_of_same_normalize (h : WellNamed files) (hm : files[id]? = some m)
    (hname : path.fileName?.isSome) (hplace : path.normalize.Same m.path.normalize) :
    path.Takes files m id := by
  have hmem := List.mem_of_getElem? hm
  have hextension := (h.ofSource m hmem).extension?
  have hsame : m.canonical.Same path.canonical := by
    rw [h.canonical_eq hmem, ← Path.canonical_eq_of_same_normalize hplace]
    rfl
  have hhas : m.HasExtensionOf path := by
    have hnames := Path.fileName?_eq_of_same_normalize hplace hname
      (Path.fileName?_of_extension? hextension)
    rw [SourceModule.HasExtensionOf, Path.extension?_eq_of_fileName? hnames]
    exact ⟨hextension, rfl⟩
  refine ⟨hm, .inl hsame, fun other _ _ => ?_, fun j other hlt hj _ => ?_⟩
  · rintro (⟨-, hnot⟩ | ⟨-, hprefers⟩)
    · exact hnot hsame
    · exact not_prefersExtension_of_hasExtensionOf hhas hprefers
  · -- An earlier file with the same canonical path has another extension.
    by_cases hother : other.canonical.Same path.canonical
    · have hcanonical : other.canonical.Same m.canonical := hother.trans hsame.symm
      exact .inr ⟨iff_of_true hsame hother,
        .inl ⟨hhas, h.not_hasExtensionOf_of_lt hj hm hlt hcanonical hhas⟩⟩
    · exact .inl ⟨hsame, hother⟩

end WellNamed

/-! ## The import of a full name -/

theorem Specifier.eq_canonical_of_resolve? {specifier : String}
    (h : resolve? directory specifier = some (.relative path)) :
    path = (directory.join ⟨specifier⟩).canonical := by
  unfold resolve? at h
  split at h
  · exact (ImportTarget.relative.inj (Option.some.inj h)).symm
  · obtain ⟨name, -, hname⟩ := Option.map_eq_some_iff.1 h
    cases hname

/-- A relative import of an analyzed file spells the path of its specifier in the directory of the
file. -/
theorem SourceModule.Analyzed.spells_of_import (h : m.Analyzed) {i : Import} (hi : i ∈ m.imports)
    (hrelative : i.resolvedPath?.isSome) (hname : (Path.mk i.source).fileName?.isSome) :
    i.Spells ((m.path.parent?.getD ⟨"/"⟩).join ⟨i.source⟩) := by
  obtain ⟨name, hname⟩ := Option.isSome_iff_exists.1 hname
  have hresolve := h.hasTree.resolve?_of_import hi
  cases htarget : i.target with
  | package name builtin => simp [Import.resolvedPath?, htarget] at hrelative
  | relative resolved =>
    rw [htarget] at hresolve
    refine ⟨⟨resolved, htarget, ?_⟩, ?_⟩
    · rw [Specifier.eq_canonical_of_resolve? hresolve]
      rfl
    · refine Path.extension?_eq_of_fileName? ?_
      rw [hname, Path.fileName?_join _ hname]

/-- An import names a file in full: it is a relative one, its specifier ends in a name, and read from
the directory of the importing file it leads to the place of the other. -/
structure Occurrence.NamesInFull (o : Occurrence) (m : SourceModule) : Prop where
  /-- The import is of a file. -/
  relative : o.item.resolvedPath?.isSome
  /-- The specifier ends in a name. -/
  name : (Path.mk o.item.source).fileName?.isSome
  /-- The specifier leads to the file. -/
  place : ((o.path.parent?.getD ⟨"/"⟩).join ⟨o.item.source⟩).normalize.Same m.path.normalize

instance (o : Occurrence) (m : SourceModule) : Decidable (o.NamesInFull m) :=
  decidable_of_iff (_ ∧ _ ∧ _)
    ⟨fun ⟨relative, name, place⟩ => ⟨relative, name, place⟩,
      fun ⟨relative, name, place⟩ => ⟨relative, name, place⟩⟩

/-- An import that names a file in full leads to it. -/
theorem WellNamed.leadsTo_of_namesInFull (h : WellNamed files) {o : Occurrence}
    (ho : o ∈ occurrences files) (hm : files[id]? = some m) (hfull : o.NamesInFull m) :
    o.item.LeadsTo files m id := by
  obtain ⟨importer, himporter, hi, hpath⟩ := mem_occurrences_iff.1 ho
  have hanalyzed := (h.ofSource importer (List.mem_of_getElem? himporter)).analyzed
  obtain ⟨name, hname⟩ := Option.isSome_iff_exists.1 hfull.name
  have hspells := hanalyzed.spells_of_import hi hfull.relative hfull.name
  rw [← hpath] at hspells
  refine hspells.leadsTo_iff.2 (h.takes_of_same_normalize hm ?_ hfull.place)
  rw [Path.fileName?_join _ hname]
  rfl

/-- **An import of a file by its full name hits that file.** The link that the import makes is to the
file, it is among the links of the project, and the import leads to no other file. How many files
differ from it in their extensions only, and in which order the files come, does not matter. -/
theorem Links.hits_of_namesInFull (h : WellNamed files) (dependencies : List Dependency)
    {o : Occurrence} (ho : o ∈ occurrences files) {vertex : VertexId}
    (hvertex : o.item.vertex = some vertex) (hm : files[id]? = some m) (hfull : o.NamesInFull m) :
    o.moduleLink? files = some { importer := o.file, vertex, target := id } ∧
    { importer := o.file, vertex, target := id } ∈ (ofFiles files dependencies).modules ∧
    ∀ other j, o.item.LeadsTo files other j → other = m ∧ j = id := by
  have hleads := h.leadsTo_of_namesInFull ho hm hfull
  refine ⟨?_, mem_modules_iff.2 ⟨o, ho, m, hleads, hvertex, rfl⟩, fun other j => hleads.unique⟩
  rw [Occurrence.moduleLink?, Occurrence.resolution,
    Resolution.ofImport_of_leadsTo hleads hvertex]

/-- Three empty files whose names differ in their extensions, two of them in letter case only, and a
file with `import '../util.TS';` in a directory beside them. -/
def utilitiesAndImporter : List SourceText :=
  let empty : Node := .of (.other "program") 0 0
  let importing : Node :=
    .of (.other "program") 0 20
      [.of .importStatement 0 20
         [.keyword .importToken 0 6, .part .source (.quoted "'" 7 19), .token ";" 19 20]]
  [{ path := ⟨"/app/util.ts"⟩, text := some "", tree := some empty },
   { path := ⟨"/app/util.TS"⟩, text := some "", tree := some empty },
   { path := ⟨"/app/util.js"⟩, text := some "", tree := some empty },
   { path := ⟨"/app/src/main.js"⟩, text := some "import '../util.TS';", tree := some importing }]

/-- The import means the second file, although the first has the same extension in other letters and
the third one that is ranked better. -/
theorem Links.hits_of_namesInFull_letterCase :
    let files := (Project.ofSources {} none utilitiesAndImporter).files
    WellNamed files ∧ ∃ o ∈ occurrences files, o.item.source = "../util.TS" ∧
      o.moduleLink? files = some { importer := 3, vertex := 0, target := 1 } := by
  intro files
  have hnamed : WellNamed files :=
    ⟨fun m => Project.ofSource_of_mem_files, by decide +kernel, by decide +kernel⟩
  have himport : ∃ o ∈ occurrences files, o.item.source = "../util.TS" ∧ o.file = 3 ∧
      o.item.vertex = some 0 ∧ (files[1]?).any fun m => o.NamesInFull m := by decide +kernel
  obtain ⟨o, ho, hsource, hfile, hvertex, hfull⟩ := himport
  obtain ⟨m, hm, hfull⟩ := (Option.any_eq_true _ _).1 hfull
  obtain ⟨hlink, -⟩ :=
    Links.hits_of_namesInFull hnamed [] ho hvertex hm (of_decide_eq_true hfull)
  rw [hfile] at hlink
  exact ⟨hnamed, o, ho, hsource, hlink⟩

end DeadCode
