import DeadCode.Proofs.Path
import DeadCode.Proofs.Project.Accounting

/-! # Entries and imports of one path

Two places turn a path into a file: a declared entry takes the first file at its path, and an import
takes the file that its specifier prefers. Both see the same files, and they choose the same one
exactly if no file at the path is preferred to the first. -/

namespace DeadCode

/-! ## Files at a path -/

section LiesAt

variable {m : SourceModule} {path path' : Path}

theorem Path.components_child_index (path : Path) :
    (path.child "index").components = path.components ++ [.normal "index"] :=
  Path.components_child ⟨"index".toList, by decide, by decide⟩

/-- The files that lie at a path. -/
theorem SourceModule.matchesPath_iff : m.matchesPath path ↔ m.LiesAt path := by
  simp only [matchesPath, LiesAt, Bool.or_eq_true, Bool.and_eq_true, decide_eq_true_eq]
  refine or_congr_right ?_
  rw [Path.Same, Path.components_child_index]
  constructor
  · rintro ⟨hname, hparent⟩
    obtain ⟨steps, hsteps⟩ := Path.fileName?_eq_some_iff.1 hname
    obtain ⟨directory, hdirectory, hcomponents⟩ := Path.parent?_of_components hsteps
    rw [hdirectory, Option.any_some, decide_eq_true_eq, Path.Same, hcomponents] at hparent
    rw [hsteps, hparent]
  · intro hindex
    obtain ⟨directory, hdirectory, hcomponents⟩ := Path.parent?_of_components hindex
    constructor
    · exact Path.fileName?_eq_some_iff.2 ⟨_, hindex⟩
    · rw [hdirectory, Option.any_some, decide_eq_true_eq]
      exact hcomponents

theorem SourceModule.liesAt_congr (h : path.Same path') : m.LiesAt path ↔ m.LiesAt path' := by
  have hcomponents : path.components = path'.components := h
  simp only [LiesAt, Path.Same, Path.components_child_index, hcomponents]

instance : Decidable (m.LiesAt path) :=
  inferInstanceAs (Decidable (_ ∨ _))

end LiesAt

/-! ## Which file a path prefers -/

/-- The file has the extension that a path spells. -/
def SourceModule.HasExtensionOf (m : SourceModule) (path : Path) : Prop :=
  path.extension?.isSome ∧ m.path.extension? = path.extension?

instance (m : SourceModule) (path : Path) : Decidable (m.HasExtensionOf path) :=
  inferInstanceAs (Decidable (_ ∧ _))

/-- Of two files the first suits a path better by its extension: it is the one the path spells, or
without that it comes earlier in the list of extensions. -/
def Path.PrefersExtension (path : Path) (a b : SourceModule) : Prop :=
  (a.HasExtensionOf path ∧ ¬ b.HasExtensionOf path) ∨
    ((a.HasExtensionOf path ↔ b.HasExtensionOf path) ∧ extensionRank a.path < extensionRank b.path)

instance (path : Path) (a b : SourceModule) : Decidable (path.PrefersExtension a b) :=
  inferInstanceAs (Decidable (_ ∨ _))

/-- Of two files at a path the first is preferred: it has the path itself and the other is only the
`index` file there, or else its extension suits better. -/
def Path.Prefers (path : Path) (a b : SourceModule) : Prop :=
  (a.canonical.Same path.canonical ∧ ¬ b.canonical.Same path.canonical) ∨
    ((a.canonical.Same path.canonical ↔ b.canonical.Same path.canonical) ∧
      path.PrefersExtension a b)

instance (path : Path) (a b : SourceModule) : Decidable (path.Prefers a b) :=
  inferInstanceAs (Decidable (_ ∨ _))

variable {files : List SourceModule} {path : Path} {m : SourceModule} {id : FileId}

/-- The candidates for a path. -/
theorem mem_candidates :
    (m, id) ∈ candidates files path ↔ files[id]? = some m ∧ m.LiesAt path ∧
      ∀ other ∈ files, other.canonical.Same path → m.canonical.Same path := by
  unfold candidates
  split
  · next hnone =>
    rw [filesAt_eq_nil] at hnone
    rw [mem_filesAt]
    refine and_congr_right fun hm => ?_
    constructor
    · exact fun hindex => ⟨.inr hindex, fun other hother hsame => absurd hsame (hnone other hother)⟩
    · rintro ⟨hdirect | hindex, -⟩
      · exact absurd hdirect (hnone m (List.mem_of_getElem? hm))
      · exact hindex
  · next found hfound =>
    obtain ⟨first, hfirst, hsame⟩ : ∃ first ∈ files, first.canonical.Same path := by
      by_contra hnone
      exact hfound (filesAt_eq_nil.2 fun m hm hsame => hnone ⟨m, hm, hsame⟩)
    rw [mem_filesAt]
    refine and_congr_right fun hm => ?_
    constructor
    · exact fun hdirect => ⟨.inl hdirect, fun _ _ _ => hdirect⟩
    · rintro ⟨-, hall⟩
      exact hall first hfirst hsame

/-- Candidates come in the order of the files. -/
theorem pairwise_candidates (files : List SourceModule) (path : Path) :
    (candidates files path).Pairwise (·.2 < ·.2) := by
  have hzip : files.zipIdx.Pairwise (·.2 < ·.2) := by
    rw [← List.pairwise_map (f := Prod.snd), List.zipIdx_map_snd]
    exact List.pairwise_lt_range'
  unfold candidates
  split
  · exact hzip.sublist List.filter_sublist
  · exact hzip.sublist List.filter_sublist

section Choice

variable {specifier : String} {c d first : SourceModule × FileId}
  {rest found : List (SourceModule × FileId)}

theorem hasWrittenExtension_iff :
    hasWrittenExtension specifier c ↔ c.1.HasExtensionOf ⟨specifier⟩ := by
  unfold hasWrittenExtension SourceModule.HasExtensionOf
  cases (Path.mk specifier).extension? <;> simp

theorem not_prefersExtension_of_hasExtensionOf {a b : SourceModule} (hb : b.HasExtensionOf path) :
    ¬ path.PrefersExtension a b := by
  rintro (⟨-, hnot⟩ | ⟨hiff, hlt⟩)
  · exact hnot hb
  · have hrank : extensionRank a.path = extensionRank b.path := by
      rw [extensionRank, extensionRank, (hiff.2 hb).2, hb.2]
    omega

/-- **The chosen candidate** is the first of those whose extension suits best. -/
theorem chooseTarget_spec (h : chooseTarget specifier found = some c) :
    ∃ before after, found = before ++ c :: after ∧
      (∀ d ∈ before, Path.PrefersExtension ⟨specifier⟩ c.1 d.1) ∧
      ∀ d ∈ found, ¬ Path.PrefersExtension ⟨specifier⟩ d.1 c.1 := by
  rcases Option.or_eq_some_iff.1 h with hwritten | ⟨hnone, hranked⟩
  · obtain ⟨hc, before, after, hsplit, hbefore⟩ := List.find?_eq_some_iff_append.1 hwritten
    have hc := hasWrittenExtension_iff.1 hc
    refine ⟨before, after, hsplit, fun d hd => .inl ⟨hc, fun hwritten => ?_⟩,
      fun d _ => not_prefersExtension_of_hasExtensionOf hc⟩
    simpa [hasWrittenExtension_iff.2 hwritten] using hbefore d hd
  · have hunwritten (d : SourceModule × FileId) (hd : d ∈ found) :
        ¬ d.1.HasExtensionOf ⟨specifier⟩ := fun hwritten =>
      List.find?_eq_none.1 hnone d hd (hasWrittenExtension_iff.2 hwritten)
    have hmem : c ∈ found := mem_of_bestRanked hranked
    cases found with
    | nil => cases hranked
    | cons first rest =>
      obtain ⟨before, after, hsplit, hbefore, hafter⟩ := foldl_betterRanked_spec first rest
      rw [show rest.foldl betterRanked first = c from Option.some.inj hranked] at *
      refine ⟨before, after, hsplit, fun d hd => .inr ⟨?_, hbefore d hd⟩, fun d hd => ?_⟩
      · have hd : d ∈ first :: rest := hsplit ▸ List.mem_append_left _ hd
        exact iff_of_false (hunwritten c hmem) (hunwritten d hd)
      · rintro (⟨hwritten, -⟩ | ⟨-, hlt⟩)
        · exact hunwritten d hd hwritten
        · rw [hsplit] at hd
          rcases List.mem_append.1 hd with hd | hd
          · have := hbefore d hd
            omega
          · rcases List.mem_cons.1 hd with rfl | hd
            · omega
            · have := hafter d hd
              omega

end Choice

/-! ## What an import takes -/

theorem candidates_congr {path' : Path} (h : path.Same path') :
    candidates files path = candidates files path' := by
  have hfiles {a b : Path} (hab : a.components = b.components) :
      filesAt files a = filesAt files b := by
    refine List.filter_congr fun entry _ => ?_
    rw [decide_eq_decide, Path.Same, Path.Same, hab]
  have hindex : (path.child "index").components = (path'.child "index").components := by
    rw [Path.components_child_index, Path.components_child_index, h]
  rw [candidates, candidates, hfiles h, hfiles hindex]

theorem Path.prefersExtension_congr {path' : Path} (h : path.extension? = path'.extension?)
    {a b : SourceModule} : path.PrefersExtension a b ↔ path'.PrefersExtension a b := by
  simp only [PrefersExtension, SourceModule.HasExtensionOf, h]

/-- The file that a path takes: of the files there the first one to which no other is preferred. -/
structure Path.Takes (path : Path) (files : List SourceModule) (m : SourceModule) (id : FileId) :
    Prop where
  /-- It is a file of that index. -/
  file : files[id]? = some m
  /-- It lies at the path. -/
  liesAt : m.LiesAt path.canonical
  /-- No file at the path is preferred to it. -/
  best : ∀ other ∈ files, other.LiesAt path.canonical → ¬ path.Prefers other m
  /-- It is preferred to all files at the path that come before it. -/
  first : ∀ j other, j < id → files[j]? = some other → other.LiesAt path.canonical →
    path.Prefers m other

/-- A path takes one file. -/
theorem Path.Takes.unique {m' : SourceModule} {id' : FileId} (h : path.Takes files m id)
    (h' : path.Takes files m' id') : m' = m ∧ id' = id := by
  have hmem := List.mem_of_getElem? h.file
  have hmem' := List.mem_of_getElem? h'.file
  -- Of two such files the later one would be preferred to the earlier one.
  obtain hlt | heq | hlt := Nat.lt_trichotomy id' id
  · exact absurd (h.first id' m' hlt h'.file h'.liesAt) (h'.best m hmem h.liesAt)
  · have hfile := h'.file
    rw [heq, h.file] at hfile
    exact ⟨(Option.some.inj hfile).symm, heq⟩
  · exact absurd (h'.first id m hlt h.file h.liesAt) (h.best m' hmem' h'.liesAt)

namespace Import

variable {i : Import}

/-- An import spells a path: it points there, and its specifier has the extension of the path. -/
structure Spells (i : Import) (path : Path) : Prop where
  /-- It points to the canonical form of the path. -/
  target : ∃ resolved, i.target = .relative resolved ∧ resolved.Same path.canonical
  /-- Its specifier spells the same extension, or none as well. -/
  extension : (Path.mk i.source).extension? = path.extension?

theorem Spells.leadsTo_iff_chooseTarget (h : i.Spells path) :
    i.LeadsTo files m id ↔
      chooseTarget i.source (candidates files path.canonical) = some (m, id) := by
  obtain ⟨resolved, htarget, hsame⟩ := h.target
  rw [← candidates_congr hsame]
  constructor
  · rintro ⟨resolved', htarget', hchosen⟩
    rw [htarget] at htarget'
    cases htarget'
    exact hchosen
  · exact fun hchosen => ⟨resolved, htarget, hchosen⟩

theorem Spells.takes_of_leadsTo (h : i.Spells path) (hleads : i.LeadsTo files m id) :
    path.Takes files m id := by
  have hchosen := h.leadsTo_iff_chooseTarget.1 hleads
  obtain ⟨hfile, hlies, hdirect⟩ := mem_candidates.1 (mem_of_chooseTarget hchosen)
  obtain ⟨before, after, hsplit, hbefore, hbest⟩ := chooseTarget_spec hchosen
  simp only [Path.prefersExtension_congr h.extension] at hbefore hbest
  -- A file at the path is a candidate as soon as it has the path itself if the chosen file has.
  have hcandidate {other : SourceModule} {j : FileId} (hother : files[j]? = some other)
      (hlies : other.LiesAt path.canonical)
      (hlevel : m.canonical.Same path.canonical → other.canonical.Same path.canonical) :
      (other, j) ∈ candidates files path.canonical :=
    mem_candidates.2 ⟨hother, hlies, fun f hf hsame => hlevel (hdirect f hf hsame)⟩
  refine ⟨hfile, hlies, fun other hmem hother => ?_, fun j other hlt hj hother => ?_⟩
  · obtain ⟨j, hj⟩ := List.getElem?_of_mem hmem
    rintro (⟨hsame, hnot⟩ | ⟨hlevel, hextension⟩)
    · exact hnot (hdirect other hmem hsame)
    · exact hbest (other, j) (hcandidate hj hother hlevel.2) hextension
  · by_cases hlevel : m.canonical.Same path.canonical → other.canonical.Same path.canonical
    · have hmem := hcandidate hj hother hlevel
      have hsorted := pairwise_candidates files path.canonical
      rw [hsplit] at hmem hsorted
      -- What stands behind the chosen candidate has a greater index.
      have hmem : (other, j) ∈ before := by
        rcases List.mem_append.1 hmem with hmem | hmem
        · exact hmem
        · obtain ⟨-, hafter, -⟩ := List.pairwise_append.1 hsorted
          rcases List.mem_cons.1 hmem with heq | hmem
          · cases heq
            exact absurd hlt (Nat.lt_irrefl _)
          · exact absurd ((List.pairwise_cons.1 hafter).1 _ hmem) (Nat.lt_asymm hlt)
      have hback := hdirect other (List.mem_of_getElem? hj)
      exact .inr ⟨⟨hlevel, hback⟩, hbefore (other, j) hmem⟩
    · obtain ⟨hm, hnot⟩ := Classical.not_imp.1 hlevel
      exact .inl ⟨hm, hnot⟩

/-- **What an import takes**: of the files at its path the first one to which no other is
preferred. -/
theorem Spells.leadsTo_iff (h : i.Spells path) :
    i.LeadsTo files m id ↔ path.Takes files m id := by
  refine ⟨h.takes_of_leadsTo, fun htakes => ?_⟩
  cases hchosen : chooseTarget i.source (candidates files path.canonical) with
  | none =>
    have hnone := candidates_eq_nil.1 (chooseTarget_eq_none.1 hchosen)
    exact absurd htakes.liesAt (hnone m (List.mem_of_getElem? htakes.file))
  | some chosen =>
    have hleads : i.LeadsTo files chosen.1 chosen.2 := h.leadsTo_iff_chooseTarget.2 hchosen
    obtain ⟨hm, hid⟩ := htakes.unique (h.takes_of_leadsTo hleads)
    rw [← hm, ← hid]
    exact hleads

end Import

/-! ## What an entry takes -/

namespace Project

variable {project : Project} {entry : Path}

/-- The index files of the root. -/
theorem mem_indexFiles {id : FileId} :
    id ∈ project.indexFiles ↔ ∃ m, project.file? id = some m ∧
      m.canonical.Same (project.config.root.child "index") := by
  simp only [indexFiles, List.mem_filter, List.mem_range, Option.any_eq_true, decide_eq_true_eq]
  refine and_iff_right_of_imp ?_
  rintro ⟨m, hm, -⟩
  exact (List.getElem?_eq_some_iff.1 hm).1

/-- **What an entry takes**: the first file at its path. -/
theorem entryFile?_eq_some_iff :
    project.entryFile? entry = some id ↔
      ∃ m, project.files[id]? = some m ∧ m.LiesAt (project.config.root.join entry).canonical ∧
        ∀ j other, j < id → project.files[j]? = some other →
          ¬ other.LiesAt (project.config.root.join entry).canonical := by
  rw [entryFile?, List.findIdx?_eq_some_iff_getElem]
  simp only [SourceModule.matchesPath_iff]
  constructor
  · rintro ⟨hid, hlies, hfirst⟩
    refine ⟨_, List.getElem?_eq_getElem hid, hlies, fun j other hj hother => ?_⟩
    obtain ⟨hlt, rfl⟩ := List.getElem?_eq_some_iff.1 hother
    exact hfirst j hj
  · rintro ⟨m, hm, hlies, hfirst⟩
    obtain ⟨hlt, rfl⟩ := List.getElem?_eq_some_iff.1 hm
    exact ⟨hlt, hlies, fun j hj => hfirst j _ hj (List.getElem?_eq_getElem (by omega))⟩

/-- An entry names no file if none lies there. -/
theorem entryFile?_eq_none_iff :
    project.entryFile? entry = none ↔
      ∀ m ∈ project.files, ¬ m.LiesAt (project.config.root.join entry).canonical := by
  rw [entryFile?, List.findIdx?_eq_none_iff]
  simp only [← SourceModule.matchesPath_iff, Bool.not_eq_true]

/-- **When an entry and an import of its path agree.** Either both find a file or neither does. An
entry takes the first file at the path, and the import the first of the most preferred files there;
so they take the same file exactly if no file at the path is preferred to that of the entry. -/
theorem entryFile?_agrees_iff (project : Project) (entry : Path) {i : Import}
    (h : i.Spells (project.config.root.join entry)) :
    let path := project.config.root.join entry
    (project.entryFile? entry = none ↔ ¬ ∃ m id, i.LeadsTo project.files m id) ∧
    (∀ m id, i.LeadsTo project.files m id ↔ path.Takes project.files m id) ∧
    ∀ id, project.entryFile? entry = some id →
      ∃ m, project.files[id]? = some m ∧ m.LiesAt path.canonical ∧
        (i.LeadsTo project.files m id ↔
          ∀ other ∈ project.files, other.LiesAt path.canonical → ¬ path.Prefers other m) := by
  intro path
  refine ⟨?_, fun m id => h.leadsTo_iff, fun id hentry => ?_⟩
  · obtain ⟨resolved, htarget, hsame⟩ := h.target
    rw [entryFile?_eq_none_iff, Import.not_leadsTo_iff htarget]
    simp only [SourceModule.liesAt_congr hsame]
  · obtain ⟨m, hm, hlies, hfirst⟩ := entryFile?_eq_some_iff.1 hentry
    refine ⟨m, hm, hlies, ?_⟩
    rw [h.leadsTo_iff]
    constructor
    · exact fun htakes => htakes.best
    · exact fun hbest =>
        ⟨hm, hlies, hbest, fun j other hj hother hat => absurd hat (hfirst j other hj hother)⟩

/-- The project of some empty files below `/app`, with one declared entry. -/
def ofEmptyFiles (entry : Path) (paths : List Path) : Project :=
  ofSources { root := ⟨"/app"⟩, entries := [entry] } none <| paths.map fun path =>
    { path, text := some "", tree := some (.of (.other "program") 0 0) }

/-- An import that only runs the file of a specifier, written in a file of `/app`. -/
def importFromRoot (specifier : String) : Import :=
  { source := specifier, localName := none, imported := .sideEffect, kind := .es6
    target := .relative (Path.join ⟨"/app"⟩ ⟨specifier⟩).canonical, vertex := none, line := 1 }

/-- The entry spells the extension of the first file, so the import takes the same file, although
another one at the path has a better ranked extension. -/
theorem entryFile?_agrees_spelledExtension :
    let project := ofEmptyFiles ⟨"util.ts"⟩
      [⟨"/app/util.ts"⟩, ⟨"/app/util.js"⟩, ⟨"/app/util/index.js"⟩]
    (importFromRoot "./util.ts").Spells (project.config.root.join ⟨"util.ts"⟩) ∧
    project.entryFile? ⟨"util.ts"⟩ = some 0 ∧
    ∃ m, (importFromRoot "./util.ts").LeadsTo project.files m 0 := by
  intro project
  have hspells : (importFromRoot "./util.ts").Spells (project.config.root.join ⟨"util.ts"⟩) :=
    ⟨⟨_, rfl, by decide +kernel⟩, by decide +kernel⟩
  have hentry : project.entryFile? ⟨"util.ts"⟩ = some 0 := by decide +kernel
  have hbest : (project.files[0]?).all fun m => ∀ other ∈ project.files,
      other.LiesAt (project.config.root.join ⟨"util.ts"⟩).canonical →
        ¬ (project.config.root.join ⟨"util.ts"⟩).Prefers other m := by
    decide +kernel
  obtain ⟨-, -, hagrees⟩ := entryFile?_agrees_iff project ⟨"util.ts"⟩ hspells
  obtain ⟨m, hm, -, hiff⟩ := hagrees 0 hentry
  rw [hm, Option.all_some] at hbest
  exact ⟨hspells, hentry, m, hiff.2 (of_decide_eq_true hbest)⟩

/-- The declared entry `lib` takes the `index` file of a directory, which comes first, although
there is a file of that name: an import of the same path takes that one. -/
theorem entryFile?_index_before_file :
    let project := ofEmptyFiles ⟨"lib"⟩ [⟨"/app/lib/index.js"⟩, ⟨"/app/lib.js"⟩]
    ⟨"lib"⟩ ∈ project.declaredEntries ∧ project.entryFiles = [0] ∧
    Specifier.resolve? project.config.root "./lib" = some (importFromRoot "./lib").target ∧
    (importFromRoot "./lib").Spells (project.config.root.join ⟨"lib"⟩) ∧
    (∃ m, (importFromRoot "./lib").LeadsTo project.files m 1) ∧
    ¬ ∃ m, (importFromRoot "./lib").LeadsTo project.files m 0 := by
  intro project
  have hchosen : (chooseTarget "./lib"
      (candidates project.files (Path.join ⟨"/app"⟩ ⟨"./lib"⟩).canonical)).map (·.2) = some 1 := by
    decide +kernel
  obtain ⟨⟨m, id⟩, hchosen, hid⟩ := Option.map_eq_some_iff.1 hchosen
  cases hid
  have hleads : (importFromRoot "./lib").LeadsTo project.files m 1 := ⟨_, rfl, hchosen⟩
  refine ⟨by decide +kernel, by decide +kernel, by decide +kernel,
    ⟨⟨_, rfl, by decide +kernel⟩, by decide +kernel⟩, ⟨m, hleads⟩, ?_⟩
  rintro ⟨m', hleads'⟩
  cases (hleads.unique hleads').2

end Project

end DeadCode
