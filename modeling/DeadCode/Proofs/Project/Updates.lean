import DeadCode.Proofs.Project.Analyzed
import Mathlib.Data.List.Count
import Mathlib.Data.List.Induction

/-! # Projects in step with their sources

A project follows a sequence of changed sources. After each of them it is the project of the latest
sources, up to the order in which they are listed. -/

namespace DeadCode

/-! ## What a source gives -/

namespace SourceText

variable {ambient : List String} {source : SourceText}

/-- The model of a source that can be analyzed. -/
def model? (ambient : List String) (source : SourceText) : Option SourceModule :=
  (source.analyze ambient).toOption

/-- The failure of a source that cannot be analyzed. -/
def failure? (ambient : List String) (source : SourceText) : Option Failure :=
  match source.analyze ambient with
  | .ok _ => none
  | .error error => some { path := source.path, error }

/-- A source that is analyzed has a model and no failure. -/
theorem model?_of_ok {m : SourceModule} (h : source.analyze ambient = .ok m) :
    source.model? ambient = some m ∧ source.failure? ambient = none := by
  unfold model? failure?
  generalize source.analyze ambient = outcome at h
  subst h
  exact ⟨rfl, rfl⟩

/-- A source that is not analyzed has a failure and no model. -/
theorem failure?_of_error {error : AnalysisError} (h : source.analyze ambient = .error error) :
    source.model? ambient = none ∧
      source.failure? ambient = some { path := source.path, error } := by
  unfold model? failure?
  generalize source.analyze ambient = outcome at h
  subst h
  exact ⟨rfl, rfl⟩

/-- Every source has a model or a failure, under its own path. -/
theorem model?_or_failure? (ambient : List String) (source : SourceText) :
    (∃ m, source.model? ambient = some m ∧ source.failure? ambient = none ∧ m.path = source.path) ∨
      ∃ f, source.model? ambient = none ∧ source.failure? ambient = some f ∧
        f.path = source.path := by
  cases h : source.analyze ambient with
  | ok m => exact .inl ⟨m, (model?_of_ok h).1, (model?_of_ok h).2, path_of_analyze h⟩
  | error error => exact .inr ⟨_, (failure?_of_error h).1, (failure?_of_error h).2, rfl⟩

/-- The model of a source is what its analysis gives. -/
theorem model?_eq_some_iff {m : SourceModule} :
    source.model? ambient = some m ↔ source.analyze ambient = .ok m := by
  unfold model?
  generalize source.analyze ambient = outcome
  cases outcome <;> simp [Except.toOption]

/-- The failure of a source is the fault of its analysis. -/
theorem failure?_eq_some_iff {f : Failure} :
    source.failure? ambient = some f ↔
      source.analyze ambient = .error f.error ∧ source.path = f.path := by
  unfold failure?
  generalize source.analyze ambient = outcome
  cases outcome with
  | ok m => simp
  | error error =>
    obtain ⟨path, error'⟩ := f
    simp [and_comm]

/-- A model has the path of its source. -/
theorem path_of_model? {m : SourceModule} (h : source.model? ambient = some m) :
    m.path = source.path :=
  path_of_analyze (model?_eq_some_iff.1 h)

/-- A failure has the path of its source. -/
theorem path_of_failure? {f : Failure} (h : source.failure? ambient = some f) :
    f.path = source.path :=
  (failure?_eq_some_iff.1 h).2.symm

/-! ## The latest sources -/

/-- Sources of pairwise different paths. -/
def Distinct (sources : List SourceText) : Prop :=
  sources.Pairwise fun a b => ¬ a.path.Same b.path

instance (sources : List SourceText) : Decidable (Distinct sources) :=
  inferInstanceAs (Decidable (sources.Pairwise fun a b => ¬ a.path.Same b.path))

/-- The sources of other paths. -/
def others (path : Path) (sources : List SourceText) : List SourceText :=
  sources.filter fun s => ¬ s.path.Same path

/-- The sources of a history that no later source of their path replaces. -/
def latest : List SourceText → List SourceText
  | [] => []
  | s :: rest => if rest.any (·.path.Same s.path) then latest rest else s :: latest rest

variable {path : Path} {s t : SourceText} {sources history : List SourceText}

/-- The sources at other paths. -/
theorem mem_others : t ∈ others path sources ↔ t ∈ sources ∧ ¬ t.path.Same path := by
  simp [others]

theorem others_eq_self (h : ∀ t ∈ sources, ¬ t.path.Same path) : others path sources = sources := by
  rw [others, List.filter_eq_self]
  exact fun t ht => decide_eq_true (h t ht)

/-- Leaving out a path before or after the analysis is the same. -/
theorem filter_filterMap {β : Type} {result? : SourceText → Option β} {pathOf : β → Path}
    (hpath : ∀ s b, result? s = some b → pathOf b = s.path) (path : Path)
    (sources : List SourceText) :
    (sources.filterMap result?).filter (fun b => ¬ (pathOf b).Same path) =
      (others path sources).filterMap result? := by
  induction sources with
  | nil => rfl
  | cons s rest ih =>
    rw [others, List.filter_cons, ← others]
    cases hs : result? s with
    | none =>
      rw [List.filterMap_cons_none hs, ih]
      split
      · rw [List.filterMap_cons_none hs]
      · rfl
    | some b =>
      rw [List.filterMap_cons_some hs, List.filter_cons, ih, hpath s b hs]
      split
      · rw [List.filterMap_cons_some hs]
      · rfl

/-- **A new source** takes the place of those of its path. -/
theorem latest_append (history : List SourceText) (s : SourceText) :
    latest (history ++ [s]) = others s.path (latest history) ++ [s] := by
  induction history with
  | nil => rfl
  | cons t rest ih =>
    rw [List.cons_append, latest, latest, ih, List.any_append]
    by_cases hrest : rest.any (·.path.Same t.path)
    · simp [hrest]
    · by_cases hs : s.path.Same t.path
      · have hts : t.path.Same s.path := Eq.symm hs
        simp [hrest, hs, hts, others]
      · have hts : ¬ t.path.Same s.path := fun hts => hs (Eq.symm hts)
        simp [hrest, hs, hts, others]

/-- Of sources at distinct paths all are the latest. -/
theorem Distinct.latest_eq (h : Distinct sources) : latest sources = sources := by
  induction sources with
  | nil => rfl
  | cons s rest ih =>
    obtain ⟨hs, hrest⟩ := List.pairwise_cons.1 h
    have hnone : rest.any (·.path.Same s.path) = false := by
      rw [List.any_eq_false]
      intro t ht
      rw [decide_eq_true_eq]
      exact fun hts => hs t ht (Eq.symm hts)
    rw [latest, hnone, ih hrest]
    rfl

theorem distinct_others (h : Distinct sources) (path : Path) : Distinct (others path sources) :=
  h.sublist List.filter_sublist

/-- A source can be added in place of that at its path. -/
theorem Distinct.append (h : Distinct sources) (s : SourceText) :
    Distinct (others s.path sources ++ [s]) := by
  refine List.pairwise_append.2 ⟨distinct_others h s.path, List.pairwise_singleton _ _, ?_⟩
  intro t ht u hu
  rw [List.mem_singleton.1 hu]
  exact (mem_others.1 ht).2

/-- Only one source lies at a path. -/
theorem Distinct.exists_split (h : Distinct sources) (ht : t ∈ sources)
    (hpath : t.path.Same path) :
    ∃ before after, sources = before ++ t :: after ∧ others path sources = before ++ after := by
  obtain ⟨before, after, rfl⟩ := List.append_of_mem ht
  obtain ⟨-, hafter, hbefore⟩ := List.pairwise_append.1 h
  have hbefore (s : SourceText) (hs : s ∈ before) : ¬ s.path.Same path :=
    fun hsame => hbefore s hs t List.mem_cons_self (hsame.trans (Eq.symm hpath))
  have hafter (s : SourceText) (hs : s ∈ after) : ¬ s.path.Same path :=
    fun hsame => (List.pairwise_cons.1 hafter).1 s hs (hpath.trans (Eq.symm hsame))
  refine ⟨before, after, rfl, ?_⟩
  have hcons : others path (t :: after) = others path after := by simp [others, hpath]
  have happend : others path (before ++ t :: after) =
      others path before ++ others path (t :: after) := List.filter_append _ _
  rw [happend, hcons, others_eq_self hbefore, others_eq_self hafter]

/-- The latest sources lie at distinct paths. -/
theorem distinct_latest (history : List SourceText) : Distinct (latest history) := by
  induction history using List.reverseRecOn with
  | nil => exact List.Pairwise.nil
  | append_singleton history s ih =>
    rw [latest_append]
    exact ih.append s

/-- Every path of a history has a latest source. -/
theorem exists_mem_latest (h : s ∈ history) : ∃ t ∈ latest history, t.path.Same s.path := by
  induction history using List.reverseRecOn with
  | nil => cases h
  | append_singleton history u ih =>
    rw [latest_append]
    rcases List.mem_append.1 h with h | h
    · obtain ⟨t, ht, hts⟩ := ih h
      by_cases htu : t.path.Same u.path
      · exact ⟨u, by simp, (Eq.symm htu).trans hts⟩
      · exact ⟨t, List.mem_append_left _ (mem_others.2 ⟨ht, htu⟩), hts⟩
    · rw [List.mem_singleton.1 h]
      exact ⟨u, by simp, rfl⟩

end SourceText

/-! ## Projects of sources -/

namespace Project

open SourceText

variable {config : Config} {manifest : Option Manifest} {sources : List SourceText}

@[simp] theorem config_ofSources (config : Config) (manifest : Option Manifest)
    (sources : List SourceText) : (ofSources config manifest sources).config = config :=
  rfl

@[simp] theorem manifest_ofSources (config : Config) (manifest : Option Manifest)
    (sources : List SourceText) : (ofSources config manifest sources).manifest = manifest :=
  rfl

/-- The files are the models of the sources. -/
theorem files_ofSources (config : Config) (manifest : Option Manifest) (sources : List SourceText) :
    (ofSources config manifest sources).files = sources.filterMap (model? config.ambient) := by
  simp only [ofSources, ofFiles, List.filterMap_map]
  refine List.filterMap_congr fun s _ => ?_
  simp only [Function.comp, model?]

/-- The failures are those of the sources. -/
theorem failures_ofSources (config : Config) (manifest : Option Manifest)
    (sources : List SourceText) :
    (ofSources config manifest sources).failures = sources.filterMap (failure? config.ambient) := by
  simp only [ofSources, ofFiles, List.filterMap_map]
  refine List.filterMap_congr fun s _ => ?_
  simp only [Function.comp]
  unfold failure?
  cases s.analyze config.ambient <;> rfl

/-- A project of models and failures is that of the sources. -/
theorem ofFiles_eq_ofSources {files : List SourceModule} {failures : List Failure}
    (hfiles : files = sources.filterMap (model? config.ambient))
    (hfailures : failures = sources.filterMap (failure? config.ambient)) :
    ofFiles config manifest files failures = ofSources config manifest sources := by
  rw [hfiles, hfailures, ← files_ofSources config manifest, ← failures_ofSources config manifest]
  rfl

/-! ## One change -/

section Change

variable {path : Path} {source : SourceText} {file : SourceModule}

/-- Removing the file at a path leaves the others. -/
theorem eraseP_models {ambient : List String} (h : Distinct sources) (path : Path) :
    (sources.filterMap (model? ambient)).eraseP (·.path.Same path) =
      (others path sources).filterMap (model? ambient) := by
  induction sources with
  | nil => rfl
  | cons s rest ih =>
    obtain ⟨hs, hrest⟩ := List.pairwise_cons.1 h
    rw [others, List.filter_cons, ← others]
    by_cases hsame : s.path.Same path
    · -- Behind the source of that path there is no other one, so nothing more is taken out.
      have hothers : others path rest = rest :=
        others_eq_self fun t ht htp => hs t ht (hsame.trans (Eq.symm htp))
      obtain ⟨m, hm, -, hpath⟩ | ⟨f, hm, -⟩ := model?_or_failure? ambient s
      · rw [List.filterMap_cons_some hm, List.eraseP_cons_of_pos (by simpa [hpath] using hsame)]
        simp [hsame, hothers]
      · rw [List.filterMap_cons_none hm, ih hrest]
        simp [hsame]
    · obtain ⟨m, hm, -, hpath⟩ | ⟨f, hm, -⟩ := model?_or_failure? ambient s
      · rw [List.filterMap_cons_some hm, List.eraseP_cons_of_neg (by simpa [hpath] using hsame),
          ih hrest]
        simp [hsame, hm]
      · rw [List.filterMap_cons_none hm, ih hrest]
        simp [hsame, hm]

/-- A new file goes to the end. -/
theorem putFile_of_forall_not {files : List SourceModule}
    (h : ∀ f ∈ files, ¬ f.path.Same file.path) : putFile file files = files ++ [file] := by
  induction files with
  | nil => rfl
  | cons f rest ih =>
    obtain ⟨hf, hrest⟩ := List.forall_mem_cons.1 h
    rw [putFile, if_neg hf, ih hrest]
    rfl

/-- A known file keeps its place. -/
theorem putFile_append {before after : List SourceModule} {f : SourceModule}
    (h : ∀ b ∈ before, ¬ b.path.Same file.path) (hf : f.path.Same file.path) :
    putFile file (before ++ f :: after) = before ++ file :: after := by
  induction before with
  | nil => rw [List.nil_append, putFile, if_pos hf, List.nil_append]
  | cons b rest ih =>
    obtain ⟨hb, hrest⟩ := List.forall_mem_cons.1 h
    rw [List.cons_append, putFile, if_neg hb, ih hrest]
    rfl

/-- **An update that fails** removes the file and records the failure. -/
theorem update_of_error (project : Project) {error : AnalysisError}
    (h : source.analyze project.config.ambient = .error error) :
    project.update source =
      (ofFiles project.config project.manifest (project.files.eraseP (·.path.Same source.path))
        (project.failures.filter (fun f => ¬ f.path.Same source.path) ++
          [{ path := source.path, error }]), some error) := by
  unfold update
  generalize source.analyze project.config.ambient = outcome at h
  subst h
  rfl

/-- **An update that succeeds** puts the file and drops the failure. -/
theorem update_of_ok (project : Project) (h : source.analyze project.config.ambient = .ok file) :
    project.update source =
      (ofFiles project.config project.manifest (putFile file project.files)
        (project.failures.filter fun f => ¬ f.path.Same source.path), none) := by
  unfold update
  generalize source.analyze project.config.ambient = outcome at h
  subst h
  rfl

/-- **A project of sources stays one when a source changes.** The new source takes the place of the
old one of its path if both can be analyzed, and else it comes last. -/
theorem exists_update_eq (h : Distinct sources) (source : SourceText) :
    ∃ sources', sources'.Perm (others source.path sources ++ [source]) ∧
      ((ofSources config manifest sources).update source).1 =
        ofSources config manifest sources' := by
  have hfailures : (ofSources config manifest sources).failures.filter
      (fun f => ¬ f.path.Same source.path) =
        (others source.path sources).filterMap (failure? config.ambient) := by
    rw [failures_ofSources]
    exact filter_filterMap (fun _ _ => path_of_failure?) source.path sources
  cases hanalyze : source.analyze (ofSources config manifest sources).config.ambient with
  | error error =>
    obtain ⟨hmodel, hfailure⟩ := failure?_of_error hanalyze
    rw [config_ofSources] at hmodel hfailure
    refine ⟨_, .refl _, ?_⟩
    rw [update_of_error _ hanalyze, hfailures, files_ofSources, eraseP_models h, config_ofSources,
      manifest_ofSources]
    apply ofFiles_eq_ofSources
    · simp [hmodel]
    · simp [hfailure]
  | ok file =>
    have hpath : file.path = source.path := path_of_analyze hanalyze
    obtain ⟨hmodel, hfailure⟩ := model?_of_ok hanalyze
    rw [config_ofSources] at hmodel hfailure
    rw [update_of_ok _ hanalyze, hfailures, files_ofSources, config_ofSources, manifest_ofSources]
    by_cases hold : ∃ t ∈ sources, t.path.Same source.path ∧ (t.model? config.ambient).isSome
    · -- The old model is replaced where it stands.
      obtain ⟨t, ht, hsame, hsome⟩ := hold
      obtain ⟨f, hf⟩ := Option.isSome_iff_exists.1 hsome
      obtain ⟨before, after, rfl, hothers⟩ := h.exists_split ht hsame
      have hbefore (s : SourceText) (hs : s ∈ before) : ¬ s.path.Same source.path :=
        (mem_others.1 (hothers ▸ List.mem_append_left after hs)).2
      have hput : putFile file ((before ++ t :: after).filterMap (model? config.ambient)) =
          before.filterMap (model? config.ambient) ++
            file :: after.filterMap (model? config.ambient) := by
        rw [List.filterMap_append, List.filterMap_cons_some hf]
        refine putFile_append (fun b hb => ?_) ?_
        · obtain ⟨s, hs, hb⟩ := List.mem_filterMap.1 hb
          rw [path_of_model? hb, hpath]
          exact hbefore s hs
        · rw [path_of_model? hf, hpath]
          exact hsame
      rw [hothers, hput]
      refine ⟨before ++ source :: after, ?_, ofFiles_eq_ofSources ?_ ?_⟩
      · exact List.perm_middle.trans (List.perm_append_singleton _ _).symm
      · rw [List.filterMap_append, List.filterMap_cons_some hmodel]
      · rw [List.filterMap_append, List.filterMap_append, List.filterMap_cons_none hfailure]
    · -- There is no model of that path, so the new one comes last.
      have hnone (f : SourceModule) (hf : f ∈ sources.filterMap (model? config.ambient)) :
          ¬ f.path.Same source.path := by
        obtain ⟨t, ht, hf⟩ := List.mem_filterMap.1 hf
        rw [path_of_model? hf]
        exact fun hsame => hold ⟨t, ht, hsame, Option.isSome_of_eq_some hf⟩
      refine ⟨_, .refl _, ofFiles_eq_ofSources ?_ ?_⟩
      · rw [putFile_of_forall_not (hpath ▸ hnone), List.filterMap_append,
          ← filter_filterMap (fun _ _ => path_of_model?),
          List.filter_eq_self.2 fun f hf => decide_eq_true (hnone f hf)]
        simp [hmodel]
      · simp [hfailure]

end Change

/-! ### What a change leaves as it was -/

/-- The settings and the files of other paths are the same in both projects. -/
structure SameExcept (path : Path) (before after : Project) : Prop where
  /-- The settings stay. -/
  config : after.config = before.config
  /-- The manifest stays. -/
  manifest : after.manifest = before.manifest
  /-- The files of other paths stay, in their order. -/
  files : after.files.filter (fun f => ¬ f.path.Same path) =
    before.files.filter (fun f => ¬ f.path.Same path)
  /-- The failures of other paths stay, in their order. -/
  failures : after.failures.filter (fun f => ¬ f.path.Same path) =
    before.failures.filter (fun f => ¬ f.path.Same path)

theorem filter_putFile {path : Path} {file : SourceModule} (h : file.path.Same path)
    (files : List SourceModule) :
    (putFile file files).filter (fun f => ¬ f.path.Same path) =
      files.filter (fun f => ¬ f.path.Same path) := by
  induction files with
  | nil => simp [putFile, h]
  | cons f rest ih =>
    rw [putFile]
    split
    · next hf =>
      have hfpath : f.path.Same path := hf.trans h
      simp [h, hfpath]
    · rw [List.filter_cons, List.filter_cons, ih]

theorem filter_eraseP (path : Path) (files : List SourceModule) :
    (files.eraseP (·.path.Same path)).filter (fun f => ¬ f.path.Same path) =
      files.filter (fun f => ¬ f.path.Same path) := by
  induction files with
  | nil => rfl
  | cons f rest ih =>
    by_cases hf : f.path.Same path
    · rw [List.eraseP_cons_of_pos (by simpa using hf), List.filter_cons_of_neg (by simpa using hf)]
    · rw [List.eraseP_cons_of_neg (by simpa using hf), List.filter_cons, List.filter_cons, ih]

/-- **A change concerns one path**: of any project it leaves the files of the others alone. -/
theorem sameExcept_update (project : Project) (source : SourceText) :
    SameExcept source.path project (project.update source).1 := by
  cases hanalyze : source.analyze project.config.ambient with
  | error error =>
    rw [update_of_error project hanalyze]
    refine ⟨rfl, rfl, filter_eraseP source.path project.files, ?_⟩
    have hnew : Path.Same source.path source.path := rfl
    simp [ofFiles, hnew]
  | ok file =>
    have hpath : file.path.Same source.path := congrArg Path.components (path_of_analyze hanalyze)
    rw [update_of_ok project hanalyze]
    refine ⟨rfl, rfl, filter_putFile hpath project.files, ?_⟩
    simp [ofFiles]

/-! ## Any number of changes -/

/-- The project after some changes, one after the other. -/
def updateAll (project : Project) (updates : List SourceText) : Project :=
  updates.foldl (fun project source => (project.update source).1) project

/-- Updates are made one after another. -/
theorem updateAll_append (project : Project) (updates : List SourceText) (source : SourceText) :
    project.updateAll (updates ++ [source]) = ((project.updateAll updates).update source).1 := by
  rw [updateAll, List.foldl_append]
  rfl

/-- **After any changes** a project of sources is the project of the latest sources. -/
theorem exists_updateAll_eq (h : Distinct sources) (updates : List SourceText) :
    ∃ final, final.Perm (latest (sources ++ updates)) ∧
      (ofSources config manifest sources).updateAll updates = ofSources config manifest final := by
  induction updates using List.reverseRecOn with
  | nil => exact ⟨sources, by rw [List.append_nil, h.latest_eq], rfl⟩
  | append_singleton updates s ih =>
    obtain ⟨final, hperm, hfinal⟩ := ih
    have hdistinct : Distinct final :=
      (distinct_latest _).perm hperm.symm fun hab hba => hab (Eq.symm hba)
    obtain ⟨sources', hperm', hsources'⟩ := exists_update_eq hdistinct s
    refine ⟨sources', ?_, ?_⟩
    · rw [← List.append_assoc, latest_append]
      exact hperm'.trans ((hperm.filter _).append_right [s])
    · rw [updateAll_append, hfinal]
      exact hsources'

/-! ## Being in step -/

/-- A project is in step with a history of sources. -/
structure InStep (project : Project) (config : Config) (manifest : Option Manifest)
    (history : List SourceText) : Prop where
  /-- Every path of the history stands once among the files or once among the failures. -/
  once : ∀ s ∈ history, project.files.countP (·.path.Same s.path) +
    project.failures.countP (·.path.Same s.path) = 1
  /-- The files are the models of the latest sources that can be analyzed. -/
  file : ∀ m, m ∈ project.files ↔ ∃ s ∈ latest history, s.analyze config.ambient = .ok m
  /-- The failures carry the errors of the latest sources that cannot be analyzed. -/
  failure : ∀ f, f ∈ project.failures ↔
    ∃ s ∈ latest history, s.analyze config.ambient = .error f.error ∧ s.path = f.path
  /-- The links are those of the files. -/
  linked : project.links = .ofFiles project.files (checkedDependencies manifest config)
  /-- The project is the one of the latest sources, listed in some order. -/
  rebuilt : ∃ sources, sources.Perm (latest history) ∧ project = ofSources config manifest sources

/-- At every path there is a file or a failure for each source. -/
theorem countP_ofSources (config : Config) (manifest : Option Manifest) (sources : List SourceText)
    (path : Path) :
    (ofSources config manifest sources).files.countP (·.path.Same path) +
        (ofSources config manifest sources).failures.countP (·.path.Same path) =
      sources.countP (·.path.Same path) := by
  rw [files_ofSources, failures_ofSources]
  induction sources with
  | nil => rfl
  | cons s rest ih =>
    obtain ⟨m, hm, hf, hpath⟩ | ⟨f, hm, hf, hpath⟩ := model?_or_failure? config.ambient s
    · rw [List.filterMap_cons_some hm, List.filterMap_cons_none hf, List.countP_cons,
        List.countP_cons, ← ih, hpath]
      omega
    · rw [List.filterMap_cons_none hm, List.filterMap_cons_some hf, List.countP_cons,
        List.countP_cons, ← ih, hpath]
      omega

/-- The files of a project come from its sources. -/
theorem mem_files_ofSources {m : SourceModule} :
    m ∈ (ofSources config manifest sources).files ↔
      ∃ s ∈ sources, s.analyze config.ambient = .ok m := by
  rw [files_ofSources, List.mem_filterMap]
  refine exists_congr fun s => and_congr_right fun _ => ?_
  rw [model?_eq_some_iff]

theorem mem_failures_ofSources {f : Failure} :
    f ∈ (ofSources config manifest sources).failures ↔
      ∃ s ∈ sources, s.analyze config.ambient = .error f.error ∧ s.path = f.path := by
  rw [failures_ofSources, List.mem_filterMap]
  refine exists_congr fun s => and_congr_right fun _ => ?_
  rw [failure?_eq_some_iff]

/-- The project of the latest sources is in step with a history. -/
theorem inStep_ofSources {history : List SourceText} (hperm : sources.Perm (latest history)) :
    InStep (ofSources config manifest sources) config manifest history where
  once s hs := by
    obtain ⟨t, ht, hts⟩ := exists_mem_latest hs
    obtain ⟨before, after, hlatest, hothers⟩ := (distinct_latest history).exists_split ht hts
    rw [countP_ofSources, hperm.countP_eq, hlatest]
    have hnone : (before ++ after).countP (·.path.Same s.path) = 0 := by
      rw [← hothers, List.countP_eq_zero]
      intro u hu
      simpa using (mem_others.1 hu).2
    rw [List.countP_append] at hnone ⊢
    rw [List.countP_cons_of_pos (by simpa using hts)]
    omega
  file m := by
    rw [mem_files_ofSources]
    exact exists_congr fun s => and_congr_left' hperm.mem_iff
  failure f := by
    rw [mem_failures_ofSources]
    exact exists_congr fun s => and_congr_left' hperm.mem_iff
  linked := rfl
  rebuilt := ⟨sources, hperm, rfl⟩

/-- **A project keeps in step with its sources.** Given sources of different paths and any changes
of them, with success or without, the project is in step with all that was given; and the next
change leaves the files of the other paths alone. -/
theorem updateAll_inStep (config : Config) (manifest : Option Manifest) (h : Distinct sources)
    (updates : List SourceText) :
    InStep ((ofSources config manifest sources).updateAll updates) config manifest
        (sources ++ updates) ∧
      ∀ source, SameExcept source.path ((ofSources config manifest sources).updateAll updates)
        ((ofSources config manifest sources).updateAll (updates ++ [source])) := by
  constructor
  · obtain ⟨final, hperm, hfinal⟩ := exists_updateAll_eq h updates
    rw [hfinal]
    exact inStep_ofSources hperm
  · intro source
    rw [updateAll_append]
    exact sameExcept_update _ source

/-- The importing file breaks, under another spelling of its path, and is mended. -/
def brokenAndMended : List SourceText :=
  [{ path := ⟨"/app/./a.js"⟩, text := some "import './b", tree := none },
   { path := ⟨"/app/a.js"⟩, text := some "import './b';", tree := some importOfFile }]

/-- The mended file comes back behind the other, and its link follows it there. -/
theorem updateAll_inStep_brokenAndMended :
    Distinct importerAndTarget ∧
    InStep ((ofSources {} none importerAndTarget).updateAll brokenAndMended) {} none
      (importerAndTarget ++ brokenAndMended) ∧
    (ofSources {} none importerAndTarget).links.modules = [⟨0, 0, 1⟩] ∧
    ((ofSources {} none importerAndTarget).updateAll brokenAndMended).links.modules =
      [⟨1, 0, 0⟩] := by
  have hdistinct : Distinct importerAndTarget := by decide +kernel
  exact ⟨hdistinct, (updateAll_inStep {} none hdistinct brokenAndMended).1, by decide +kernel,
    by decide +kernel⟩

end Project

end DeadCode
