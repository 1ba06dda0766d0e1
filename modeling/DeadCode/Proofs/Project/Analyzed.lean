import DeadCode.Proofs.Project.Closure

/-! # Analyzed files

The files of a project are models of sources: of a source with a tree, in a language that the path of
the source tells. -/

namespace DeadCode

/-! ## Models of sources -/

namespace SourceModule

variable {m : SourceModule}

/-- A file is the model of some source. -/
def Analyzed (m : SourceModule) : Prop :=
  ∃ path source language tree ambient, analyze path source language tree ambient = .ok m

/-- What is analyzed has a tree. -/
theorem exists_ofTree_of_analyze {path : Path} {source : String} {language : Language}
    {tree : Option Node} {ambient : List String}
    (h : analyze path source language tree ambient = .ok m) :
    ∃ root, tree = some root ∧ ofTree path source language root ambient = .ok m := by
  unfold analyze at h
  split at h
  · cases h
  · next root =>
    split at h
    · cases h
    · exact ⟨root, rfl, h⟩

/-- What was analyzed has a tree. -/
theorem Analyzed.hasTree (h : m.Analyzed) : m.HasTree := by
  obtain ⟨path, source, language, tree, ambient, h⟩ := h
  obtain ⟨root, -, htree⟩ := exists_ofTree_of_analyze h
  exact ⟨path, source, language, root, ambient, htree⟩

end SourceModule

namespace SourceText

variable {ambient : List String} {source : SourceText} {m : SourceModule}

/-- A source that is analyzed has a text, a language and a tree. -/
theorem exists_analyze (h : source.analyze ambient = .ok m) :
    ∃ text language, source.text = some text ∧ Language.ofPath source.path = .ok language ∧
      SourceModule.analyze source.path text language source.tree ambient = .ok m := by
  unfold analyze at h
  cases hlanguage : Language.ofPath source.path with
  | error e =>
    rw [hlanguage] at h
    cases h
  | ok language =>
    rw [hlanguage] at h
    cases htext : source.text with
    | none =>
      rw [htext] at h
      cases h
    | some text =>
      rw [htext] at h
      exact ⟨text, language, rfl, rfl, h⟩

/-- The analysis of a source with a tree is the model of the tree. -/
theorem exists_ofTree {path : Path} {text : String} {root : Node}
    (h : analyze ambient ⟨path, some text, some root⟩ = .ok m) :
    ∃ language, SourceModule.ofTree path text language root ambient = .ok m := by
  obtain ⟨_, language, htext, -, hanalyze⟩ := exists_analyze h
  obtain ⟨_, hroot, htree⟩ := SourceModule.exists_ofTree_of_analyze hanalyze
  cases htext
  cases hroot
  exact ⟨language, htree⟩

/-- A model has the path of its source. -/
theorem path_of_analyze (h : source.analyze ambient = .ok m) : m.path = source.path := by
  obtain ⟨text, language, -, -, hanalyze⟩ := exists_analyze h
  obtain ⟨root, -, htree⟩ := SourceModule.exists_ofTree_of_analyze hanalyze
  exact (SourceModule.of_ofTree htree).1

theorem extension?_of_analyze (h : source.analyze ambient = .ok m) :
    source.path.extension?.isSome := by
  obtain ⟨text, language, -, hlanguage, -⟩ := exists_analyze h
  unfold Language.ofPath Language.ofPath? at hlanguage
  cases hextension : source.path.extension? with
  | some extension => rfl
  | none =>
    have hempty : Language.ofExtension? "" = none := by decide +kernel
    rw [hextension, Option.getD_none, hempty] at hlanguage
    cases hlanguage

end SourceText

namespace SourceModule

variable {m : SourceModule}

/-- A file is the model of a source whose path tells its language. -/
def OfSource (m : SourceModule) : Prop :=
  ∃ ambient source, SourceText.analyze ambient source = .ok m

namespace OfSource

theorem analyzed (h : m.OfSource) : m.Analyzed := by
  obtain ⟨ambient, source, hanalyze⟩ := h
  obtain ⟨text, language, -, -, hanalyze⟩ := SourceText.exists_analyze hanalyze
  exact ⟨_, _, _, _, _, hanalyze⟩

theorem extension? (h : m.OfSource) : m.path.extension?.isSome := by
  obtain ⟨ambient, source, hanalyze⟩ := h
  rw [SourceText.path_of_analyze hanalyze]
  exact SourceText.extension?_of_analyze hanalyze

end OfSource

end SourceModule

namespace Project

/-- The files of a project come from sources. -/
theorem ofSource_of_mem_files {config : Config} {manifest : Option Manifest}
    {sources : List SourceText} {m : SourceModule}
    (h : m ∈ (ofSources config manifest sources).files) : m.OfSource := by
  simp only [ofSources, ofFiles, List.filterMap_map, List.mem_filterMap, Function.comp] at h
  obtain ⟨s, -, hm⟩ := h
  cases hanalyze : s.analyze config.ambient with
  | error error =>
    rw [hanalyze] at hm
    cases hm
  | ok m' =>
    rw [hanalyze] at hm
    cases hm
    exact ⟨config.ambient, s, hanalyze⟩

theorem analyzed_of_mem_files {config : Config} {manifest : Option Manifest}
    {sources : List SourceText} {m : SourceModule}
    (h : m ∈ (ofSources config manifest sources).files) : m.Analyzed :=
  (ofSource_of_mem_files h).analyzed

/-- A file that imports another, and that other file. -/
def importerAndTarget : List SourceText :=
  [{ path := ⟨"/app/a.js"⟩, text := some "import './b';", tree := some importOfFile },
   { path := ⟨"/app/b.js"⟩, text := some "function f() \x7b require('p') \x7d"
     tree := some requireInFunction }]

end Project

end DeadCode
