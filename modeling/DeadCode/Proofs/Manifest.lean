import DeadCode.Manifest.Basic
import DeadCode.Proofs.Sorting
import Mathlib.Data.List.Pairwise
import Mathlib.Data.List.Perm.Basic

/-! # The dependencies that are checked

All groups of a manifest are sorted together, by name and then by the label of the group, and the
first dependency of each name is kept. The labels put development before optional and production
dependencies, so a name that several groups declare is checked as the first of these that counts. -/

namespace DeadCode

/-! ## The first item of each key -/

section DistinctBy

variable {α β : Type} [DecidableEq β] {key : α → β}

/-- The first of each key is kept. -/
theorem mem_distinctBy {x : α} {xs : List α} :
    x ∈ distinctBy key xs ↔ xs.find? (key · = key x) = some x := by
  induction xs with
  | nil => simp [distinctBy]
  | cons y rest ih =>
    rw [distinctBy, List.mem_cons, List.mem_filter, ih, List.find?_cons]
    by_cases hkey : key y = key x
    · simp [hkey, eq_comm]
    · have hne : x ≠ y := fun h => hkey (h ▸ rfl)
      simp [hkey, Ne.symm hkey, hne]

theorem distinctBy_sublist (xs : List α) : (distinctBy key xs).Sublist xs := by
  induction xs with
  | nil => exact .slnil
  | cons x rest ih => exact (List.filter_sublist.trans ih).cons_cons x

theorem pairwise_distinctBy (xs : List α) :
    (distinctBy key xs).Pairwise fun x y => key x ≠ key y := by
  induction xs with
  | nil => exact .nil
  | cons x rest ih =>
    refine List.pairwise_cons.2 ⟨fun y hy => ?_, ih.sublist List.filter_sublist⟩
    exact Ne.symm (of_decide_eq_true (List.mem_filter.1 hy).2)

end DistinctBy

/-- The first item with a property stands before all others that have it. -/
theorem eq_or_of_find? {α : Type} {R : α → α → Prop} {p : α → Bool} {x y : α} {xs : List α}
    (hsorted : xs.Pairwise R) (hx : xs.find? p = some x) (hy : y ∈ xs) (hp : p y) :
    x = y ∨ R x y := by
  obtain ⟨_, before, after, rfl, hbefore⟩ := List.find?_eq_some_iff_append.1 hx
  rcases List.mem_append.1 hy with hy | hy
  · exact absurd hp (by simpa using hbefore y hy)
  · rcases List.mem_cons.1 hy with rfl | hy
    · exact .inl rfl
    · exact .inr ((List.pairwise_cons.1 (List.pairwise_append.1 hsorted).2.1).1 y hy)

/-! ## The order of dependencies -/

namespace DependencyKind

theorem label_injective : Function.Injective label := by
  intro kind kind' h
  cases kind <;> cases kind' <;> simp_all [label]

/-- The kinds in the order of their labels, without that of dependencies others provide. -/
def precedence : List DependencyKind :=
  [.development, .optional, .production]

/-- The first kind of the order is the one with the least label. -/
theorem find?_precedence {counts : DependencyKind → Bool} (hpeer : counts .peer = false)
    {kind : DependencyKind} :
    precedence.find? counts = some kind ↔
      counts kind ∧ ∀ kind', counts kind' → kind.label ≤ kind'.label := by
  have hall (P : DependencyKind → Prop) :
      (∀ k, P k) ↔ P .production ∧ P .development ∧ P .peer ∧ P .optional :=
    ⟨fun h => ⟨h _, h _, h _, h _⟩, fun ⟨hp, hd, he, ho⟩ k => by cases k <;> assumption⟩
  have hdo : ("dev" : String) ≤ "optional" := by decide
  have hdp : ("dev" : String) ≤ "prod" := by decide
  have hop : ("optional" : String) ≤ "prod" := by decide
  have hod : ¬ ("optional" : String) ≤ "dev" := by decide
  have hpd : ¬ ("prod" : String) ≤ "dev" := by decide
  have hpo : ¬ ("prod" : String) ≤ "optional" := by decide
  rw [hall, precedence]
  cases hd : counts .development <;> cases ho : counts .optional <;>
    cases hp : counts .production <;> cases kind <;> simp_all [label]

end DependencyKind

namespace Dependency

/-- Dependencies compared by name and then by label. -/
def compareNames : Dependency → Dependency → Ordering :=
  compareLex (compareOn name) (compareOn (·.kind.label))

instance : Std.TransCmp compareNames :=
  inferInstanceAs (Std.TransCmp (compareLex _ _))

theorem isLE_compare (a b : String) : (compare a b).isLE ↔ a ≤ b := by
  change (compareOfLessAndEq a b).isLE ↔ a ≤ b
  unfold compareOfLessAndEq
  split
  · next hlt => simpa using Std.le_of_lt hlt
  · split
    · next heq => simp [heq]
    · next hlt hne =>
      simp only [Ordering.isLE_gt, Bool.false_eq_true, false_iff]
      exact fun hle => hne (String.le_antisymm hle (String.not_lt.1 hlt))

theorem precedes_eq_isLE (a b : Dependency) : precedes a b = (compareNames a b).isLE := by
  have hlt : compare a.name b.name = .lt ↔ a.name < b.name := compareOfLessAndEq_eq_lt
  rw [Bool.eq_iff_iff, compareNames, compareLex, Ordering.isLE_then_iff_or]
  simp [precedes, compareOn, isLE_compare, hlt]

theorem name_lt_of_precedes {a b : Dependency} (h : precedes a b) (hne : a.name ≠ b.name) :
    a.name < b.name := by
  simpa [precedes, hne] using h

theorem label_le_of_precedes {a b : Dependency} (h : precedes a b) (heq : a.name = b.name) :
    a.kind.label ≤ b.kind.label := by
  simpa [precedes, heq] using h

end Dependency

/-! ## What is checked -/

namespace Manifest

variable {manifest : Manifest} {d : Dependency} {includeDevelopment : Bool}

/-- A group of a manifest declares a package. -/
def declares (manifest : Manifest) (name : String) (kind : DependencyKind) : Bool :=
  (manifest.group kind).any (·.name = name)

/-- A group of a manifest declares a package and is checked. -/
def wants (manifest : Manifest) (includeDevelopment : Bool) (name : String)
    (kind : DependencyKind) : Bool :=
  checks includeDevelopment kind && manifest.declares name kind

/-- **The groups of a manifest have each name once**, as its tables have. -/
theorem pairwise_group (manifest : Manifest) (kind : DependencyKind) :
    (manifest.group kind).Pairwise fun d e => d.name ≠ e.name := by
  have hnodup (table : Option NameTable) : ((table.getD .empty).entries.map fun (name, version) =>
      ({ name, version, kind } : Dependency)).Pairwise fun d e => d.name ≠ e.name :=
    List.pairwise_map.2 (List.pairwise_map.1 (table.getD .empty).nodup)
  exact hnodup _

/-- The dependencies of a group are of its kind. -/
theorem kind_of_mem_group {kind : DependencyKind} (h : d ∈ manifest.group kind) :
    d.kind = kind := by
  obtain ⟨entry, _, rfl⟩ := List.mem_map.1 h
  rfl

/-- The dependencies of all groups. -/
theorem mem_dependencies : d ∈ manifest.dependencies ↔ d ∈ manifest.group d.kind := by
  simp only [dependencies, mem_sortBy, List.mem_flatMap]
  constructor
  · rintro ⟨kind, _, hd⟩
    rwa [kind_of_mem_group hd]
  · intro h
    exact ⟨d.kind, by cases d.kind <;> simp, h⟩

/-- The names that a group declares. -/
theorem declares_iff {name : String} {kind : DependencyKind} :
    manifest.declares name kind ↔ ∃ d ∈ manifest.group kind, d.name = name := by
  simp [declares]

theorem wants_of_mem_group (h : d ∈ manifest.group d.kind)
    (hchecks : checks includeDevelopment d.kind) :
    manifest.wants includeDevelopment d.name d.kind := by
  simpa [wants, hchecks] using declares_iff.2 ⟨d, h, rfl⟩

/-- Dependencies of one group are told apart by their names. -/
theorem eq_of_mem_group {e : Dependency} (hd : d ∈ manifest.group d.kind)
    (he : e ∈ manifest.group e.kind) (hkind : d.kind = e.kind) (hname : d.name = e.name) :
    d = e := by
  have hsymm : Std.Symm fun d e : Dependency => d.name ≠ e.name := ⟨fun _ _ => Ne.symm⟩
  by_contra hne
  rw [← hkind] at he
  exact (manifest.pairwise_group d.kind).forall hd he hne hname

/-- The checked dependencies are in order. -/
theorem pairwise_checked (manifest : Manifest) (includeDevelopment : Bool) :
    (manifest.checked includeDevelopment).Pairwise fun d e => d.name < e.name := by
  have hsorted : (manifest.dependencies.filter fun d => checks includeDevelopment d.kind).Pairwise
      fun d e => d.precedes e :=
    (pairwise_sortBy Dependency.precedes_eq_isLE _).sublist List.filter_sublist
  exact ((hsorted.sublist (distinctBy_sublist _)).and (pairwise_distinctBy _)).imp
    fun h => Dependency.name_lt_of_precedes h.1 h.2

/-- A dependency is checked if its group is the first that counts. -/
theorem mem_checked_iff :
    d ∈ manifest.checked includeDevelopment ↔ d ∈ manifest.group d.kind ∧
      DependencyKind.precedence.find? (manifest.wants includeDevelopment d.name) =
        some d.kind := by
  have hpeer : manifest.wants includeDevelopment d.name .peer = false := by
    simp [wants, checks, DependencyKind.expectsImport]
  have hmem {e : Dependency} :
      e ∈ manifest.dependencies.filter (fun d => checks includeDevelopment d.kind) ↔
        e ∈ manifest.group e.kind ∧ checks includeDevelopment e.kind := by
    rw [List.mem_filter, mem_dependencies]
  rw [checked, mem_distinctBy, DependencyKind.find?_precedence hpeer]
  have hsorted : (manifest.dependencies.filter fun d => checks includeDevelopment d.kind).Pairwise
      fun d e => d.precedes e :=
    (pairwise_sortBy Dependency.precedes_eq_isLE _).sublist List.filter_sublist
  constructor
  · intro hfind
    obtain ⟨hd, hchecks⟩ := hmem.1 (List.mem_of_find?_eq_some hfind)
    refine ⟨hd, wants_of_mem_group hd hchecks, fun kind hkind => ?_⟩
    obtain ⟨hcheckskind, hdeclares⟩ := Bool.and_eq_true_iff.1 hkind
    obtain ⟨e, he, hname⟩ := declares_iff.1 hdeclares
    obtain rfl := kind_of_mem_group he
    rcases eq_or_of_find? hsorted hfind (hmem.2 ⟨he, hcheckskind⟩) (by simpa using hname)
      with rfl | hle
    · exact String.le_refl _
    · exact Dependency.label_le_of_precedes hle hname.symm
  · rintro ⟨hd, hwants, hleast⟩
    have hchecks := (Bool.and_eq_true_iff.1 hwants).1
    obtain ⟨e, hfind⟩ : ∃ e, (manifest.dependencies.filter fun d =>
        checks includeDevelopment d.kind).find? (·.name = d.name) = some e :=
      Option.isSome_iff_exists.1 (List.find?_isSome.2 ⟨d, hmem.2 ⟨hd, hchecks⟩, by simp⟩)
    obtain ⟨he, hcheckse⟩ := hmem.1 (List.mem_of_find?_eq_some hfind)
    have hname : e.name = d.name := by simpa using List.find?_some hfind
    -- The one that comes first has the least label too, so it is of the same group.
    rcases eq_or_of_find? hsorted hfind (hmem.2 ⟨hd, hchecks⟩) (by simp) with rfl | hle
    · exact hfind
    · have hwantse := wants_of_mem_group he hcheckse
      rw [hname] at hwantse
      have hlabel := String.le_antisymm (hleast e.kind hwantse)
        (Dependency.label_le_of_precedes hle hname)
      rw [hfind, eq_of_mem_group hd he (DependencyKind.label_injective hlabel) hname.symm]

/-- The list of dependencies does not depend on the order of the tables. -/
theorem dependencies_eq_of_perm {manifest' : Manifest}
    (hperm : ∀ kind, (manifest.group kind).Perm (manifest'.group kind)) :
    manifest.dependencies = manifest'.dependencies := by
  refine sortBy_of_perm Dependency.precedes_eq_isLE (.flatMap_left _ fun kind _ => hperm kind) ?_
  have hlevel {d e : Dependency} (heq : Dependency.compareNames d e = .eq) :
      d.name = e.name ∧ d.kind = e.kind := by
    obtain ⟨hname, hlabel⟩ := compareLex_eq_eq.1 heq
    exact ⟨Std.LawfulEqOrd.eq_of_compare hname,
      DependencyKind.label_injective (Std.LawfulEqOrd.eq_of_compare hlabel)⟩
  have hkinds : [DependencyKind.production, .development, .peer, .optional].Nodup := by decide
  refine List.pairwise_flatMap.2 ⟨fun kind _ => (manifest.pairwise_group kind).imp fun hne heq =>
    hne (hlevel heq).1, hkinds.imp fun hne d hd e he heq => hne ?_⟩
  rw [← kind_of_mem_group hd, ← kind_of_mem_group he, (hlevel heq).2]

/-- **What is checked**, of every manifest. The names increase; they
are those of production and optional dependencies and, on demand, of those for development. A
dependency is checked with the version and the kind of the first group that counts, in the order
development, optional, production. Nothing depends on the order of the tables. -/
theorem checked_exact (manifest : Manifest) (includeDevelopment : Bool) :
    (manifest.checked includeDevelopment).Pairwise (fun d e => d.name < e.name) ∧
    (∀ name, (∃ d ∈ manifest.checked includeDevelopment, d.name = name) ↔
      manifest.declares name .production ∨ manifest.declares name .optional ∨
        includeDevelopment ∧ manifest.declares name .development) ∧
    (∀ d, d ∈ manifest.checked includeDevelopment ↔ d ∈ manifest.group d.kind ∧
      DependencyKind.precedence.find? (manifest.wants includeDevelopment d.name) =
        some d.kind) ∧
    ∀ manifest' : Manifest, (∀ kind, (manifest.group kind).Perm (manifest'.group kind)) →
      manifest.checked includeDevelopment = manifest'.checked includeDevelopment := by
  refine ⟨pairwise_checked manifest includeDevelopment, fun name => ?_, fun d =>
    mem_checked_iff, fun manifest' hperm => by
      rw [checked, checked, dependencies_eq_of_perm hperm]⟩
  have hwanted : (∃ kind ∈ DependencyKind.precedence,
      manifest.wants includeDevelopment name kind) ↔
      manifest.declares name .production ∨ manifest.declares name .optional ∨
        includeDevelopment ∧ manifest.declares name .development := by
    simp [DependencyKind.precedence, wants, checks, DependencyKind.expectsImport]
    tauto
  rw [← hwanted, ← List.find?_isSome]
  constructor
  · rintro ⟨d, hd, rfl⟩
    rw [(mem_checked_iff.1 hd).2]
    rfl
  · intro hsome
    obtain ⟨kind, hfind⟩ := Option.isSome_iff_exists.1 hsome
    have hwants : manifest.wants includeDevelopment name kind := List.find?_some hfind
    obtain ⟨d, hd, rfl⟩ := declares_iff.1 (Bool.and_eq_true_iff.1 hwants).2
    obtain rfl := kind_of_mem_group hd
    exact ⟨d, mem_checked_iff.2 ⟨hd, hfind⟩, rfl⟩

/-- A manifest that declares one package in three groups, and another one as a peer. -/
def overlapping : Manifest where
  production := some { entries := [("react", "^18"), ("lodash", "4")] }
  development := some { entries := [("lodash", "4.17")] }
  peer := some { entries := [("vue", "*"), ("react", "*")] }
  optional := some { entries := [("lodash", "*")] }

/-- Of the three groups that declare `lodash` the one for development counts. -/
theorem checked_exact_overlapping :
    (overlapping.checked true).map (·.render) =
      ["lodash@4.17 (development)", "react@^18 (production)"] ∧
    (overlapping.checked true).Pairwise (fun d e => d.name < e.name) := by
  exact ⟨by decide +kernel, (checked_exact overlapping true).1⟩

end Manifest

end DeadCode
