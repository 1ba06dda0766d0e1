import DeadCode.Proofs.Json
import DeadCode.Report.Json

/-! # Reports as JSON lose nothing

The JSON text of a report tells the report: every finding is encoded with all that is known of it,
labels stand for one reason or group each, and a field is left out only if it would be empty. -/

namespace DeadCode

theorem DependencyKind.name_injective : Function.Injective name := by
  intro a b h
  cases a <;> cases b <;> first | rfl | simp [name] at h

theorem DeadReason.label_injective : Function.Injective label := by
  intro a b h
  cases a <;> cases b <;> first | rfl | simp [label] at h

theorem UnresolvedReason.label_injective : Function.Injective label := by
  intro a b h
  cases a <;> cases b <;> first | rfl | simp [label] at h

namespace Report

open Json

/-! ## Findings -/

theorem listJson_injective {α : Type} {encode : α → Json} (h : Function.Injective encode) :
    Function.Injective (listJson encode) := by
  intro xs ys heq
  exact List.map_injective_iff.2 h (array.inj heq)

theorem pathJson_injective : Function.Injective pathJson := by
  intro a b h
  cases a
  cases b
  simpa [pathJson] using h

theorem dependencyJson_injective : Function.Injective dependencyJson := by
  rintro ⟨name, version, kind⟩ ⟨name', version', kind'⟩ h
  simp only [dependencyJson, object.injEq, List.cons.injEq, Prod.mk.injEq, string.injEq, true_and,
    and_true, DependencyKind.name_injective.eq_iff] at h
  simpa using h

theorem statementJson_injective : Function.Injective statementJson := by
  rintro ⟨path, ⟨line, column⟩, kind, names, reason⟩ ⟨path', ⟨line', column'⟩, kind', names', reason'⟩ h
  simp only [statementJson, object.injEq, List.cons.injEq, Prod.mk.injEq, string.injEq, true_and,
    and_true, pathJson_injective.eq_iff, ofNat_inj,
    (listJson_injective fun _ _ => string.inj).eq_iff, DeadReason.label_injective.eq_iff] at h
  simpa [and_assoc] using h

theorem unresolvedJson_injective : Function.Injective unresolvedJson := by
  rintro ⟨path, line, source, imported, reason⟩ ⟨path', line', source', imported', reason'⟩ h
  simp only [unresolvedJson, object.injEq, List.cons.injEq, Prod.mk.injEq, string.injEq, true_and,
    and_true, pathJson_injective.eq_iff, ofNat_inj, UnresolvedReason.label_injective.eq_iff] at h
  simpa using h

theorem failureJson_injective : Function.Injective failureJson := by
  rintro ⟨path, message⟩ ⟨path', message'⟩ h
  simp only [failureJson, object.injEq, List.cons.injEq, Prod.mk.injEq, string.injEq, true_and,
    and_true, pathJson_injective.eq_iff] at h
  simpa using h

/-! ## The fields of a report -/

/-- The fields of the encoded report. -/
def fields (report : Report) : List (String × Json) :=
  (report.projectName.toList.map fun name => ("project", .string name))
    ++ [("entries", listJson pathJson report.entries), ("summary", summaryJson report),
      ("dead_files", listJson pathJson report.deadFiles),
      ("dead_dependencies", listJson dependencyJson report.deadDependencies),
      ("dead_statements", listJson statementJson report.deadStatements)]
    ++ listField "unresolved_imports" unresolvedJson report.unresolvedImports
    ++ listField "failures" failureJson report.failures

theorem toJson_eq (report : Report) : report.toJson = .object report.fields :=
  rfl

theorem lookup_listField {α : Type} (name key : String) (encode : α → Json) (items : List α) :
    (listField key encode items).lookup name =
      if name = key ∧ items ≠ [] then some (listJson encode items) else none := by
  cases items <;> by_cases h : name = key <;> simp [listField, h]

theorem lookup_fields (report : Report) :
    report.fields.lookup "project" = report.projectName.map .string ∧
    report.fields.lookup "entries" = some (listJson pathJson report.entries) ∧
    report.fields.lookup "summary" = some (summaryJson report) ∧
    report.fields.lookup "dead_files" = some (listJson pathJson report.deadFiles) ∧
    report.fields.lookup "dead_dependencies" =
      some (listJson dependencyJson report.deadDependencies) ∧
    report.fields.lookup "dead_statements" = some (listJson statementJson report.deadStatements) ∧
    report.fields.lookup "unresolved_imports" = (if report.unresolvedImports = [] then none
      else some (listJson unresolvedJson report.unresolvedImports)) ∧
    report.fields.lookup "failures" = (if report.failures = [] then none
      else some (listJson failureJson report.failures)) := by
  unfold fields
  simp only [List.lookup_append, lookup_listField]
  cases report.projectName <;> simp [List.lookup_cons]

theorem eq_of_listField {α : Type} {encode : α → Json} (h : Function.Injective encode)
    {xs ys : List α}
    (heq : (if xs = [] then none else some (listJson encode xs)) =
      if ys = [] then none else some (listJson encode ys)) : xs = ys := by
  split at heq <;> split at heq
  · next hx hy => rw [hx, hy]
  · cases heq
  · cases heq
  · exact listJson_injective h (Option.some.inj heq)

theorem eq_of_fields {report report' : Report} (h : report.fields = report'.fields) :
    report = report' := by
  obtain ⟨hproject, hentries, hsummary, hfiles, hdependencies, hstatements, himports, hfailures⟩ :=
    lookup_fields report
  obtain ⟨hproject', hentries', hsummary', hfiles', hdependencies', hstatements', himports',
    hfailures'⟩ := lookup_fields report'
  rw [h] at hproject hentries hsummary hfiles hdependencies hstatements himports hfailures
  have hcounts := Option.some.inj (hsummary.symm.trans hsummary')
  simp only [summaryJson, object.injEq, List.cons.injEq, Prod.mk.injEq, true_and, ofNat_inj]
    at hcounts
  have hname : report.projectName = report'.projectName :=
    Option.map_injective (fun _ _ => string.inj) (hproject.symm.trans hproject')
  have hentries := listJson_injective pathJson_injective
    (Option.some.inj (hentries.symm.trans hentries'))
  have hfiles := listJson_injective pathJson_injective (Option.some.inj (hfiles.symm.trans hfiles'))
  have hdependencies := listJson_injective dependencyJson_injective
    (Option.some.inj (hdependencies.symm.trans hdependencies'))
  have hstatements := listJson_injective statementJson_injective
    (Option.some.inj (hstatements.symm.trans hstatements'))
  have himports := eq_of_listField unresolvedJson_injective (himports.symm.trans himports')
  have hfailures := eq_of_listField failureJson_injective (hfailures.symm.trans hfailures')
  cases report
  cases report'
  simp_all

/-! ## The text -/

theorem proper_listJson {α : Type} {encode : α → Json} (h : ∀ x, (encode x).Proper)
    (items : List α) : (listJson encode items).Proper := by
  refine .array fun item hitem => ?_
  obtain ⟨x, -, rfl⟩ := List.mem_map.1 hitem
  exact h x

theorem proper_listField {α : Type} {encode : α → Json} (h : ∀ x, (encode x).Proper)
    (key : String) (items : List α) : ∀ f ∈ listField key encode items, f.2.Proper := by
  unfold listField
  split
  · simp
  · simpa using proper_listJson h items

theorem proper_toJson (report : Report) : report.toJson.Proper := by
  have hpaths : ∀ path, (pathJson path).Proper := fun path => .string path.text
  have hdependency : ∀ d, (dependencyJson d).Proper := fun d =>
    .object (by simp [Proper.string])
  have hstatement : ∀ s, (statementJson s).Proper := fun s =>
    .object (by simp [Proper.string, proper_ofNat, hpaths, proper_listJson])
  have hsummary : (summaryJson report).Proper := .object (by simp [proper_ofNat])
  rw [toJson_eq, fields]
  refine .object (List.forall_mem_append.2 ⟨List.forall_mem_append.2
    ⟨List.forall_mem_append.2 ⟨?_, ?_⟩, proper_listField (fun i => ?_) _ _⟩,
      proper_listField (fun f => ?_) _ _⟩)
  · simp [Proper.string]
  · simp [proper_listJson, hpaths, hdependency, hstatement, hsummary]
  · exact .object (by simp [Proper.string, proper_ofNat, hpaths])
  · exact .object (by simp [Proper.string, hpaths])

/-- **The JSON text of a report tells the report.** Two reports with the same text agree in the name
of the project, present or not, the entries, the counts, and all findings and failures with all that
is known of them. -/
theorem json_eq_json_iff (report report' : Report) : report.json = report'.json ↔ report = report' := by
  constructor
  · intro h
    have htext : report.toJson.pretty = report'.toJson.pretty := by
      simpa [json, String.ext_iff] using h
    have htree := pretty_inj (proper_toJson report) (proper_toJson report') htext
    rw [toJson_eq, toJson_eq, object.injEq] at htree
    exact eq_of_fields htree
  · rintro rfl
    rfl

end Report

end DeadCode
