import Mathlib.Data.List.Nodup
import Dockerlint.Proofs.Lint.Exclusion

/-!
# What one rule finds

Every rule is listed once, and no two rules of any groups have the same name. So the name of a
diagnostic tells which rule reported it and in which group: the diagnostics of that name are what
this rule alone finds in the contexts of its group, and a report without errors says of each rule
that reports errors that it found nothing in any of its contexts.

## Main results

* `Group.eq_of_name_eq`: names tell rules and groups apart
* `Group.filter_check`, `Report.filter_diagnostics_eq`: the diagnostics of one rule
* `Group.filter_check_general`, `Report.filter_diagnostics_general`: those of a general rule
* `Report.mem_diagnostics_iff`: what is reported under the name of a rule
* `Report.errors_eq_nil_iff`: a report without errors
-/

namespace Dockerlint

theorem Finding.oneIf_eq_nil_iff {condition : Bool} : oneIf condition = [] ↔ condition = false := by
  cases condition <;> simp [oneIf]

namespace Rule

theorem mem_reports_iff {r : Rule} {contexts : List Context} {x : Diagnostic} :
    x ∈ r.reports contexts ↔ ∃ c ∈ contexts, ∃ f ∈ r.check c, r.diagnostic f = x := by
  simp only [reports, List.mem_flatMap, List.mem_map]

/-- A rule reports nothing exactly if it finds nothing in every context. -/
theorem reports_eq_nil_iff {r : Rule} {contexts : List Context} :
    r.reports contexts = [] ↔ ∀ c ∈ contexts, r.check c = [] := by
  simp only [reports, List.flatMap_eq_nil_iff, List.map_eq_nil_iff]

/-- A rule that looks at the whole document looks at it once. -/
theorem reports_document (r : Rule) (d : Document) (policy : Policy) :
    r.reports (Scope.document.contexts d policy) = (r.check ⟨d, none, policy⟩).map r.diagnostic :=
  List.flatMap_singleton ..

theorem mem_run_iff {rules : List Rule} {scope : Scope} {d : Document} {policy : Policy}
    {excluded : List Text} {x : Diagnostic} : x ∈ run rules scope d policy excluded ↔
      ∃ r ∈ rules, r.name.toList ∉ excluded ∧ x ∈ r.reports (scope.contexts d policy) := by
  simp only [run, inOrder, List.mem_flatMap, List.mem_mergeSort, List.mem_filter, and_assoc]
  simp

/-- Among rules with different names, one has the name of a rule. -/
theorem filter_name {rules : List Rule} (hnodup : (rules.map name).Nodup) {r : Rule}
    (hr : r ∈ rules) : rules.filter (·.name = r.name) = [r] := by
  induction rules with
  | nil => cases hr
  | cons s rules ih =>
    obtain ⟨hs, hrules⟩ := List.nodup_cons.1 hnodup
    rcases List.mem_cons.1 hr with rfl | hr
    · have hnone : rules.filter (·.name = r.name) = [] := by
        rw [List.filter_eq_nil_iff]
        intro t ht hname
        exact hs (List.mem_map.2 ⟨t, ht, of_decide_eq_true hname⟩)
      rw [List.filter_cons_of_pos (by simp), hnone]
    · have hne : s.name ≠ r.name := fun hname => hs (hname ▸ List.mem_map_of_mem hr)
      rw [List.filter_cons_of_neg (by simpa using hne), ih hrules hr]

end Rule

namespace Group

/-- A rule is listed if it is found by its name. -/
theorem mem_listed {g : Group} {r : Rule} (name : String)
    (h : g.listed.find? (·.name == name) = some r) : r ∈ g.listed :=
  List.mem_of_find?_eq_some h

theorem mem_all (g : Group) : g ∈ all := by
  cases g <;> decide

/-- No two rules have the same name. -/
theorem nodup_names :
    ((all.flatMap fun g => g.listed.map fun r => (g, r)).map (·.2.name)).Nodup := by
  decide

/-- **Names tell rules and their groups apart.** -/
theorem eq_of_name_eq {g h : Group} {r s : Rule} (hr : r ∈ g.listed) (hs : s ∈ h.listed)
    (hname : r.name = s.name) : g = h ∧ r = s := by
  have hmem : ∀ {g : Group} {r : Rule}, r ∈ g.listed →
      (g, r) ∈ all.flatMap fun g => g.listed.map fun r => (g, r) := by
    intro g r hr
    exact List.mem_flatMap.2 ⟨g, mem_all g, List.mem_map_of_mem hr⟩
  exact Prod.mk.inj (List.inj_on_of_nodup_map nodup_names (hmem hr) (hmem hs) hname)

theorem nodup_listed (g : Group) : (g.listed.map Rule.name).Nodup := by
  have hnodup := nodup_names
  rw [List.map_flatMap] at hnodup
  have hgroup := (List.nodup_flatMap.1 hnodup).1 g (mem_all g)
  rwa [List.map_map] at hgroup

section Check

variable (d : Document) (policy : Policy) {excluded : List Text}

theorem filter_check_eq (g : Group) (name : String) :
    (g.check d policy excluded).filter (·.rule = name) =
      (Rule.inOrder ((g.listed.filter (·.name = name)).filter fun r =>
        !excluded.contains r.name.toList)).flatMap (·.reports (g.scope.contexts d policy)) := by
  rw [check, Rule.run, ← Rule.flatMap_reports_filter _ _ (· = name), ← Rule.inOrder_filter,
    List.filter_comm]

/-- **The diagnostics of one rule** in its group are what it reports. -/
theorem filter_check {g : Group} {r : Rule} (hr : r ∈ g.listed)
    (hrun : r.name.toList ∉ excluded) :
    (g.check d policy excluded).filter (·.rule = r.name) =
      r.reports (g.scope.contexts d policy) := by
  have hkeep : [r].filter (fun r => !excluded.contains r.name.toList) = [r] :=
    List.filter_eq_self.2 (by simpa using hrun)
  rw [filter_check_eq, Rule.filter_name g.nodup_listed hr, hkeep, Rule.inOrder,
    List.mergeSort_singleton, List.flatMap_singleton]

/-- The diagnostics of a general rule are what it finds in the whole document. -/
theorem filter_check_general {r : Rule} (hr : r ∈ Group.general.listed)
    (hrun : r.name.toList ∉ excluded) :
    (general.check d policy excluded).filter (·.rule = r.name) =
      (r.check ⟨d, none, policy⟩).map r.diagnostic :=
  (filter_check d policy hr hrun).trans (r.reports_document d policy)

theorem filter_check_of_ne {g h : Group} {r : Rule} (hr : r ∈ g.listed) (hne : h ≠ g) :
    (h.check d policy excluded).filter (·.rule = r.name) = [] := by
  have hnone : h.listed.filter (·.name = r.name) = [] := by
    rw [List.filter_eq_nil_iff]
    intro s hs hname
    exact hne (eq_of_name_eq hs hr (of_decide_eq_true hname)).1
  rw [filter_check_eq, hnone, List.filter_nil, Rule.inOrder, List.mergeSort_nil, List.flatMap_nil]

end Check

end Group

namespace Report

section Diagnostics

variable {d : Document} {policy : Policy} {excluded : List Text}

/-- The diagnostics with the name of a rule are what this rule reports. -/
theorem filter_diagnostics_eq {g : Group} {r : Rule} (hr : r ∈ g.listed)
    (hrun : r.name.toList ∉ excluded) :
    (diagnostics d policy excluded).filter (·.rule = r.name) =
      r.reports (g.scope.contexts d policy) := by
  have hcheck : ∀ h : Group, (h.check d policy excluded).filter (·.rule = r.name) =
      if h = g then r.reports (g.scope.contexts d policy) else [] := by
    intro h
    split
    · next heq => rw [heq, Group.filter_check d policy hr hrun]
    · next hne => exact Group.filter_check_of_ne d policy hr hne
  rw [diagnostics, List.filter_flatMap, List.flatMap_congr fun h _ => hcheck h]
  cases g <;> simp [Group.all]

theorem filter_diagnostics_general {r : Rule} (hr : r ∈ Group.general.listed)
    (hrun : r.name.toList ∉ excluded) :
    (diagnostics d policy excluded).filter (·.rule = r.name) =
      (r.check ⟨d, none, policy⟩).map r.diagnostic :=
  (filter_diagnostics_eq hr hrun).trans (r.reports_document d policy)

/-- What is reported comes from a rule that is not excluded. -/
theorem mem_diagnostics_iff {x : Diagnostic} : x ∈ diagnostics d policy excluded ↔
    ∃ (g : Group) (r : Rule), r ∈ g.listed ∧ r.name.toList ∉ excluded ∧
      x ∈ r.reports (g.scope.contexts d policy) := by
  simp only [diagnostics, List.mem_flatMap, Group.mem_all, true_and, Group.check,
    Rule.mem_run_iff]

/-- What is reported under the name of a rule comes from this rule. -/
theorem mem_reports_of_name {g : Group} {r : Rule} (hr : r ∈ g.listed) {x : Diagnostic}
    (hx : x ∈ diagnostics d policy excluded) (hname : x.rule = r.name) :
    x ∈ r.reports (g.scope.contexts d policy) := by
  obtain ⟨h, s, hs, -, hreported⟩ := mem_diagnostics_iff.1 hx
  have hsame : s.name = r.name := (Rule.rule_of_mem_reports hreported).symm.trans hname
  obtain ⟨rfl, rfl⟩ := Group.eq_of_name_eq hs hr hsame
  exact hreported

end Diagnostics

/-- **A report without errors** says that every rule that reports errors and is not excluded found
nothing. -/
theorem errors_eq_nil_iff {d : Document} {settings : Settings} {policy : Policy} :
    (ofDocument d settings policy).errors = [] ↔
      ∀ (g : Group), ∀ r ∈ g.listed, r.severity = .error →
        r.name.toList ∉ settings.excludedRules →
        ∀ c ∈ g.scope.contexts d policy, r.check c = [] := by
  have hnone : (ofDocument d settings policy).errors = [] ↔
      ∀ x ∈ diagnostics d policy settings.excludedRules, x.severity ≠ .error := by
    simp [ofDocument, textsOf]
  rw [hnone]
  constructor
  · intro h g r hr hsevere hrun
    rw [← Rule.reports_eq_nil_iff, List.eq_nil_iff_forall_not_mem]
    intro x hx
    apply h x (mem_diagnostics_iff.2 ⟨g, r, hr, hrun, hx⟩)
    obtain ⟨c, -, f, -, rfl⟩ := Rule.mem_reports_iff.1 hx
    exact hsevere
  · intro h x hx hsevere
    obtain ⟨g, r, hr, hrun, hreported⟩ := mem_diagnostics_iff.1 hx
    obtain ⟨c, hc, f, hf, rfl⟩ := Rule.mem_reports_iff.1 hreported
    rw [h g r hr hsevere hrun c hc] at hf
    cases hf

end Report

end Dockerlint
