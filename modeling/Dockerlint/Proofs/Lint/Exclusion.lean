import Dockerlint.Lint.Report

/-!
# Excluded rules

An exclusion list takes rules out of a run before the remaining ones are put in order and applied.
Here this is compared with the run that excludes nothing: the diagnostics of the excluded rules are
gone, and the others stand as they stood. The argument has three steps. Ordering is stable, so it
does not matter whether rules are taken out before or after it; every diagnostic carries the name
of the rule that reports it, so taking out a rule is taking out its diagnostics; and the groups of
rules and the two severities only divide the list that is left.

## Main results

* `Rule.inOrder_filter`: rules can be taken out before or after they are put in order
* `Rule.run_eq_filter`: excluding rules removes their diagnostics from a run
* `lint_excluding`: what an exclusion list does to a report and to the outcome of a lint run
-/

namespace Dockerlint

namespace Rule

/-! ## The order of rules

Names are compared as texts, so the comparison of rules is transitive and total. Two rules may
have the same name, and then neither comes after the other: nothing below needs names to differ. -/

theorem notAfter_iff {r s : Rule} :
    notAfter r s ↔ Text.precedes s.name.toList r.name.toList = false := by
  rw [notAfter, Bool.not_eq_true']

theorem notAfter_trans (r s t : Rule) (hrs : notAfter r s) (hst : notAfter s t) :
    notAfter r t := by
  rw [notAfter_iff] at *
  rw [Bool.eq_false_iff]
  intro htr
  by_cases hname : s.name.toList = r.name.toList
  · rw [hname, htr] at hst
    cases hst
  · -- then `r` comes before `s`, and `t` before `r`
    have hrs' := Text.precedes_of_not hrs hname
    rw [Text.precedes_trans htr hrs'] at hst
    cases hst

theorem notAfter_total (r s : Rule) : (notAfter r s || notAfter s r) = true := by
  rw [Bool.or_eq_true, notAfter_iff, notAfter_iff]
  by_cases hsr : Text.precedes s.name.toList r.name.toList
  · right
    rw [Bool.eq_false_iff]
    intro hrs
    have hirrefl := Text.precedes_irrefl s.name.toList
    rw [Text.precedes_trans hsr hrs] at hirrefl
    cases hirrefl
  · left
    exact Bool.eq_false_iff.2 hsr

/-- A rule listed first is put behind the rules that come before it and ahead of all others. -/
theorem exists_inOrder_cons (r : Rule) (rules : List Rule) :
    ∃ before behind, inOrder (r :: rules) = before ++ r :: behind ∧
      inOrder rules = before ++ behind ∧
      (∀ s ∈ before, notAfter r s = false) ∧ ∀ s ∈ behind, notAfter r s := by
  obtain ⟨before, behind, hcons, hrules, hbefore⟩ :=
    List.mergeSort_cons notAfter_trans notAfter_total r rules
  have hsorted := List.pairwise_mergeSort notAfter_trans notAfter_total (r :: rules)
  rw [hcons, List.pairwise_append, List.pairwise_cons] at hsorted
  refine ⟨before, behind, hcons, hrules, ?_, hsorted.2.1.1⟩
  intro s hs
  simpa using hbefore s hs

/-- There is only one place for a rule in a list: what comes before it and what does not. -/
theorem eq_of_append_eq {r : Rule} {before behind before' behind' : List Rule}
    (h : before ++ behind = before' ++ behind')
    (hbefore : ∀ s ∈ before, notAfter r s = false) (hbehind : ∀ s ∈ behind, notAfter r s)
    (hbefore' : ∀ s ∈ before', notAfter r s = false) (hbehind' : ∀ s ∈ behind', notAfter r s) :
    before = before' ∧ behind = behind' := by
  have hpart : ∀ {front back : List Rule}, (∀ s ∈ front, notAfter r s = false) →
      (∀ s ∈ back, notAfter r s) → (front ++ back).filter (notAfter r) = back := by
    intro front back hfront hback
    have hnil : front.filter (notAfter r) = [] := by
      rw [List.filter_eq_nil_iff]
      intro s hs
      rw [hfront s hs]
      exact Bool.false_ne_true
    rw [List.filter_append, hnil, List.filter_eq_self.2 hback, List.nil_append]
  have heq : behind = behind' := by
    rw [← hpart hbefore hbehind, h, hpart hbefore' hbehind']
  subst heq
  exact ⟨List.append_cancel_right h, rfl⟩

/-- **Rules can be taken out before or after they are put in order.** -/
theorem inOrder_filter (keep : Rule → Bool) (rules : List Rule) :
    inOrder (rules.filter keep) = (inOrder rules).filter keep := by
  induction rules with
  | nil => simp [inOrder]
  | cons r rules ih =>
    obtain ⟨before, behind, hcons, hrules, hbefore, hbehind⟩ := exists_inOrder_cons r rules
    rw [hcons, List.filter_append]
    rw [hrules, List.filter_append] at ih
    by_cases hr : keep r
    · -- the place of `r` among the rules that stay is its place among all of them
      obtain ⟨before', behind', hcons', hrest, hbefore', hbehind'⟩ :=
        exists_inOrder_cons r (rules.filter keep)
      obtain ⟨rfl, rfl⟩ := eq_of_append_eq (hrest.symm.trans ih) hbefore' hbehind'
        (fun s hs => hbefore s (List.mem_filter.1 hs).1)
        (fun s hs => hbehind s (List.mem_filter.1 hs).1)
      rw [List.filter_cons_of_pos hr, List.filter_cons_of_pos hr, hcons']
    · rw [List.filter_cons_of_neg hr, List.filter_cons_of_neg hr, ih]

/-! ## Rules and their diagnostics -/

theorem rule_of_mem_reports {r : Rule} {contexts : List Context} {x : Diagnostic}
    (h : x ∈ r.reports contexts) : x.rule = r.name := by
  obtain ⟨c, -, hx⟩ := List.mem_flatMap.1 h
  obtain ⟨f, -, rfl⟩ := List.mem_map.1 hx
  rfl

/-- Taking out rules by name is taking out diagnostics by the name of their rule. -/
theorem flatMap_reports_filter (rules : List Rule) (contexts : List Context)
    (keep : String → Bool) :
    (rules.filter (keep ·.name)).flatMap (·.reports contexts) =
      (rules.flatMap (·.reports contexts)).filter (keep ·.rule) := by
  induction rules with
  | nil => rfl
  | cons r rules ih =>
    rw [List.flatMap_cons, List.filter_append, ← ih]
    -- the name decides on all diagnostics of `r` at once
    by_cases hr : keep r.name
    · have hall : (r.reports contexts).filter (keep ·.rule) = r.reports contexts := by
        rw [List.filter_eq_self]
        intro x hx
        rwa [rule_of_mem_reports hx]
      rw [List.filter_cons, if_pos hr, List.flatMap_cons, hall]
    · have hnone : (r.reports contexts).filter (keep ·.rule) = [] := by
        rw [List.filter_eq_nil_iff]
        intro x hx
        rwa [rule_of_mem_reports hx]
      rw [List.filter_cons, if_neg hr, hnone, List.nil_append]

/-- **Excluding rules removes their diagnostics** from a run and moves no other. -/
theorem run_eq_filter (rules : List Rule) (scope : Scope) (d : Document) (policy : Policy)
    (excluded : List Text) :
    run rules scope d policy excluded =
      (run rules scope d policy []).filter fun x => x.rule.toList ∉ excluded := by
  have hrun : ∀ names : List Text, run rules scope d policy names =
      ((inOrder rules).flatMap (·.reports (scope.contexts d policy))).filter
        fun x => !names.contains x.rule.toList := by
    intro names
    rw [← flatMap_reports_filter _ _ fun name => !names.contains name.toList,
      ← inOrder_filter]
    rfl
  rw [hrun excluded, hrun [], List.filter_filter]
  refine List.filter_congr fun x _ => ?_
  simp

end Rule

namespace Report

/-- The diagnostics of a run are those of the run that excludes nothing, without those of the
excluded rules. -/
theorem diagnostics_eq_filter (d : Document) (policy : Policy) (excluded : List Text) :
    diagnostics d policy excluded =
      (Group.general.check d policy [] ++ Group.everyStage.check d policy [] ++
        Group.lastStage.check d policy [] ++ Group.builderStages.check d policy []).filter
          fun x => x.rule.toList ∉ excluded := by
  have hcheck : ∀ g : Group, g.check d policy excluded =
      (g.check d policy []).filter fun x => x.rule.toList ∉ excluded :=
    fun g => Rule.run_eq_filter g.listed g.scope d policy excluded
  rw [diagnostics, Group.all]
  simp only [List.flatMap_cons, List.flatMap_nil, List.append_nil, hcheck, List.filter_append,
    List.append_assoc]

theorem failed_iff (r : Report) : r.failed ↔ r.syntaxErrors ≠ [] ∨ r.errors ≠ [] := by
  rw [failed, Bool.or_eq_true, Bool.not_eq_true', Bool.not_eq_true', List.isEmpty_eq_false_iff,
    List.isEmpty_eq_false_iff]

end Report

/-- **What an exclusion list does.** The syntax errors of a report are those of the document. Its
errors and warnings are the displayed diagnostics of the groups, run in turn with nothing excluded,
without those of the excluded rules. A lint run fails exactly if it is asked to and there is a
syntax error or an error that is left, and then carries them; otherwise it gives the report. -/
theorem lint_excluding (d : Document) (settings : Settings) (policy : Policy) :
    let found := Group.general.check d policy [] ++ Group.everyStage.check d policy [] ++
      Group.lastStage.check d policy [] ++ Group.builderStages.check d policy []
    let kept := found.filter fun x => x.rule.toList ∉ settings.excludedRules
    let report := Report.ofDocument d settings policy
    report.syntaxErrors = d.syntaxErrors ∧
      report.errors = (kept.filter fun x => x.severity = .error).map Diagnostic.display ∧
      report.warnings = (kept.filter fun x => x.severity = .warning).map Diagnostic.display ∧
      lint d settings policy =
        if settings.failOnErrors ∧ (report.syntaxErrors ≠ [] ∨ report.errors ≠ []) then
          .error (.lintingFailed (report.syntaxErrors ++ report.errors) report.warnings)
        else .ok report := by
  intro found kept report
  have hfound : Report.diagnostics d policy settings.excludedRules = kept :=
    Report.diagnostics_eq_filter d policy settings.excludedRules
  have htexts : ∀ severity, Report.textsOf severity kept =
      (kept.filter fun x => x.severity = severity).map Diagnostic.display := fun _ => rfl
  refine ⟨rfl, ?_, ?_, ?_⟩
  · rw [← htexts, ← hfound]
    rfl
  · rw [← htexts, ← hfound]
    rfl
  · have hfails : (report.failed && settings.failOnErrors) = true ↔
        settings.failOnErrors ∧ (report.syntaxErrors ≠ [] ∨ report.errors ≠ []) := by
      rw [Bool.and_eq_true, Report.failed_iff, and_comm]
    exact ite_congr (propext hfails) (fun _ => rfl) fun _ => rfl

end Dockerlint
