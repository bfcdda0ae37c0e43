import Mathlib
import Dockerlint.Proofs.Document.Append
import Dockerlint.Proofs.Document.Scopes
import Dockerlint.Proofs.Lint.InstructionOrder
import Dockerlint.Proofs.Operand.WellFormed

/-!
# Maintainers of a document without errors

Several rules look at maintainers, in the whole document and in its last stage, by the exact key of a
label or by its key in any case. A report without errors says that each of them found nothing. Put
together, the last stage names a maintainer, under the exact key or by `MAINTAINER`, and the entries
have a name and an address. There is one gap between the rules: a label with an empty value counts as
naming a maintainer, but its value has no entry that is looked at.

## Main definitions

* `Address.IsUsable`: the entries of the form `name <address>`
* `Instruction.maintainerEntries`: the entries that an instruction names
* `Instruction.NamesNobody`: the labels with an empty value

## Main results

* `Address.isUsable_iff`, `Address.missing_eq_zero_iff`: what an entry is split into
* `Report.maintainers_usable`: what a report without errors says about maintainers
-/

namespace Dockerlint

/-! ## Entries -/

namespace Address

/-- The entries of the form `name <address>`: there is a name before the first opening bracket, and
an address between it and the next closing one. Blanks and the quotes around the name do not count. -/
def IsUsable (entry : Text) : Prop :=
  ∃ name address behind, Text.trim entry = name ++ '<' :: (address ++ '>' :: behind) ∧
    '<' ∉ name ∧ '>' ∉ address ∧
    Text.trim (stripQuotes (Text.trim name)) ≠ [] ∧ Text.trim address ≠ []

theorem not_isUsable_nil : ¬ IsUsable [] := by
  rintro ⟨name, address, behind, hcut, -⟩
  have hlength := congrArg List.length hcut
  simp [Text.trim, Text.trimRight] at hlength

/-- **The usable entries are split into a name and an address.** -/
theorem isUsable_iff {entry : Text} :
    IsUsable entry ↔ (parse entry).name ≠ [] ∧ (parse entry).address ≠ [] := by
  constructor
  · rintro ⟨name, address, behind, hcut, hname, haddress, hparts⟩
    have hopen := Text.cut_eq_some_iff.2 ⟨hcut, hname⟩
    have hclose : Text.cut '>' (address ++ '>' :: behind) = some (address, behind) :=
      Text.cut_eq_some_iff.2 ⟨rfl, haddress⟩
    rw [parse]
    simp only [hopen, hclose]
    exact hparts
  · intro hparts
    rw [parse] at hparts
    split at hparts
    · exact absurd rfl hparts.1
    · next name rest hopen =>
      split at hparts
      · exact absurd rfl hparts.1
      · next address behind hclose =>
        obtain ⟨hcut, hname⟩ := Text.cut_eq_some_iff.1 hopen
        obtain ⟨rfl, haddress⟩ := Text.cut_eq_some_iff.1 hclose
        exact ⟨name, address, behind, hcut, hname, haddress, hparts⟩

theorem missing_eq_zero_iff {entry : Text} : missing entry = 0 ↔ IsUsable entry := by
  rw [isUsable_iff, missing, Nat.add_eq_zero_iff]
  simp

end Address

namespace Instruction

/-- The maintainer entries of an instruction: those of the value that a `LABEL` gives to the exact
key, separated by commas, and those of a `MAINTAINER`. -/
def maintainerEntries (i : Instruction) : List Text :=
  match i.keyword with
  | .label => ((i.valueOf Document.maintainerKey .exact).map (Text.split ',')).getD []
  | .maintainer => i.args.maintainers?.getD []
  | _ => []

/-- The labels that give the key of the maintainer an empty value. -/
def NamesNobody (i : Instruction) : Prop :=
  i.keyword = .label ∧ i.valueOf Document.maintainerKey .exact = some []

instance decidableNamesNobody : DecidablePred NamesNobody := fun i =>
  inferInstanceAs (Decidable (i.keyword = .label ∧ _))

variable {i : Instruction}

theorem maintainerEntries_label (h : i.keyword = .label) :
    i.maintainerEntries = ((i.valueOf Document.maintainerKey .exact).map (Text.split ',')).getD [] := by
  rw [maintainerEntries, h]

theorem maintainerEntries_maintainer (h : i.keyword = .maintainer) :
    i.maintainerEntries = i.args.maintainers?.getD [] := by
  rw [maintainerEntries, h]

/-- A label with the exact key has entries, if only an empty one. -/
theorem maintainerEntries_ne_nil (h : i.keyword = .label)
    (hkey : i.containsKey Document.maintainerKey .exact) : i.maintainerEntries ≠ [] := by
  obtain ⟨value, hvalue⟩ := Option.isSome_iff_exists.1 hkey
  rw [maintainerEntries_label h, hvalue]
  exact Text.split_ne_nil ',' value

theorem NamesNobody.maintainerEntries (h : i.NamesNobody) : i.maintainerEntries = [[]] := by
  rw [maintainerEntries_label h.1, h.2]
  rfl

/-- The entries that are looked at are those of a value that is not empty. -/
theorem labelEntries_of_not_namesNobody (h : i.keyword = .label) (hvalue : ¬ i.NamesNobody) :
    General.labelEntries i = i.maintainerEntries := by
  rw [maintainerEntries_label h, General.labelEntries]
  cases hread : i.valueOf Document.maintainerKey .exact with
  | none => rfl
  | some value =>
    cases value with
    | nil => exact absurd ⟨h, hread⟩ hvalue
    | cons c value => rfl

end Instruction

/-! ## What the rules say when they find nothing -/

section Silent

variable {d : Document} {policy : Policy}

theorem General.labelIsLowercase_eq_nil_iff : labelIsLowercase ⟨d, none, policy⟩ = [] ↔
    ∀ i ∈ d.maintainerLabels .ignored none, i.containsKey Document.maintainerKey .exact := by
  simp [labelIsLowercase, Finding.atInstructions]

theorem General.missingParts_eq_nil_iff {i : Instruction} {entry : Text} :
    missingParts i entry = [] ↔ Address.IsUsable entry := by
  rw [missingParts, List.replicate_eq_nil_iff, Address.missing_eq_zero_iff]

theorem General.labelForm_eq_nil_iff : labelForm ⟨d, none, policy⟩ = [] ↔
    ∀ i ∈ d.maintainerLabels .exact none, ∀ entry ∈ labelEntries i, Address.IsUsable entry := by
  simp only [labelForm, List.flatMap_eq_nil_iff, missingParts_eq_nil_iff]

theorem General.maintainerForm_eq_nil_iff : maintainerForm ⟨d, none, policy⟩ = [] ↔
    ∀ i ∈ d.ofKeyword .maintainer none, ∀ entry ∈ i.args.maintainers?.getD [],
      Address.IsUsable entry := by
  simp only [maintainerForm, List.flatMap_eq_nil_iff, missingParts_eq_nil_iff]

theorem LastStage.maintainerIsDeclared_eq_nil_iff {stage : Option Stage} :
    maintainerIsDeclared ⟨d, stage, policy⟩ = [] ↔
      d.maintainerLabels .ignored stage ≠ [] ∨ d.ofKeyword .maintainer stage ≠ [] := by
  simp [maintainerIsDeclared, Finding.oneIf, imp_iff_not_or]

end Silent

/-! ## Documents without errors -/

/-- A `MAINTAINER` without syntax errors has entries. -/
theorem Document.maintainerEntries_ne_nil {content : Text} {d : Document}
    (h : Document.parse content = .ok d) (hvalid : d.syntaxErrors = []) {i : Instruction}
    (hi : i ∈ d.instructions) (hk : i.keyword = .maintainer) : i.maintainerEntries ≠ [] := by
  have hread := (Document.parsed_of_mem h i hi).read_of_syntaxErrors
    (List.flatMap_eq_nil_iff.1 hvalid i hi)
  rw [hk, Args.read_eq_map rfl .maintainers rfl] at hread
  obtain ⟨entries, hentries, hargs⟩ := exists_of_map_eq_ok hread
  rw [Instruction.maintainerEntries_maintainer hk, ← hargs]
  exact (Maintainers.wellFormed_of_read hentries).1

namespace Report

section Clean

variable {content : Text} {d : Document} {settings : Settings} {policy : Policy}

/-- With no rule excluded, a report without errors says that every rule that reports errors found
nothing. -/
theorem check_eq_nil (hexcluded : settings.excludedRules = [])
    (herrors : (ofDocument d settings policy).errors = []) {g : Group} {r : Rule}
    (hr : r ∈ g.listed) (hsevere : r.severity = .error) {c : Context}
    (hc : c ∈ g.scope.contexts d policy) : r.check c = [] := by
  apply errors_eq_nil_iff.1 herrors g r hr hsevere _ c hc
  rw [hexcluded]
  exact List.not_mem_nil

theorem general_eq_nil (hexcluded : settings.excludedRules = [])
    (herrors : (ofDocument d settings policy).errors = []) {r : Rule} (name : String)
    (hr : Group.general.listed.find? (·.name == name) = some r) (hsevere : r.severity = .error) :
    r.check ⟨d, none, policy⟩ = [] :=
  check_eq_nil hexcluded herrors (Group.mem_listed name hr) hsevere (List.mem_singleton_self _)

/-- **Every entry has a name and an address**, but for the empty entry of an empty value. -/
theorem isUsable_of_errors_eq_nil (hexcluded : settings.excludedRules = [])
    (herrors : (ofDocument d settings policy).errors = []) {i : Instruction}
    (hi : i ∈ d.instructions) {entry : Text} (hentry : entry ∈ i.maintainerEntries) :
    Address.IsUsable entry ∨ i.NamesNobody := by
  have hselect : i ∈ d.select none := Document.mem_select_none.2 hi
  by_cases hnobody : i.NamesNobody
  · exact .inr hnobody
  left
  by_cases hlabel : i.keyword = .label
  · have hform : General.labelForm ⟨d, none, policy⟩ = [] :=
      general_eq_nil hexcluded herrors "rule13_0" rfl rfl
    apply General.labelForm_eq_nil_iff.1 hform i
    · -- there is an entry, so there is a value
      refine Document.mem_maintainerLabels_iff.2 ⟨hselect, hlabel, ?_⟩
      rw [Instruction.maintainerEntries_label hlabel] at hentry
      rw [Instruction.containsKey]
      cases hvalue : i.valueOf Document.maintainerKey .exact with
      | none => simp [hvalue] at hentry
      | some value => rfl
    · rwa [Instruction.labelEntries_of_not_namesNobody hlabel hnobody]
  by_cases hmaintainer : i.keyword = .maintainer
  · have hform : General.maintainerForm ⟨d, none, policy⟩ = [] :=
      general_eq_nil hexcluded herrors "rule13_1" rfl rfl
    apply General.maintainerForm_eq_nil_iff.1 hform i
    · exact Document.mem_ofKeyword_iff.2 ⟨hselect, hmaintainer⟩
    · rwa [← Instruction.maintainerEntries_maintainer hmaintainer]
  · -- no other instruction has entries
    rw [Instruction.maintainerEntries] at hentry
    split at hentry
    · next hk => exact absurd hk hlabel
    · next hk => exact absurd hk hmaintainer
    · cases hentry

/-- **The last stage names a maintainer**, under the exact key or by `MAINTAINER`. -/
theorem exists_maintainerEntries (h : Document.parse content = .ok d)
    (hexcluded : settings.excludedRules = [])
    (hvalid : (ofDocument d settings policy).syntaxErrors = [])
    (herrors : (ofDocument d settings policy).errors = []) :
    ∃ i ∈ d.select (some d.lastStage), i.maintainerEntries ≠ [] := by
  have hdeclared : LastStage.maintainerIsDeclared ⟨d, some d.lastStage, policy⟩ = [] :=
    check_eq_nil hexcluded herrors (g := .lastStage) (Group.mem_listed "rule0_1_3" rfl) rfl
      (List.mem_singleton_self _)
  rcases LastStage.maintainerIsDeclared_eq_nil_iff.1 hdeclared with hlabels | hmaintainers
  · obtain ⟨i, hi⟩ := List.exists_mem_of_ne_nil _ hlabels
    obtain ⟨hselect, hlabel, hkey⟩ := Document.mem_maintainerLabels_iff.1 hi
    have hmem := Document.mem_select_none.2 (Document.mem_instructions_of_mem_select hselect)
    -- the key is found in any case, and then it is in lower case
    have hlower : General.labelIsLowercase ⟨d, none, policy⟩ = [] :=
      general_eq_nil hexcluded herrors "rule0_1_5" rfl rfl
    have hexact := General.labelIsLowercase_eq_nil_iff.1 hlower i
      (Document.mem_maintainerLabels_iff.2 ⟨hmem, hlabel, hkey⟩)
    exact ⟨i, hselect, Instruction.maintainerEntries_ne_nil hlabel hexact⟩
  · obtain ⟨i, hi⟩ := List.exists_mem_of_ne_nil _ hmaintainers
    obtain ⟨hselect, hk⟩ := Document.mem_ofKeyword_iff.1 hi
    refine ⟨i, hselect, ?_⟩
    exact Document.maintainerEntries_ne_nil h hvalid
      (Document.mem_instructions_of_mem_select hselect) hk

/-- **What a report without errors says about maintainers**, with no rule excluded. Some instruction
of the last stage has a maintainer entry; where no two `FROM`s give the same name, these are the
instructions from the last `FROM` on. Every entry of the document has a name and an address, but for
the one that is the empty value of a label. So all entries are usable exactly if no label gives the
key of the maintainer an empty value. -/
theorem maintainers_usable (h : Document.parse content = .ok d)
    (hexcluded : settings.excludedRules = [])
    (hvalid : (ofDocument d settings policy).syntaxErrors = [])
    (herrors : (ofDocument d settings policy).errors = []) :
    (∃ i ∈ d.select (some d.lastStage), i.maintainerEntries ≠ []) ∧
    (∃ front builders final, d.Divided front builders final ∧
      (d.stageNames.Nodup → ∃ i ∈ final, i.maintainerEntries ≠ [])) ∧
    (∀ i ∈ d.instructions, ∀ entry ∈ i.maintainerEntries,
      Address.IsUsable entry ∨ i.NamesNobody) ∧
    ((∀ i ∈ d.instructions, ∀ entry ∈ i.maintainerEntries, Address.IsUsable entry) ↔
      ∀ i ∈ d.instructions, ¬ i.NamesNobody) := by
  have hdeclared := exists_maintainerEntries h hexcluded hvalid herrors
  have hentries : ∀ i ∈ d.instructions, ∀ entry ∈ i.maintainerEntries,
      Address.IsUsable entry ∨ i.NamesNobody :=
    fun i hi entry hentry => isUsable_of_errors_eq_nil hexcluded herrors hi hentry
  refine ⟨hdeclared, ?_, hentries, ?_⟩
  · have hfrom : General.imageIsPresent ⟨d, none, policy⟩ = [] :=
      general_eq_nil hexcluded herrors "rule0_0" rfl rfl
    obtain ⟨front, blocks, b, hlayout⟩ :=
      Document.exists_layout_concat h (General.imageIsPresent_eq_nil_iff.1 hfrom)
    refine ⟨_, _, _, hlayout.divided, fun hnodup => ?_⟩
    rw [hlayout.lastStage_eq, hlayout.select_block (hlayout.nodup_stages_iff.2 hnodup) (by simp)]
      at hdeclared
    exact hdeclared
  · constructor
    · intro husable i hi hnobody
      apply Address.not_isUsable_nil
      apply husable i hi
      rw [hnobody.maintainerEntries]
      exact List.mem_singleton_self []
    · intro hnobody i hi entry hentry
      exact (hentries i hi entry hentry).resolve_right (hnobody i hi)

end Clean

/-- Whether no rule that reports errors finds anything. -/
def isClean (d : Document) (policy : Policy) : Bool :=
  Group.all.all fun g => g.listed.all fun r =>
    r.severity != .error || (g.scope.contexts d policy).all fun c => (r.check c).isEmpty

theorem errors_eq_nil_of_isClean {d : Document} {policy : Policy} (h : isClean d policy)
    (settings : Settings) : (ofDocument d settings policy).errors = [] := by
  rw [errors_eq_nil_iff]
  intro g r hr hsevere _ c hc
  have hrule := List.all_eq_true.1 (List.all_eq_true.1 h g (Group.mem_all g)) r hr
  rw [hsevere] at hrule
  exact List.isEmpty_iff.1 (List.all_eq_true.1 hrule c hc)

/-- A label with one entry. -/
theorem maintainers_usable_label :
    ∃ d, Document.parse "FROM r/u/cc:1\nLABEL maintainer=n<a@b>\n".toList = .ok d ∧
      (ofDocument d {} {}).syntaxErrors = [] ∧ (ofDocument d {} {}).errors = [] ∧
      (∃ i ∈ d.select (some d.lastStage), i.maintainerEntries ≠ []) ∧
      ∀ i ∈ d.instructions, ∀ entry ∈ i.maintainerEntries, Address.IsUsable entry := by
  have hparse : (Document.parse "FROM r/u/cc:1\nLABEL maintainer=n<a@b>\n".toList).map
      (fun d => (d.instructions, d.stages)) = .ok
        ([⟨.fromImage, "r/u/cc:1".toList, 1, .numbered 0, .fromImage
            { registry := some ['r'], username := some ['u'], image := some ['c', 'c']
              tag := some ['1'], fullName := some "r/u/cc:1".toList }, []⟩,
          ⟨.label, "maintainer=n<a@b>".toList, 2, .numbered 0,
            .label (some (Table.ofList [("maintainer".toList, "n<a@b>".toList)])), []⟩],
          [.numbered 0]) := by
    cbv
  obtain ⟨⟨path, physicalLines, logicalLines, is, stages⟩, hd, hfacts⟩ := exists_of_map_eq_ok hparse
  obtain ⟨his, hstages⟩ : is = _ ∧ stages = _ := Prod.mk.inj hfacts
  -- no rule that reports errors looks at the lines, so the instructions are enough
  have hclean : isClean ⟨path, physicalLines, logicalLines, is, stages⟩ {} = true := by
    rw [his, hstages]
    rfl
  have hvalid :
      (ofDocument ⟨path, physicalLines, logicalLines, is, stages⟩ {} {}).syntaxErrors = [] := by
    rw [his]
    rfl
  have hnobody : ∀ i ∈ is, ¬ i.NamesNobody := by
    rw [his]
    decide
  have herrors := errors_eq_nil_of_isClean hclean {}
  obtain ⟨hdeclared, -, -, husable⟩ := @maintainers_usable _ _ {} {} hd rfl hvalid herrors
  exact ⟨_, hd, hvalid, herrors, hdeclared, husable.2 hnobody⟩

/-- A label with an empty value, and no errors: its one entry is not usable, and no entry is looked
at. -/
theorem maintainers_not_usable_empty :
    ∃ d, Document.parse "FROM r/u/cc:1\nLABEL maintainer=\n".toList = .ok d ∧
      (ofDocument d {} {}).syntaxErrors = [] ∧ (ofDocument d {} {}).errors = [] ∧
      (¬ ∀ i ∈ d.instructions, ∀ entry ∈ i.maintainerEntries, Address.IsUsable entry) ∧
      d.instructions.map (·.keyword) = [.fromImage, .label] ∧
      d.instructions.map General.labelEntries = [[], []] := by
  have hparse : (Document.parse "FROM r/u/cc:1\nLABEL maintainer=\n".toList).map
      (fun d => (d.syntaxErrors, isClean d {}, d.instructions.map (·.maintainerEntries),
        d.instructions.map (·.keyword), d.instructions.map General.labelEntries)) =
          .ok ([], true, [[], [[]]], [.fromImage, .label], [[], []]) := by
    cbv
  obtain ⟨d, hd, hfacts⟩ := exists_of_map_eq_ok hparse
  obtain ⟨hvalid, hfacts⟩ := Prod.mk.inj hfacts
  obtain ⟨hclean, hfacts⟩ := Prod.mk.inj hfacts
  obtain ⟨hentries, hfacts⟩ := Prod.mk.inj hfacts
  refine ⟨d, hd, hvalid, errors_eq_nil_of_isClean hclean {}, fun husable => ?_,
    Prod.mk.inj hfacts⟩
  -- the entries of the label are one empty entry
  have hmem : [[]] ∈ d.instructions.map (·.maintainerEntries) := by
    rw [hentries]
    decide
  obtain ⟨i, hi, hempty⟩ := List.mem_map.1 hmem
  apply Address.not_isUsable_nil
  apply husable i hi
  rw [hempty]
  exact List.mem_singleton_self []

end Report

end Dockerlint
