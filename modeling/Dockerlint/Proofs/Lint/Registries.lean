import Mathlib
import Dockerlint.Proofs.Document.Append
import Dockerlint.Proofs.Lint.Findings
import Dockerlint.Proofs.Operand.Image

/-!
# Registries under a policy

One rule looks at the policy, and it looks at nothing but whether the policy is enforced and which
names it lists. Under an enforced policy it objects to every `FROM` whose registry is not a listed
name. The registry is the first segment of the reference, so where the rule is silent the text of
every `FROM` begins with a listed name and a slash. A `FROM` that does not fit its grammar has no
registry, and the rule objects to it.

## Main definitions

* `Policy.Refuses`: the `FROM`s whose registry is absent or not listed
* `Policy.objection`: what is reported about such a `FROM`
* `Rule.IgnoresPolicy`: the rules that say the same under every policy

## Main results

* `Image.exists_trimLeft_eq`: an argument begins with its registry and a slash
* `Report.filter_diagnostics`: the diagnostics of some of the rules
* `Group.ignoresPolicy`: one rule looks at the policy
* `Report.registries_enforced`: what the policy does to a report
-/

namespace Dockerlint

/-! ## The names of a policy -/

theorem Table.valueIn_isSome_iff {α : Type} {key : Text} {es : List (Text × α)} :
    (Table.valueIn key es).isSome ↔ key ∈ es.map (·.1) := by
  induction es with
  | nil => simp [Table.valueIn]
  | cons e es ih =>
    rw [Table.valueIn, List.map_cons, List.mem_cons]
    split
    · next hkey => simp [hkey]
    · next hkey => rw [ih, or_iff_right hkey]

theorem Table.pairwise_keys {α : Type} (m : Table α) :
    m.keys.Pairwise fun a b => Text.precedes a b :=
  List.pairwise_map.2 m.sorted

theorem Table.nodup_keys {α : Type} (m : Table α) : m.keys.Nodup := by
  refine m.pairwise_keys.imp ?_
  rintro a b hab rfl
  rw [Text.precedes_irrefl] at hab
  cases hab

/-- Keys are listed in their order, so tables with the same keys list them alike. -/
theorem Table.keys_eq_of_mem_iff {α : Type} {m n : Table α}
    (h : ∀ key, key ∈ m.keys ↔ key ∈ n.keys) : m.keys = n.keys := by
  have hperm : m.keys.Perm n.keys :=
    (List.perm_ext_iff_of_nodup m.nodup_keys n.nodup_keys).2 h
  refine hperm.eq_of_pairwise ?_ m.pairwise_keys n.pairwise_keys
  -- no text comes before one that comes before it
  intro a b _ _ hab hba
  have hirrefl := Text.precedes_irrefl a
  rw [Text.precedes_trans hab hba] at hirrefl
  cases hirrefl

namespace Policy

theorem allows_some_iff {p : Policy} {name : Text} : p.allows (some name) ↔ name ∈ p.allowed :=
  Table.valueIn_isSome_iff

theorem allowed_eq_of_mem_iff {p q : Policy} (h : ∀ name, name ∈ p.allowed ↔ name ∈ q.allowed) :
    p.allowed = q.allowed :=
  Table.keys_eq_of_mem_iff h

/-- The `FROM`s whose registry is absent or not listed. -/
def Refuses (p : Policy) (i : Instruction) : Prop :=
  i.keyword = .fromImage ∧ ¬ ∃ name ∈ p.allowed, i.field? "registry" = some (.text name)

instance decidableRefuses (p : Policy) : DecidablePred p.Refuses :=
  fun i => inferInstanceAs (Decidable (i.keyword = .fromImage ∧ ¬ _))

/-- What is reported about a `FROM` that is refused. -/
def objection (p : Policy) (i : Instruction) : Diagnostic :=
  { rule := "rule2"
    message := "FROM must point to an allowed registry: " ++ General.nameList p.allowed
    severity := .error
    line := some i.line }

end Policy

/-! ## The registry of a `FROM` -/

/-- **An argument begins with its registry and a slash.** -/
theorem Image.exists_trimLeft_eq {t registry : Text} {i : Image} (h : Image.read t = .ok i)
    (hregistry : i.registry = some registry) :
    ∃ rest, Text.trimLeft t = registry ++ '/' :: rest := by
  obtain ⟨segments, image, rest, hcut⟩ := exists_cut_of_read h
  rw [read_of_cut hcut, Reader.finish_eq_ok_iff] at h
  obtain ⟨rfl, -⟩ := h
  -- the registry is the first segment, and each segment has its slash
  obtain ⟨others, rfl⟩ := List.head?_eq_some_iff.1 hregistry
  exact ⟨slashed others ++ (image.written ++ rest), by rw [hcut.text, slashed_cons]; simp⟩

/-- The arguments of a `FROM` are an image. -/
theorem Args.exists_image_of_read {argument : Text} {args : Args}
    (h : Args.read .fromImage argument = .ok args) :
    ∃ base, Image.read argument = .ok base ∧ args = .fromImage base.toArgs := by
  obtain ⟨operand, hoperand, rfl⟩ := exists_of_map_eq_ok h
  obtain ⟨base, hbase, rfl⟩ := exists_of_map_eq_ok hoperand
  exact ⟨base, hbase, rfl⟩

theorem Args.exists_fromImage {a : Args} (h : a.keyword = .fromImage) :
    ∃ base, a = .fromImage base := by
  cases a <;> cases h
  exact ⟨_, rfl⟩

section FromImage

variable {i : Instruction}

/-- The attribute `registry` is the registry that the policy is asked about. -/
theorem Instruction.field?_registry_iff (hi : i.Parsed) (hkeyword : i.keyword = .fromImage)
    {name : Text} :
    i.field? "registry" = some (.text name) ↔ i.args.image?.bind (·.registry) = some name := by
  obtain ⟨base, hbase⟩ : ∃ base, i.args = .fromImage base :=
    Args.exists_fromImage (hi.keyword_args.trans hkeyword)
  rw [field?, hbase]
  change base.registry.map Field.text = some (.text name) ↔ base.registry = some name
  simp

/-- A policy refuses what it does not allow. -/
theorem Policy.refuses_iff {p : Policy} (hi : i.Parsed) (hkeyword : i.keyword = .fromImage) :
    p.Refuses i ↔ p.allows (i.args.image?.bind (·.registry)) = false := by
  rw [Refuses, and_iff_right hkeyword]
  cases hregistry : i.args.image?.bind (·.registry) with
  | none =>
    refine iff_of_true ?_ rfl
    rintro ⟨name, -, hname⟩
    rw [Instruction.field?_registry_iff hi hkeyword, hregistry] at hname
    cases hname
  | some registry =>
    rw [← Bool.not_eq_true, allows_some_iff, not_iff_not]
    constructor
    · rintro ⟨name, hmem, hname⟩
      rw [Instruction.field?_registry_iff hi hkeyword, hregistry] at hname
      rwa [Option.some.inj hname]
    · intro hmem
      exact ⟨registry, hmem, (Instruction.field?_registry_iff hi hkeyword).2 hregistry⟩

/-- An instruction has syntax errors or attributes, never both. -/
theorem Policy.refuses_of_syntaxErrors {p : Policy} (hi : i.Parsed)
    (hkeyword : i.keyword = .fromImage) (herrors : i.syntaxErrors ≠ []) : p.Refuses i := by
  refine ⟨hkeyword, ?_⟩
  rintro ⟨name, -, hname⟩
  rw [Instruction.field?, hi.args_of_syntaxErrors herrors, Args.field?_empty] at hname
  cases hname

/-- A `FROM` that is not refused fits its grammar and begins with a listed name. -/
theorem Policy.exists_of_not_refuses {p : Policy} (hi : i.Parsed)
    (hkeyword : i.keyword = .fromImage) (h : ¬ p.Refuses i) :
    i.isValid ∧ ∃ name ∈ p.allowed, ∃ rest, Text.trimLeft i.argument = name ++ '/' :: rest := by
  have hvalid : i.syntaxErrors = [] := by
    by_contra herrors
    exact h (refuses_of_syntaxErrors hi hkeyword herrors)
  have hread := hi.read_of_syntaxErrors hvalid
  rw [Refuses, and_iff_right hkeyword, not_not] at h
  obtain ⟨name, hmem, hname⟩ := h
  rw [Instruction.field?_registry_iff hi hkeyword] at hname
  rw [hkeyword] at hread
  obtain ⟨base, hbase, hargs⟩ := Args.exists_image_of_read hread
  rw [hargs] at hname
  exact ⟨List.isEmpty_iff.2 hvalid, name, hmem, Image.exists_trimLeft_eq hbase hname⟩

end FromImage

namespace Document

variable {content : Text} {d : Document}

/-- No blanks stand before the argument of an instruction. -/
theorem trimLeft_argument_of_mem (h : parse content = .ok d) :
    ∀ i ∈ d.instructions, Text.trimLeft i.argument = i.argument := by
  obtain ⟨ls, is, -, his, rfl⟩ := parse_eq_ok_iff.1 h
  intro i hi
  obtain ⟨j, hj, hstage⟩ := Stage.exists_of_mem_assign hi
  obtain ⟨l, -, hl⟩ := LogicalLine.exists_of_mem_instructions his j hj
  rw [hstage]
  simp only [LogicalLine.instruction, LogicalLine.divide] at hl
  split at hl
  · rw [← Except.ok.inj hl]
    exact Text.trimLeft_trimLeft _
  · cases hl

end Document

/-! ## The diagnostics of some of the rules -/

/-- The diagnostics of the rules with certain names are what these rules report. -/
theorem Report.filter_diagnostics (d : Document) (policy : Policy) (excluded : List Text)
    (keep : String → Bool) :
    (diagnostics d policy excluded).filter (keep ·.rule) =
      Group.all.flatMap fun g =>
        (g.rules.filter fun r => keep r.name && r.name.toList ∉ excluded).flatMap
          (·.reports (g.scope.contexts d policy)) := by
  rw [diagnostics, List.filter_flatMap]
  refine List.flatMap_congr fun g _ => ?_
  rw [Group.check, Rule.run, Rule.inOrder_filter, ← Rule.flatMap_reports_filter, List.filter_filter]
  simp [Group.rules]

/-- A rule that says the same under every policy. -/
def Rule.IgnoresPolicy (r : Rule) : Prop :=
  ∀ d stage p q, r.check ⟨d, stage, p⟩ = r.check ⟨d, stage, q⟩

theorem Rule.IgnoresPolicy.reports {r : Rule} (h : r.IgnoresPolicy) (d : Document) (scope : Scope)
    (p q : Policy) : r.reports (scope.contexts d p) = r.reports (scope.contexts d q) := by
  rw [Rule.reports, Rule.reports, Scope.contexts, Scope.contexts, List.flatMap_map,
    List.flatMap_map]
  exact List.flatMap_congr fun stage _ => by rw [h d stage p q]

/-- The rule about registries, as it is listed. -/
def General.registryRule : Rule :=
  ⟨"rule2", "FROM must point to an allowed registry: ", .error, imageFromAllowedRegistry⟩

theorem General.ignoresPolicy : ∀ r ∈ General.rules, r.name ≠ "rule2" → r.IgnoresPolicy := by
  intro r hr hname
  fin_cases hr
  -- the seventh rule is the one about registries; the checks of the others never ask for the policy
  pick_goal 7
  · exact absurd rfl hname
  all_goals exact fun _ _ _ _ => rfl

theorem LastStage.ignoresPolicy : ∀ r ∈ LastStage.rules, r.IgnoresPolicy := by
  intro r hr
  fin_cases hr
  all_goals exact fun _ _ _ _ => rfl

/-- **One rule looks at the policy.** -/
theorem Group.ignoresPolicy {g : Group} {r : Rule} (hr : r ∈ g.rules) (hname : r.name ≠ "rule2") :
    r.IgnoresPolicy := by
  have hlisted : r ∈ g.listed := List.mem_mergeSort.1 hr
  cases g with
  | general => exact General.ignoresPolicy r hlisted hname
  | lastStage => exact LastStage.ignoresPolicy r hlisted
  | everyStage => cases hlisted
  | builderStages => cases hlisted

namespace Report

/-- The other rules say the same under every policy. -/
theorem filter_ne_diagnostics (d : Document) (excluded : List Text) (p q : Policy) :
    (diagnostics d p excluded).filter (·.rule ≠ "rule2") =
      (diagnostics d q excluded).filter (·.rule ≠ "rule2") := by
  have hother := fun policy => filter_diagnostics d policy excluded (· ≠ "rule2")
  rw [hother p, hother q]
  refine List.flatMap_congr fun g _ => List.flatMap_congr fun r hr => ?_
  obtain ⟨hmem, hkeep⟩ := List.mem_filter.1 hr
  have hname : r.name ≠ "rule2" := of_decide_eq_true (Bool.and_eq_true_iff.1 hkeep).1
  exact (Group.ignoresPolicy hmem hname).reports d g.scope p q

theorem filter_eq_diagnostics (d : Document) (policy : Policy) {excluded : List Text}
    (hrun : "rule2".toList ∉ excluded) :
    (diagnostics d policy excluded).filter (·.rule = "rule2") =
      (General.imageFromAllowedRegistry ⟨d, none, policy⟩).map General.registryRule.diagnostic :=
  filter_diagnostics_general (r := General.registryRule) (Group.mem_listed "rule2" rfl) hrun

/-- An enforced policy objects to the `FROM`s that it refuses, in their order. -/
theorem imageFromAllowedRegistry_of_enforced {content : Text} {d : Document}
    (h : Document.parse content = .ok d) {policy : Policy} (henforced : policy.isEnforced) :
    (General.imageFromAllowedRegistry ⟨d, none, policy⟩).map General.registryRule.diagnostic =
      (d.instructions.filter policy.Refuses).map policy.objection := by
  have hfilter : (General.images ⟨d, none, policy⟩).filter
      (fun i => !policy.allows (i.args.image?.bind (·.registry))) =
        d.instructions.filter policy.Refuses := by
    rw [General.images, Document.ofKeyword, Document.select, List.filter_filter,
      List.filter_filter]
    refine List.filter_congr fun i hi => ?_
    by_cases hkeyword : i.keyword = .fromImage
    · have hrefuses := Policy.refuses_iff (p := policy) (Document.parsed_of_mem h i hi) hkeyword
      simp [hkeyword, Document.inStage, hrefuses]
    · simp [hkeyword, Policy.Refuses]
  rw [General.imageFromAllowedRegistry, if_pos henforced, hfilter, List.map_map]
  rfl

theorem imageFromAllowedRegistry_congr (d : Document) {p q : Policy}
    (henforced : p.isEnforced = q.isEnforced)
    (hnames : ∀ name, name ∈ p.allowed ↔ name ∈ q.allowed) :
    General.imageFromAllowedRegistry ⟨d, none, p⟩ =
      General.imageFromAllowedRegistry ⟨d, none, q⟩ := by
  have hallows : ∀ registry, p.allows registry = q.allows registry := by
    intro registry
    cases registry with
    | none => rfl
    | some name => rw [Bool.eq_iff_iff, Policy.allows_some_iff, Policy.allows_some_iff, hnames]
  rw [General.imageFromAllowedRegistry, General.imageFromAllowedRegistry]
  simp only [henforced, hallows, Policy.allowed_eq_of_mem_iff hnames]
  rfl

/-- **What a policy does to a report.** Under an enforced policy there is one objection for each
`FROM` whose registry is absent or not listed, in the order of the document and at the line of the
`FROM`; a `FROM` with a syntax error is among them. So if there is none, every `FROM` fits its
grammar and its argument begins with a listed name and a slash. A policy that is not enforced
objects to nothing. No other diagnostic depends on the policy, and the objections depend only on
whether it is enforced and on the names that it lists. -/
theorem registries_enforced {content : Text} {d : Document} (h : Document.parse content = .ok d)
    (policy : Policy) (excluded : List Text) (hrun : "rule2".toList ∉ excluded) :
    let objections (p : Policy) := (diagnostics d p excluded).filter (·.rule = "rule2")
    let others (p : Policy) := (diagnostics d p excluded).filter (·.rule ≠ "rule2")
    (policy.isEnforced →
      objections policy = (d.instructions.filter policy.Refuses).map policy.objection) ∧
    (∀ i ∈ d.instructions, i.keyword = .fromImage → i.syntaxErrors ≠ [] → policy.Refuses i) ∧
    (policy.isEnforced → objections policy = [] →
      ∀ i ∈ d.instructions, i.keyword = .fromImage →
        i.isValid ∧ ∃ name ∈ policy.allowed, ∃ rest, i.argument = name ++ '/' :: rest) ∧
    (policy.isEnforced = false → objections policy = []) ∧
    (∀ p : Policy, others p = others policy) ∧
    ∀ p : Policy, p.isEnforced = policy.isEnforced →
      (∀ name, name ∈ p.allowed ↔ name ∈ policy.allowed) → objections p = objections policy := by
  intro objections others
  have hobjections : ∀ p, objections p = _ := fun p => filter_eq_diagnostics d p hrun
  have henforced : policy.isEnforced →
      objections policy = (d.instructions.filter policy.Refuses).map policy.objection := by
    intro henforced
    rw [hobjections, imageFromAllowedRegistry_of_enforced h henforced]
  refine ⟨henforced, ?_, ?_, ?_, ?_, ?_⟩
  · intro i hi hkeyword herrors
    exact Policy.refuses_of_syntaxErrors (Document.parsed_of_mem h i hi) hkeyword herrors
  · intro hpolicy hsilent i hi hkeyword
    -- a `FROM` without an objection is not refused
    rw [henforced hpolicy, List.map_eq_nil_iff, List.filter_eq_nil_iff] at hsilent
    have haccepted : ¬ policy.Refuses i := by simpa using hsilent i hi
    rw [← Document.trimLeft_argument_of_mem h i hi]
    exact Policy.exists_of_not_refuses (Document.parsed_of_mem h i hi) hkeyword haccepted
  · intro hpolicy
    rw [hobjections, General.imageFromAllowedRegistry]
    simp [hpolicy]
  · intro p
    exact filter_ne_diagnostics d excluded p policy
  · intro p hp hnames
    rw [hobjections, hobjections, imageFromAllowedRegistry_congr d hp hnames]

/-- A listed registry with a port, a registry that is not listed, a `FROM` that fits no grammar, and
a name that is only the beginning of a registry. -/
theorem registries_enforced_port :
    let policy : Policy := ⟨true, Table.ofList [("r:5".toList, [])]⟩
    ∃ d, Document.parse "FROM r:5/a\nFROM s/b\nFROM a b\nFROM r:50/c\n".toList = .ok d ∧
      ((diagnostics d policy []).filter (·.rule = "rule2")).map (·.line) =
        [some 2, some 3, some 4] := by
  intro policy
  have hparse : (Document.parse "FROM r:5/a\nFROM s/b\nFROM a b\nFROM r:50/c\n".toList).map
      (fun d => (d.instructions.filter policy.Refuses).map (·.line)) = .ok [2, 3, 4] := by
    cbv
  obtain ⟨d, hd, hlines⟩ := exists_of_map_eq_ok hparse
  refine ⟨d, hd, ?_⟩
  have hobjections : (diagnostics d policy []).filter (·.rule = "rule2") =
      (d.instructions.filter policy.Refuses).map policy.objection :=
    (registries_enforced hd policy [] List.not_mem_nil).1 rfl
  have hplaces := congrArg (List.map some) hlines
  rw [List.map_map] at hplaces
  rw [hobjections, List.map_map]
  exact hplaces

end Report

end Dockerlint
