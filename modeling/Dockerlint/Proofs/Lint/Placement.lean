import Mathlib
import Dockerlint.Proofs.Document.Lines
import Dockerlint.Proofs.Lint.Findings

/-!
# Where diagnostics stand

The diagnostics of a group come rule by rule, in the order of the names. What one rule finds is one
objection to the document as a whole, or a list of places that goes down the document. A place is the
number of a physical line. Rules about lines take it from the line itself; all others take it from an
instruction, and an instruction stands on the line that ends it: a kept line that does not continue.

The order inside a rule has one cause. Numbers grow from line to line and from instruction to
instruction, queries select instructions in their order, and every rule reports while it goes through
lines or through selected instructions.

## Main definitions

* `Document.line?`: a physical line by its number
* `Document.IsPlace`: the numbers that instructions stand on
* `Finding.InPlace`: one finding without a line, or findings on lines in order
* `General.lineRules`: the rules that go through physical lines

## Main results

* `Text.precedes_iff_lt`: texts are ordered as lists of characters are
* `Document.exists_line_of_isPlace`: what stands where an instruction stands
* `Group.inPlace`: every rule reports in place
* `Group.check_placed`: the diagnostics of a group are in order and point into the document
-/

namespace Dockerlint

/-! ## The order of names -/

/-- Texts are ordered as lists of characters are. -/
theorem Text.precedes_iff_lt {s t : Text} : precedes s t ↔ s < t := by
  induction s generalizing t with
  | nil =>
    cases t with
    | nil => simp [precedes]
    | cons b t => simp [precedes]
  | cons a s ih =>
    cases t with
    | nil => simp [precedes]
    | cons b t =>
      have hab : a.toNat < b.toNat ↔ a < b := Iff.rfl
      rw [precedes, Bool.or_eq_true, Bool.and_eq_true, decide_eq_true_eq, beq_iff_eq, ih, hab,
        List.cons_lt_cons_iff]

/-- Rules are put in the order of their names. -/
theorem Rule.notAfter_iff_le {r s : Rule} : notAfter r s ↔ r.name ≤ s.name := by
  rw [notAfter_iff, ← Bool.not_eq_true, Text.precedes_iff_lt, ← String.lt_iff_toList_lt,
    String.not_lt]

/-- **The diagnostics of a run come in the order of the names of their rules.** -/
theorem Rule.pairwise_run (rules : List Rule) (scope : Scope) (d : Document) (policy : Policy)
    (excluded : List Text) :
    (run rules scope d policy excluded).Pairwise fun x y => x.rule ≤ y.rule := by
  rw [run, List.pairwise_flatMap]
  constructor
  · -- the diagnostics of one rule have one name
    intro r _
    refine List.pairwise_of_forall_mem_list fun x hx y hy => ?_
    rw [rule_of_mem_reports hx, rule_of_mem_reports hy]
  · have hsorted := List.pairwise_mergeSort notAfter_trans notAfter_total
      (rules.filter fun r => !excluded.contains r.name.toList)
    refine hsorted.imp fun hrs x hx y hy => ?_
    rw [rule_of_mem_reports hx, rule_of_mem_reports hy]
    exact notAfter_iff_le.1 hrs

namespace Document

/-! ## Numbers of lines -/

/-- The physical line with a number; the first line has number 1. -/
def line? (d : Document) (n : Nat) : Option Text :=
  if n = 0 then none else d.physicalLines[n - 1]?

/-- The numbers that instructions stand on. -/
def IsPlace (d : Document) (n : Nat) : Prop := ∃ i ∈ d.instructions, i.line = n

theorem line?_eq_some_iff {d : Document} {n : Nat} {line : Text} :
    d.line? n = some line ↔ (line, n) ∈ d.physicalLines.zipIdx 1 := by
  rw [line?, List.mk_mem_zipIdx_iff_le_and_getElem?_sub]
  split
  · next hn => simp [hn]
  · next hn =>
    have hpos : 1 ≤ n := Nat.one_le_iff_ne_zero.2 hn
    rw [and_iff_right hpos]

/-- The lines that there are have the numbers from 1 on. -/
theorem bounds_of_line? {d : Document} {n : Nat} {line : Text} (h : d.line? n = some line) :
    1 ≤ n ∧ n ≤ d.physicalLines.length := by
  rw [line?_eq_some_iff] at h
  have hlow := List.le_snd_of_mem_zipIdx h
  have hhigh := List.snd_lt_add_of_mem_zipIdx h
  simp only at hlow hhigh
  omega

/-- **An instruction stands on the line that ends it**, which is kept and does not continue. -/
theorem exists_line_of_isPlace {content : Text} {d : Document} (h : parse content = .ok d) {n : Nat}
    (hn : d.IsPlace n) :
    ∃ line, d.line? n = some line ∧ Line.isDiscarded line = false ∧ Line.continues line = false := by
  obtain ⟨i, hi, rfl⟩ := hn
  have hline := List.mem_map_of_mem (f := Instruction.line) hi
  obtain ⟨ls, is, hls, his, rfl⟩ := parse_eq_ok_iff.1 h
  have htrimmed := LogicalLine.trimmed_of_extract hls
  have hreads := LogicalLine.forall₂_reads_assign
    (LogicalLine.forall₂_reads (fun l hl => (htrimmed l hl).2) his) 0 .beforeFirst
  obtain ⟨runs, hruns, rfl⟩ := LogicalLine.exists_runs_of_extract hls
  -- the numbers of instructions are those of the kept lines that end a run
  rw [LogicalLine.map_line_of_reads hreads, (LogicalLine.exact_of_runs hruns).numbers] at hline
  obtain ⟨⟨line, n⟩, hlast, hnumber⟩ := List.mem_map.1 hline
  obtain ⟨hkept, hends⟩ := List.mem_filter.1 hlast
  obtain ⟨hmem, hdiscarded⟩ := List.mem_filter.1 hkept
  refine ⟨line, ?_, by simpa using hdiscarded, by simpa using hends⟩
  rw [← hnumber]
  exact line?_eq_some_iff.2 hmem

theorem ofKeyword_sublist (d : Document) (k : Keyword) (stage : Option Stage) :
    (d.ofKeyword k stage).Sublist d.instructions :=
  List.filter_sublist.trans List.filter_sublist

theorem maintainerLabels_sublist (d : Document) (mode : Assignments.KeyCase)
    (stage : Option Stage) : (d.maintainerLabels mode stage).Sublist d.instructions :=
  List.filter_sublist.trans (d.ofKeyword_sublist .label stage)

end Document

namespace Finding

/-! ## Findings in place -/

/-- What a rule finds at places with a property: one finding without a place, or findings on lines
that do not go back. -/
inductive InPlace (p : Nat → Prop) (found : List Finding) : Prop where
  | whole (h : found.map (·.line) = [none])
  | lines (ns : List Nat) (h : found.map (·.line) = ns.map some) (increasing : ns.Pairwise (· ≤ ·))
      (places : ∀ n ∈ ns, p n)

theorem InPlace.nil {p : Nat → Prop} : InPlace p [] := .lines [] rfl .nil (by simp)

theorem inPlace_oneIf (p : Nat → Prop) (condition : Bool) : InPlace p (oneIf condition) := by
  cases condition with
  | true => exact .whole rfl
  | false => exact .nil

theorem InPlace.of_mem {p : Nat → Prop} {found : List Finding} (h : InPlace p found) {f : Finding}
    (hf : f ∈ found) {n : Nat} (hn : f.line = some n) : p n := by
  have hmem : some n ∈ found.map (·.line) := hn ▸ List.mem_map_of_mem hf
  cases h with
  | whole hline =>
    rw [hline] at hmem
    simp at hmem
  | lines ns hlines _ places =>
    rw [hlines] at hmem
    obtain ⟨m, hm, heq⟩ := List.mem_map.1 hmem
    exact Option.some.inj heq ▸ places m hm

/-- Findings in place are one without a line, or they have lines that do not go back. -/
theorem InPlace.in_order {p : Nat → Prop} {found : List Finding} (h : InPlace p found) :
    found.map (·.line) = [none] ∨
      ∃ ns : List Nat, found.map (·.line) = ns.map some ∧ ns.Pairwise (· ≤ ·) := by
  cases h with
  | whole hline => exact .inl hline
  | lines ns hlines increasing _ => exact .inr ⟨ns, hlines, increasing⟩

/-- The findings at lines with a property have the numbers of these lines. -/
theorem atLines_eq (p : Text → Bool) (n : Nat) (lines : List Text) :
    atLines p n lines =
      ((lines.zipIdx n).filter fun l => p l.1).map fun l => { line := some l.2 } := by
  induction lines generalizing n with
  | nil => rfl
  | cons line lines ih =>
    rw [atLines, List.zipIdx_cons, List.filter_cons, ih]
    split
    · rfl
    · rfl

/-- A rule that goes through the lines reports in place. -/
theorem inPlace_atLines (d : Document) (p : Text → Bool) :
    InPlace (fun n => ∃ line, d.line? n = some line) (atLines p 1 d.physicalLines) := by
  have hrange : ((d.physicalLines.zipIdx 1).map Prod.snd).Pairwise (· ≤ ·) := by
    rw [List.zipIdx_map_snd]
    exact (List.pairwise_lt_range').imp Nat.le_of_lt
  refine .lines (((d.physicalLines.zipIdx 1).filter fun l => p l.1).map Prod.snd) ?_ ?_ ?_
  · rw [atLines_eq, List.map_map, List.map_map]
    rfl
  · exact hrange.sublist (List.filter_sublist.map _)
  · intro n hn
    obtain ⟨⟨line, n⟩, hmem, rfl⟩ := List.mem_map.1 hn
    exact ⟨line, Document.line?_eq_some_iff.2 (List.mem_of_mem_filter hmem)⟩

section Instructions

variable {content : Text} {d : Document} (h : Document.parse content = .ok d)
  {is : List Instruction} (his : is.Sublist d.instructions)

include h his

/-- **A rule that goes through instructions reports in place**, whatever it finds at each. -/
theorem inPlace_flatMap {f : Instruction → List Finding}
    (hf : ∀ i, ∀ x ∈ f i, x.line = some i.line) : InPlace d.IsPlace (is.flatMap f) := by
  have hincreasing : (is.map (·.line)).Pairwise (· < ·) :=
    (Document.increasing_lines h).sublist (his.map _)
  have hlines : ∀ i, (f i).map (·.line) = (List.replicate (f i).length i.line).map some := by
    intro i
    rw [List.map_replicate, List.eq_replicate_iff]
    refine ⟨List.length_map _, fun n hn => ?_⟩
    obtain ⟨x, hx, rfl⟩ := List.mem_map.1 hn
    exact hf i x hx
  refine .lines (is.flatMap fun i => List.replicate (f i).length i.line) ?_ ?_ ?_
  · rw [List.map_flatMap, List.map_flatMap]
    exact List.flatMap_congr fun i _ => hlines i
  · rw [List.pairwise_flatMap]
    refine ⟨fun i _ => List.pairwise_replicate.2 (.inr le_rfl), ?_⟩
    refine (List.pairwise_map.1 hincreasing).imp fun hij m hm n hn => ?_
    rw [List.eq_of_mem_replicate hm, List.eq_of_mem_replicate hn]
    exact Nat.le_of_lt hij
  · intro n hn
    obtain ⟨i, hi, hreplicate⟩ := List.mem_flatMap.1 hn
    exact ⟨i, his.subset hi, (List.eq_of_mem_replicate hreplicate).symm⟩

theorem inPlace_map {f : Instruction → Finding} (hf : ∀ i, (f i).line = some i.line) :
    InPlace d.IsPlace (is.map f) := by
  rw [List.map_eq_flatMap]
  apply inPlace_flatMap h his
  intro i x hx
  rw [List.mem_singleton.1 hx]
  exact hf i

theorem inPlace_atInstructions (p : Instruction → Bool) :
    InPlace d.IsPlace (atInstructions is p) :=
  inPlace_map h (List.filter_sublist.trans his) fun _ => rfl

end Instructions

end Finding

/-! ## The rules -/

section Rules

open Finding

variable {content : Text} {d : Document} (h : Document.parse content = .ok d)
  (stage : Option Stage) (policy : Policy)

/-- The general rules that go through the physical lines. -/
def General.lineRules : List String := ["rule10", "rule11_0", "rule11_1", "rule14"]

theorem General.inPlace_imageComesFirst (p : Nat → Prop) (c : Context) :
    InPlace p (imageComesFirst c) := by
  rw [imageComesFirst]
  split
  · exact inPlace_oneIf ..
  · exact .nil

theorem General.inPlace_oneFinalNewline (p : Nat → Prop) (c : Context) :
    InPlace p (oneFinalNewline c) := by
  rw [oneFinalNewline]
  split
  · exact inPlace_oneIf ..
  · exact .nil

theorem LastStage.inPlace_commandFollowsEntrypoint (p : Nat → Prop) (c : Context) :
    InPlace p (commandFollowsEntrypoint c) := by
  rw [commandFollowsEntrypoint]
  split
  · exact inPlace_oneIf ..
  · exact .nil

theorem General.line_of_mem_missingParts {i : Instruction} {entry : Text} {x : Finding}
    (hx : x ∈ missingParts i entry) : x.line = some i.line := by
  rw [List.eq_of_mem_replicate hx]

include h

theorem General.inPlace_imageFromAllowedRegistry :
    InPlace d.IsPlace (imageFromAllowedRegistry ⟨d, stage, policy⟩) := by
  rw [imageFromAllowedRegistry]
  split
  · exact inPlace_map h (List.filter_sublist.trans (d.ofKeyword_sublist ..)) fun _ => rfl
  · exact .nil

theorem General.inPlace_imageNameLength :
    InPlace d.IsPlace (imageNameLength ⟨d, stage, policy⟩) := by
  rw [imageNameLength, List.filterMap_eq_flatMap_toList]
  apply inPlace_flatMap h (d.ofKeyword_sublist ..)
  intro i x hx
  rw [Option.mem_toList] at hx
  split at hx
  · split at hx
    · obtain rfl := Option.some.inj hx
      rfl
    · cases hx
  · cases hx

theorem General.inPlace_labelHasMail : InPlace d.IsPlace (labelHasMail ⟨d, stage, policy⟩) := by
  apply inPlace_flatMap h (d.maintainerLabels_sublist ..)
  intro i x hx
  obtain ⟨entry, -, rfl⟩ := List.mem_map.1 hx
  rfl

theorem General.inPlace_labelForm : InPlace d.IsPlace (labelForm ⟨d, stage, policy⟩) := by
  apply inPlace_flatMap h (d.maintainerLabels_sublist ..)
  intro i x hx
  obtain ⟨entry, -, hpart⟩ := List.mem_flatMap.1 hx
  exact line_of_mem_missingParts hpart

theorem General.inPlace_maintainerForm :
    InPlace d.IsPlace (maintainerForm ⟨d, stage, policy⟩) := by
  apply inPlace_flatMap h (d.ofKeyword_sublist ..)
  intro i x hx
  obtain ⟨entry, -, hpart⟩ := List.mem_flatMap.1 hx
  exact line_of_mem_missingParts hpart

/-- A general rule reports in place, at lines or at instructions. -/
theorem General.inPlace {r : Rule} (hr : r ∈ General.rules) :
    (r.name ∈ lineRules ∧
      InPlace (fun n => ∃ line, d.line? n = some line) (r.check ⟨d, stage, policy⟩)) ∨
    InPlace d.IsPlace (r.check ⟨d, stage, policy⟩) := by
  -- one case for each rule, in the order of the list
  fin_cases hr
  · exact .inr (inPlace_oneIf ..)
  · exact .inr (inPlace_oneIf ..)
  · exact .inr (inPlace_oneIf ..)
  · exact .inr (inPlace_atInstructions h (d.maintainerLabels_sublist ..) _)
  · exact .inr (inPlace_labelHasMail h stage policy)
  · exact .inr (inPlace_imageComesFirst ..)
  · exact .inr (inPlace_imageFromAllowedRegistry h stage policy)
  · exact .inr (inPlace_atInstructions h (d.ofKeyword_sublist ..) _)
  · exact .inr (inPlace_imageNameLength h stage policy)
  · exact .inr (inPlace_atInstructions h (d.ofKeyword_sublist ..) _)
  · exact .inr (inPlace_oneIf ..)
  · exact .inr (inPlace_oneIf ..)
  · exact .inr (inPlace_atInstructions h (d.ofKeyword_sublist ..) _)
  · exact .inl ⟨by decide, inPlace_atLines d _⟩
  · exact .inl ⟨by decide, inPlace_atLines d _⟩
  · exact .inl ⟨by decide, inPlace_atLines d _⟩
  · exact .inr (inPlace_atInstructions h (d.ofKeyword_sublist ..) _)
  · exact .inr (inPlace_atInstructions h (d.ofKeyword_sublist ..) _)
  · exact .inr (inPlace_atInstructions h (d.ofKeyword_sublist ..) _)
  · exact .inr (inPlace_labelForm h stage policy)
  · exact .inr (inPlace_maintainerForm h stage policy)
  · exact .inl ⟨by decide, inPlace_atLines d _⟩
  · exact .inr (inPlace_oneFinalNewline ..)

omit h in
/-- The rules for the last stage look at the stage as a whole. -/
theorem LastStage.inPlace {r : Rule} (hr : r ∈ LastStage.rules) (p : Nat → Prop) :
    InPlace p (r.check ⟨d, stage, policy⟩) := by
  fin_cases hr
  -- the last one is the rule about two keywords, and the others ask one question
  pick_goal 8
  · exact inPlace_commandFollowsEntrypoint ..
  all_goals exact inPlace_oneIf ..

/-- **Every rule reports in place**: at the lines that it goes through, or at instructions. -/
theorem Group.inPlace {g : Group} {r : Rule} (hr : r ∈ g.listed) :
    (r.name ∈ General.lineRules ∧
      InPlace (fun n => ∃ line, d.line? n = some line) (r.check ⟨d, stage, policy⟩)) ∨
    InPlace d.IsPlace (r.check ⟨d, stage, policy⟩) := by
  cases g with
  | general => exact General.inPlace h stage policy hr
  | lastStage => exact .inr (LastStage.inPlace stage policy hr _)
  | everyStage => cases hr
  | builderStages => cases hr

end Rules

namespace Group

variable {content : Text} {d : Document} {policy : Policy} {excluded : List Text} {g : Group}

/-- A rule looks at one context, because the groups that go through several stages have no rules. -/
theorem exists_reports_eq {r : Rule} (hr : r ∈ g.listed) (d : Document) (policy : Policy) :
    ∃ stage, r.reports (g.scope.contexts d policy) =
      (r.check ⟨d, stage, policy⟩).map r.diagnostic := by
  cases g with
  | general => exact ⟨none, List.flatMap_singleton ..⟩
  | lastStage => exact ⟨some d.lastStage, List.flatMap_singleton ..⟩
  | everyStage => cases hr
  | builderStages => cases hr

/-- What is reported is what a rule of the group finds. -/
theorem exists_of_mem_check {x : Diagnostic} (hx : x ∈ g.check d policy excluded) :
    ∃ r ∈ g.listed, r.name.toList ∉ excluded ∧ x.rule = r.name ∧
      ∃ stage, ∃ f ∈ r.check ⟨d, stage, policy⟩, x.line = f.line := by
  obtain ⟨r, hr, hrun, hreported⟩ := Rule.mem_run_iff.1 hx
  obtain ⟨stage, hstage⟩ := exists_reports_eq hr d policy
  have hname := Rule.rule_of_mem_reports hreported
  rw [hstage] at hreported
  obtain ⟨f, hf, rfl⟩ := List.mem_map.1 hreported
  exact ⟨r, hr, hrun, hname, stage, f, hf, rfl⟩

/-- The lines that are reported under one name are in order. -/
theorem lines_in_order (h : Document.parse content = .ok d) (policy : Policy) (excluded : List Text)
    (g : Group) (name : String) :
    ((g.check d policy excluded).filter (·.rule = name)).map (·.line) = [none] ∨
      ∃ ns : List Nat, ((g.check d policy excluded).filter (·.rule = name)).map (·.line) =
        ns.map some ∧ ns.Pairwise (· ≤ ·) := by
  by_cases hnil : (g.check d policy excluded).filter (·.rule = name) = []
  · rw [hnil]
    exact .inr ⟨[], rfl, .nil⟩
  · -- there is a rule of that name, and the diagnostics are what it finds
    obtain ⟨x, hx⟩ := List.exists_mem_of_ne_nil _ hnil
    obtain ⟨hcheck, hname⟩ := List.mem_filter.1 hx
    obtain ⟨r, hr, hrun, hrule, -⟩ := exists_of_mem_check hcheck
    obtain rfl : r.name = name := hrule.symm.trans (of_decide_eq_true hname)
    obtain ⟨stage, hstage⟩ := exists_reports_eq hr d policy
    rw [filter_check d policy hr hrun, hstage, List.map_map]
    rcases inPlace h stage policy hr with ⟨-, hlines⟩ | hinstructions
    · exact hlines.in_order
    · exact hinstructions.in_order

/-- **The diagnostics of a group are in order and point into the document.** They come in the order
of the names of their rules. Under one name there is a single diagnostic without a line, or all have
lines, and these do not go back. Every line is one of the document. A diagnostic of a rule that does
not go through the lines points to an instruction, and so to a line that is neither blank nor a
comment and does not end in a continuation marker. -/
theorem check_placed (h : Document.parse content = .ok d) (policy : Policy) (excluded : List Text)
    (g : Group) :
    let found := g.check d policy excluded
    (found.Pairwise fun x y => x.rule ≤ y.rule) ∧
    (∀ name, let places := (found.filter (·.rule = name)).map (·.line)
      places = [none] ∨ ∃ ns : List Nat, places = ns.map some ∧ ns.Pairwise (· ≤ ·)) ∧
    (∀ x ∈ found, ∀ n, x.line = some n → 1 ≤ n ∧ n ≤ d.physicalLines.length) ∧
    ∀ x ∈ found, ∀ n, x.line = some n → x.rule ∉ General.lineRules →
      (∃ i ∈ d.instructions, i.line = n) ∧
      ∃ line, d.line? n = some line ∧ Line.isDiscarded line = false ∧
        Line.continues line = false := by
  intro found
  refine ⟨Rule.pairwise_run .., lines_in_order h policy excluded g, ?_, ?_⟩
  · intro x hx n hn
    obtain ⟨r, hr, -, -, stage, f, hf, hline⟩ := exists_of_mem_check hx
    have hplace := hline.symm.trans hn
    obtain ⟨line, hlines⟩ : ∃ line, d.line? n = some line := by
      rcases inPlace h stage policy hr with ⟨-, hlines⟩ | hinstructions
      · exact hlines.of_mem hf hplace
      · obtain ⟨line, hline, -⟩ :=
          Document.exists_line_of_isPlace h (hinstructions.of_mem hf hplace)
        exact ⟨line, hline⟩
    exact Document.bounds_of_line? hlines
  · intro x hx n hn hother
    obtain ⟨r, hr, -, hrule, stage, f, hf, hline⟩ := exists_of_mem_check hx
    rcases inPlace h stage policy hr with ⟨hlines, -⟩ | hinstructions
    · exact absurd (hrule ▸ hlines) hother
    · have hplace := hinstructions.of_mem hf (hline.symm.trans hn)
      exact ⟨hplace, Document.exists_line_of_isPlace h hplace⟩

/-- A `RUN` over two lines with a comment between them: the rule about `sudo` points to the line that
ends it. -/
theorem check_placed_continued :
    ∃ d, Document.parse "FROM a\nRUN sudo b \\\n# c\n d\n\n".toList = .ok d ∧
      (∃ x ∈ general.check d {} [], x.rule = "rule9" ∧ x.line = some 4) ∧
      4 ≤ d.physicalLines.length ∧
      (general.check d {} []).Pairwise (fun x y => x.rule ≤ y.rule) ∧
      ∃ line, d.line? 4 = some line ∧ Line.isDiscarded line = false ∧
        Line.continues line = false := by
  have hparse : (Document.parse "FROM a\nRUN sudo b \\\n# c\n d\n\n".toList).map
      (fun d => General.runWithoutSudo ⟨d, none, {}⟩) = .ok [{ line := some 4 }] := by
    cbv
  obtain ⟨d, hd, hsudo⟩ := exists_of_map_eq_ok hparse
  let r : Rule := ⟨"rule9", "RUN sudo is prohibited", .error, General.runWithoutSudo⟩
  have hx : r.diagnostic { line := some 4 } ∈ general.check d {} [] := by
    refine Rule.mem_run_iff.2 ⟨r, mem_listed "rule9" rfl, List.not_mem_nil, ?_⟩
    refine Rule.mem_reports_iff.2 ⟨⟨d, none, {}⟩, List.mem_singleton_self _, _, ?_, rfl⟩
    show _ ∈ General.runWithoutSudo ⟨d, none, {}⟩
    rw [hsudo]
    exact List.mem_singleton_self _
  obtain ⟨hnames, -, hinside, hinstructions⟩ := check_placed hd {} [] general
  exact ⟨d, hd, ⟨_, hx, rfl, rfl⟩, (hinside _ hx 4 rfl).2, hnames,
    (hinstructions _ hx 4 rfl (by decide)).2⟩

end Group

end Dockerlint
