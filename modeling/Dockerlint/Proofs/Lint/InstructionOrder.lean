import Mathlib
import Dockerlint.Proofs.Document.Lines
import Dockerlint.Proofs.Document.Tagging
import Dockerlint.Proofs.Lint.Findings

/-!
# The order of instructions

Some rules are about the order of instructions and find it by search: for the last instruction with a
keyword, for the first one that is no build argument, for any `FROM`. A search goes through the list of
all instructions, and a query selects from it, so both find the same instruction where they look for
the same. What the rules ask for is a shape of the document: build arguments, then a `FROM`, then
anything, and no instruction behind the last `CMD` or `ENTRYPOINT`. What stands before the first
`FROM` is the stage number -1.

## Main definitions

* `Instruction.IsCommand`: the instructions that say what a container runs
* `Document.BeginsWithImage`: the documents that begin with build arguments and a `FROM`
* `Report.Mentions`: a rule is reported

## Main results

* `Document.exists_of_lastIndex`: the last place with a property
* `General.commandIsLast_eq_nil_iff`, `General.imageComesFirst_eq_nil_iff`: the rules
* `Document.order_rules`: the rules agree with the structure of a document
-/

namespace Dockerlint

namespace Document

/-! ## The last place with a property -/

section LastIndex

variable {α : Type} (p : α → Bool)

theorem lastIndex_concat (l : List α) (a : α) :
    lastIndex p (l ++ [a]) = if p a then some l.length else lastIndex p l := by
  induction l with
  | nil => rfl
  | cons b l ih =>
    rw [List.cons_append, lastIndex, ih]
    by_cases ha : p a
    · rw [if_pos ha, if_pos ha, List.length_cons]
    · rw [if_neg ha, if_neg ha, lastIndex]

theorem lastIndex_eq_none_iff {l : List α} : lastIndex p l = none ↔ l.filter p = [] := by
  induction l using List.reverseRecOn with
  | nil => exact iff_of_true rfl rfl
  | append_singleton l a ih =>
    rw [lastIndex_concat, List.filter_append, List.append_eq_nil_iff, ← ih]
    split_ifs with ha
    · simp [ha]
    · simp [ha]

/-- **At the last place with a property** stands the last of the elements that have it. -/
theorem exists_of_lastIndex {l : List α} {n : Nat} (h : lastIndex p l = some n) :
    ∃ a, l[n]? = some a ∧ (l.filter p).getLast? = some a := by
  induction l using List.reverseRecOn with
  | nil => cases h
  | append_singleton l a ih =>
    rw [lastIndex_concat] at h
    split_ifs at h with ha
    · obtain rfl := Option.some.inj h
      exact ⟨a, List.getElem?_concat_length, by simp [ha]⟩
    · obtain ⟨b, hb, hlast⟩ := ih h
      obtain ⟨hn, -⟩ := List.getElem?_eq_some_iff.1 hb
      exact ⟨b, by rwa [List.getElem?_append_left hn], by simpa [ha] using hlast⟩

/-- Where no element repeats, the last place with a property is known by its element. -/
theorem lastIndex_eq_some_iff {l : List α} (hnodup : l.Nodup) {n : Nat} :
    lastIndex p l = some n ↔ ∃ a, l[n]? = some a ∧ (l.filter p).getLast? = some a := by
  refine ⟨exists_of_lastIndex p, ?_⟩
  rintro ⟨a, ha, hlast⟩
  cases hindex : lastIndex p l with
  | none =>
    rw [(lastIndex_eq_none_iff p).1 hindex] at hlast
    cases hlast
  | some m =>
    obtain ⟨b, hb, hlast'⟩ := exists_of_lastIndex p hindex
    obtain rfl : b = a := Option.some.inj (hlast'.symm.trans hlast)
    obtain ⟨hm, -⟩ := List.getElem?_eq_some_iff.1 hb
    rw [(List.getElem?_inj hm hnodup).1 (hb.trans ha.symm)]

/-- The last place of all has a property exactly if the last element has it. -/
theorem lastIndex_eq_last_iff {l : List α} :
    lastIndex p l = some (l.length - 1) ↔ ∃ a, l.getLast? = some a ∧ p a := by
  cases l using List.reverseRecOn with
  | nil => simp [lastIndex]
  | append_singleton l a =>
    rw [lastIndex_concat, List.getLast?_concat, List.length_append, List.length_singleton,
      Nat.add_sub_cancel]
    split_ifs with ha
    · simp [ha]
    · -- the other places come before
      have hne : lastIndex p l ≠ some l.length := by
        intro h
        obtain ⟨b, hb, -⟩ := exists_of_lastIndex p h
        simp at hb
      simp [ha, hne]

end LastIndex

/-! ## Searches and queries -/

variable {d : Document} {k : Keyword} {stage : Option Stage}

theorem ofKeyword_eq_filter (d : Document) (k : Keyword) (stage : Option Stage) :
    d.ofKeyword k stage =
      d.instructions.filter fun i => i.keyword == k && inStage stage i := by
  rw [ofKeyword, select, List.filter_filter]

theorem lastIndexOf_eq_none_iff : d.lastIndexOf k stage = none ↔ d.ofKeyword k stage = [] := by
  rw [lastIndexOf, lastIndex_eq_none_iff, ofKeyword_eq_filter]

/-- **The place of the last instruction with a keyword** in a stage is that of the last one that the
query finds. -/
theorem lastIndexOf_eq_some_iff {content : Text} (h : parse content = .ok d) {n : Nat} :
    d.lastIndexOf k stage = some n ↔
      ∃ i, d.instructions[n]? = some i ∧ (d.ofKeyword k stage).getLast? = some i := by
  have hnodup : d.instructions.Nodup := by
    have hlines : (d.instructions.map (·.line)).Nodup := (increasing_lines h).imp Nat.ne_of_lt
    exact hlines.of_map _
  rw [lastIndexOf, lastIndex_eq_some_iff _ hnodup, ofKeyword_eq_filter]

theorem ofKeyword_ne_nil_iff :
    d.ofKeyword k none ≠ [] ↔ ∃ i ∈ d.instructions, i.keyword = k := by
  rw [ne_eq, List.eq_nil_iff_forall_not_mem]
  simp only [mem_ofKeyword_iff, mem_select_none, not_forall, not_not]

theorem isSome_lastIndexOf_iff :
    (d.lastIndexOf k none).isSome ↔ ∃ i ∈ d.instructions, i.keyword = k := by
  rw [Option.isSome_iff_ne_none, ne_eq, lastIndexOf_eq_none_iff, ← ne_eq, ofKeyword_ne_nil_iff]

theorem lastIndexOf_eq_last_iff : d.lastIndexOf k none = some (d.instructions.length - 1) ↔
    ∃ i, d.instructions.getLast? = some i ∧ i.keyword = k := by
  rw [lastIndexOf, lastIndex_eq_last_iff]
  simp [inStage]

end Document

/-! ## The rules -/

/-- The instructions that say what a container runs. -/
def Instruction.IsCommand (i : Instruction) : Prop := i.keyword = .cmd ∨ i.keyword = .entrypoint

/-- The documents that begin with build arguments, or none, and then a `FROM`. -/
def Document.BeginsWithImage (d : Document) : Prop :=
  ∃ args image rest, d.instructions = args ++ image :: rest ∧ (∀ i ∈ args, i.keyword = .arg) ∧
    image.keyword = .fromImage

namespace General

variable {d : Document} {policy : Policy}

theorem imageIsPresent_eq_nil_iff : imageIsPresent ⟨d, none, policy⟩ = [] ↔
    ∃ i ∈ d.instructions, i.keyword = .fromImage := by
  rw [imageIsPresent, Finding.oneIf_eq_nil_iff, Document.firstOfKeyword, Option.isNone_eq_false_iff,
    List.isSome_head?, Document.ofKeyword_ne_nil_iff]

/-- A document with a command must end with one. -/
theorem commandIsLast_eq_nil_iff : commandIsLast ⟨d, none, policy⟩ = [] ↔
    ((∃ i ∈ d.instructions, i.IsCommand) →
      ∃ i, d.instructions.getLast? = some i ∧ i.IsCommand) := by
  rw [commandIsLast, Finding.oneIf_eq_nil_iff, ← Bool.not_eq_true]
  simp only [Bool.and_eq_true, Bool.or_eq_true, bne_iff_ne, ne_eq,
    Document.isSome_lastIndexOf_iff, Document.lastIndexOf_eq_last_iff, Instruction.IsCommand,
    and_or_left, exists_or]
  rw [and_assoc, ← not_or, not_and, not_not]

/-- The first instruction that is no build argument must be a `FROM`. -/
theorem imageComesFirst_eq_nil_iff : imageComesFirst ⟨d, none, policy⟩ = [] ↔
    ∀ i, d.instructions.find? (·.keyword != .arg) = some i → i.keyword = .fromImage := by
  have hselect : d.select none = d.instructions := by
    simp [Document.select, Document.inStage]
  simp only [imageComesFirst, hselect]
  cases d.instructions.find? (·.keyword != .arg) with
  | none => simp
  | some i => simp [Finding.oneIf_eq_nil_iff]

/-- The search goes on behind build arguments. -/
theorem find?_args_append {args : List Instruction} (h : ∀ i ∈ args, i.keyword = .arg)
    (rest : List Instruction) :
    (args ++ rest).find? (·.keyword != .arg) = rest.find? (·.keyword != .arg) := by
  have hnone : args.find? (·.keyword != .arg) = none := by
    rw [List.find?_eq_none]
    intro i hi
    simp [h i hi]
  rw [List.find?_append, hnone, Option.none_or]

/-- Before the first `FROM` there must be build arguments only. -/
theorem imageComesFirst_eq_nil_iff_front {front : List Instruction} {blocks : List Block}
    (h : d.Layout front blocks) :
    imageComesFirst ⟨d, none, policy⟩ = [] ↔ ∀ i ∈ front, i.keyword = .arg := by
  rw [imageComesFirst_eq_nil_iff, h.instructions]
  constructor
  · intro hfirst i hi
    rw [List.find?_append] at hfirst
    cases hfind : front.find? (·.keyword != .arg) with
    | none => simpa using List.find?_eq_none.1 hfind i hi
    | some j =>
      rw [hfind, Option.some_or] at hfirst
      exact absurd (hfirst j rfl) (h.keyword_front j (List.mem_of_find?_eq_some hfind))
  · intro hargs i hi
    rw [find?_args_append hargs] at hi
    cases blocks with
    | nil => cases hi
    | cons b blocks =>
      -- behind the front the first instruction is the `FROM` of the first block
      rw [List.flatMap_cons, Block.instructions, List.cons_append,
        List.find?_cons_of_pos (by simp [b.keyword_opening])] at hi
      obtain rfl := Option.some.inj hi
      exact b.keyword_opening

/-- The two rules about the first `FROM` together ask for build arguments and then a `FROM`. -/
theorem beginsWithImage_iff : d.BeginsWithImage ↔
    imageIsPresent ⟨d, none, policy⟩ = [] ∧ imageComesFirst ⟨d, none, policy⟩ = [] := by
  rw [imageIsPresent_eq_nil_iff, imageComesFirst_eq_nil_iff]
  constructor
  · rintro ⟨args, image, rest, heq, hargs, himage⟩
    refine ⟨⟨image, by simp [heq], himage⟩, ?_⟩
    intro i hi
    rw [heq, find?_args_append hargs, List.find?_cons_of_pos (by simp [himage])] at hi
    obtain rfl := Option.some.inj hi
    exact himage
  · rintro ⟨⟨image, hmem, himage⟩, hfirst⟩
    cases hfind : d.instructions.find? (·.keyword != .arg) with
    | none => simpa [himage] using List.find?_eq_none.1 hfind image hmem
    | some i =>
      obtain ⟨-, args, rest, heq, hargs⟩ := List.find?_eq_some_iff_append.1 hfind
      exact ⟨args, i, rest, heq, fun j hj => by simpa using hargs j hj, hfirst i hfind⟩

end General

/-! ## What is reported -/

/-- A rule is reported, at whatever lines. -/
def Report.Mentions (d : Document) (policy : Policy) (excluded : List Text) (name : String) : Prop :=
  ∃ x ∈ diagnostics d policy excluded, x.rule = name

/-- A general rule is reported exactly if it finds something. -/
theorem Report.mentions_iff {d : Document} {policy : Policy} {excluded : List Text} {r : Rule}
    (hr : r ∈ Group.general.listed) (hrun : r.name.toList ∉ excluded) :
    Mentions d policy excluded r.name ↔ r.check ⟨d, none, policy⟩ ≠ [] := by
  have hnil : (diagnostics d policy excluded).filter (·.rule = r.name) = [] ↔
      r.check ⟨d, none, policy⟩ = [] := by
    rw [filter_diagnostics_general hr hrun, List.map_eq_nil_iff]
  rw [ne_eq, ← hnil, List.filter_eq_nil_iff, Mentions]
  simp

namespace Document

/-- **The rules about order agree with the structure of a document.** The last place of a keyword in
a stage is that of the last instruction that the query for them finds, and there is none if the query
finds nothing. The rule about commands is reported if there is one and the final instruction is none.
The rule about the first `FROM` is reported if some instruction of stage -1 is no build argument, and
this rule and the one that asks for a `FROM` are both silent exactly about documents that begin
with build arguments and a `FROM`. -/
theorem order_rules {content : Text} {d : Document} (h : parse content = .ok d) (policy : Policy)
    {excluded : List Text} (hrun : ∀ name ∈ ["rule0_0", "rule1", "rule8"], name.toList ∉ excluded) :
    let mentions := Report.Mentions d policy excluded
    (∀ k stage n, d.lastIndexOf k stage = some n ↔
      ∃ i, d.instructions[n]? = some i ∧ (d.ofKeyword k stage).getLast? = some i) ∧
    (∀ k stage, d.lastIndexOf k stage = none ↔ d.ofKeyword k stage = []) ∧
    (mentions "rule8" ↔ (∃ i ∈ d.instructions, i.IsCommand) ∧
      ∃ i, d.instructions.getLast? = some i ∧ ¬ i.IsCommand) ∧
    (mentions "rule1" ↔ ∃ i ∈ d.instructions, i.stage = .numbered (-1) ∧ i.keyword ≠ .arg) ∧
    (¬ mentions "rule0_0" ∧ ¬ mentions "rule1" ↔ d.BeginsWithImage) := by
  intro mentions
  have hpresent : mentions "rule0_0" ↔ General.imageIsPresent ⟨d, none, policy⟩ ≠ [] :=
    Report.mentions_iff (Group.mem_listed "rule0_0" rfl) (hrun "rule0_0" (by simp))
  have hfirst : mentions "rule1" ↔ General.imageComesFirst ⟨d, none, policy⟩ ≠ [] :=
    Report.mentions_iff (Group.mem_listed "rule1" rfl) (hrun "rule1" (by simp))
  have hlast : mentions "rule8" ↔ General.commandIsLast ⟨d, none, policy⟩ ≠ [] :=
    Report.mentions_iff (Group.mem_listed "rule8" rfl) (hrun "rule8" (by simp))
  refine ⟨fun k stage n => lastIndexOf_eq_some_iff h, fun k stage => lastIndexOf_eq_none_iff,
    ?_, ?_, ?_⟩
  · rw [hlast, ne_eq, General.commandIsLast_eq_nil_iff, Classical.not_imp]
    -- with a command there is a final instruction
    refine and_congr_right ?_
    rintro ⟨i, hi, -⟩
    have hfinal := List.getLast?_eq_getLast_of_ne_nil (List.ne_nil_of_mem hi)
    simp [hfinal]
  · obtain ⟨front, blocks, hlayout⟩ := exists_layout h
    rw [hfirst, ne_eq, General.imageComesFirst_eq_nil_iff_front hlayout,
      ← hlayout.select_beforeFirst]
    simp [select, inStage, Stage.beforeFirst]
  · rw [hpresent, hfirst, General.beginsWithImage_iff, not_not, not_not]

/-- A command that an instruction follows, behind a build argument and a `FROM`. -/
theorem order_rules_command :
    ∃ d, parse "ARG a\nFROM b\nCMD c\nRUN d\n".toList = .ok d ∧
      (∃ i, d.instructions[2]? = some i ∧ (d.ofKeyword .cmd none).getLast? = some i) ∧
      Report.Mentions d {} [] "rule8" ∧
      (¬ Report.Mentions d {} [] "rule0_0" ∧ ¬ Report.Mentions d {} [] "rule1") := by
  have hparse : (parse "ARG a\nFROM b\nCMD c\nRUN d\n".toList).map
      (fun d => (d.instructions.map (·.keyword), d.lastIndexOf .cmd none)) =
        .ok ([.arg, .fromImage, .cmd, .run], some 2) := by
    cbv
  obtain ⟨d, hd, hpair⟩ := exists_of_map_eq_ok hparse
  obtain ⟨hkeywords, hindex⟩ := Prod.mk.inj hpair
  -- the four instructions and their keywords
  obtain ⟨arg, _, heq, harg, hkeywords⟩ := List.map_eq_cons_iff.1 hkeywords
  obtain ⟨image, _, rfl, himage, hkeywords⟩ := List.map_eq_cons_iff.1 hkeywords
  obtain ⟨cmd, _, rfl, hcmd, hkeywords⟩ := List.map_eq_cons_iff.1 hkeywords
  obtain ⟨run, _, rfl, hrun, hkeywords⟩ := List.map_eq_cons_iff.1 hkeywords
  obtain rfl := List.map_eq_nil_iff.1 hkeywords
  obtain ⟨hlast, -, hcommand, -, hbegins⟩ := order_rules hd {} (fun _ _ => List.not_mem_nil)
  refine ⟨d, hd, (hlast _ _ _).1 hindex, hcommand.2 ⟨⟨cmd, ?_, .inl hcmd⟩, run, ?_, ?_⟩, hbegins.2 ?_⟩
  · simp [heq]
  · simp [heq]
  · simp [Instruction.IsCommand, hrun]
  · exact ⟨[arg], image, [cmd, run], heq, by simpa using harg, himage⟩

end Document

end Dockerlint
