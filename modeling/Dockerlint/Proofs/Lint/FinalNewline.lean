import Mathlib
import Dockerlint.Proofs.Document.Append
import Dockerlint.Proofs.Line.Runs
import Dockerlint.Proofs.Lint.Findings

/-!
# The end of a document

One rule asks for exactly one newline at the end. It sees a document as its physical lines, and these
do not tell whether the last line had an ending. Behind the last character that is not blank, the line
feeds close the line of that character first and then blank lines, so there are as many blank lines at
the end as line feeds there, not counting the last character. The rule objects if there are two or
more. It is silent where the final newline is missing, and also where one blank line follows.

## Main definitions

* `Text.ending`: the blanks that a text ends with
* `Text.EndsInOneNewline`: a text ends in one newline and no more

## Main results

* `Text.length_lines`: how many lines a text has
* `Text.exists_lines_ending`: the blank lines at the end of a text
* `Document.check_ending`: when the rule objects, and when this is right
-/

namespace Dockerlint

namespace Text

/-- The blanks that a text ends with. -/
def ending (t : Text) : Text := t.rtakeWhile isBlank

example : ending "a\n b \n\t".toList = " \n\t".toList := by decide

/-- The texts whose last character is a line feed, with no other line feed behind the last character
that is not blank. -/
def EndsInOneNewline (t : Text) : Prop :=
  t.getLast? = some '\n' ∧ (ending t).count '\n' ≤ 1

instance decidableEndsInOneNewline : DecidablePred EndsInOneNewline := fun t =>
  inferInstanceAs (Decidable (t.getLast? = some '\n' ∧ (ending t).count '\n' ≤ 1))

theorem trimRight_append_ending (t : Text) : trimRight t ++ ending t = t := by
  rw [trimRight, ending, List.rtakeWhile, ← List.reverse_append, List.takeWhile_append_dropWhile,
    List.reverse_reverse]

theorem isBlank_of_mem_ending {t : Text} {c : Char} (h : c ∈ ending t) : isBlank c :=
  List.mem_rtakeWhile_imp h

/-! ## Lines -/

/-- **How many lines a text has.** Every line feed ends a line, and the last character belongs to the
last line whether it is a line feed or not. -/
theorem length_lines {t : Text} (hne : t ≠ []) (hr : '\r' ∉ t) :
    (lines t).length = t.dropLast.count '\n' + 1 := by
  induction t with
  | nil => exact absurd rfl hne
  | cons c t ih =>
    obtain ⟨hc, ht⟩ := List.ne_and_not_mem_of_not_mem_cons hr
    by_cases hnil : t = []
    · subst hnil
      by_cases hn : c = '\n'
      · subst hn
        rfl
      · rw [lines_eq_singleton (List.cons_ne_nil c []) (by simpa using Ne.symm hn)]
        rfl
    · rw [List.dropLast_cons_of_ne_nil hnil]
      by_cases hn : c = '\n'
      · subst hn
        rw [lines, List.length_cons, ih hnil ht, List.count_cons_self]
      · rw [lines_cons t hn fun h => absurd h (Ne.symm hc), List.count_cons_of_ne hn, ← ih hnil ht]
        obtain ⟨line, others, hlines⟩ := List.exists_cons_of_ne_nil (lines_ne_nil hnil)
        rw [hlines]
        rfl

/-- A text is cut behind its last line feed. -/
theorem exists_lastLine (t : Text) : ∃ front tail, t = front ++ tail ∧
    (front = [] ∨ front.getLast? = some '\n') ∧ '\n' ∉ tail := by
  induction t using List.reverseRecOn with
  | nil => exact ⟨[], [], rfl, .inl rfl, List.not_mem_nil⟩
  | append_singleton t c ih =>
    by_cases hc : c = '\n'
    · refine ⟨t ++ [c], [], (List.append_nil _).symm, .inr ?_, List.not_mem_nil⟩
      rw [List.getLast?_concat, hc]
    · obtain ⟨front, tail, rfl, hfront, htail⟩ := ih
      refine ⟨front, tail ++ [c], List.append_assoc .., hfront, ?_⟩
      simpa [htail] using Ne.symm hc

/-- A line between a line feed before it, or the beginning, and one behind it, or the end. -/
theorem lines_append_line {front line rest : Text} (hfront : front = [] ∨ front.getLast? = some '\n')
    (hne : line ≠ []) (hn : '\n' ∉ line) (hr : '\r' ∉ line)
    (hrest : rest = [] ∨ rest.head? = some '\n') :
    lines (front ++ (line ++ rest)) = lines front ++ line :: lines rest.tail := by
  rw [lines_append hfront]
  rcases hrest with rfl | hrest
  · rw [List.append_nil, lines_eq_singleton hne hn]
    rfl
  · obtain ⟨rest, rfl⟩ := List.head?_eq_some_iff.1 hrest
    rw [lines_append_newline hn fun hlast => hr (List.mem_of_getLast? hlast)]
    rfl

/-- The first line feed behind a run closes its line, and the others but for a last character make
lines of their own. -/
theorem count_dropLast_append {run rest : Text} (hrun : '\n' ∉ run) (hr : '\r' ∉ rest)
    (hrest : rest = [] ∨ rest.head? = some '\n') :
    (run ++ rest).dropLast.count '\n' = (lines rest.tail).length := by
  rcases hrest with rfl | hrest
  · rw [List.append_nil, List.count_eq_zero.2 fun h => hrun (List.dropLast_subset _ h)]
    rfl
  obtain ⟨rest, rfl⟩ := List.head?_eq_some_iff.1 hrest
  rw [List.tail_cons]
  by_cases hnil : rest = []
  · rw [hnil, List.dropLast_concat, List.count_eq_zero.2 hrun]
    rfl
  · have hreturn : '\r' ∉ rest := fun h => hr (List.mem_cons_of_mem _ h)
    rw [length_lines hnil hreturn, List.dropLast_append_cons, List.dropLast_cons_of_ne_nil hnil,
      List.count_append, List.count_eq_zero.2 hrun, List.count_cons_self, Nat.zero_add]

/-- **The blank lines at the end of a text** are as many as the line feeds behind its last character
that is not blank, its last character apart. -/
theorem exists_lines_ending {t : Text} (hr : '\r' ∉ t) (hne : trimRight t ≠ []) :
    ∃ before line closing, lines t = before ++ line :: closing ∧ trim line ≠ [] ∧
      (∀ l ∈ closing, trim l = []) ∧ closing.length = (ending t).dropLast.count '\n' := by
  -- the last character that is not blank, and the beginning of its line
  obtain hnil | ⟨body, c, hbody⟩ := List.eq_nil_or_concat (trimRight t)
  · exact absurd hnil hne
  rw [List.concat_eq_append] at hbody
  have hc : isBlank c = false :=
    isBlank_of_getLast?_trimRight (t := t) (by rw [hbody, List.getLast?_concat])
  obtain ⟨front, tail, rfl, hfront, htail⟩ := exists_lastLine body
  -- the rest of the line, and the text from its line feed on
  obtain ⟨run, rest, hending, hrun, hrest⟩ : ∃ run rest, ending t = run ++ rest ∧
      '\n' ∉ run ∧ (rest = [] ∨ rest.head? = some '\n') := by
    by_cases hmem : '\n' ∈ ending t
    · obtain ⟨run, blanks, hcut, hrun⟩ := List.eq_append_cons_of_mem hmem
      exact ⟨run, '\n' :: blanks, hcut, hrun, .inr rfl⟩
    · exact ⟨ending t, [], (List.append_nil _).symm, hmem, .inl rfl⟩
  have hcut : t = front ++ ((tail ++ c :: run) ++ rest) := by
    rw [← trimRight_append_ending t, hbody, hending]
    simp
  have hreturn : '\r' ∉ (tail ++ c :: run) ++ rest := by
    rw [hcut] at hr
    exact fun h => hr (List.mem_append_right _ h)
  have hline : '\n' ∉ tail ++ c :: run := by
    have hne : '\n' ≠ c := by
      rintro rfl
      cases hc
    simp [htail, hrun, hne]
  refine ⟨lines front, tail ++ c :: run, lines rest.tail, ?_, ?_, ?_, ?_⟩
  · nth_rewrite 1 [hcut]
    apply lines_append_line hfront (by simp) hline _ hrest
    exact fun h => hreturn (List.mem_append_left _ h)
  · intro hblank
    rw [trim_eq_nil_iff.1 hblank c (by simp)] at hc
    cases hc
  · intro l hl
    rw [trim_eq_nil_iff]
    intro d hd
    apply isBlank_of_mem_ending (t := t)
    rw [hending]
    exact List.mem_append_right _ (List.mem_of_mem_tail (mem_of_mem_lines hl hd).1)
  · rw [hending]
    exact (count_dropLast_append hrun (fun h => hreturn (List.mem_append_right _ h)) hrest).symm

end Text

/-! ## The rule -/

/-- The rule about the last lines counts the blank lines at the end. -/
theorem General.oneFinalNewline_eq {c : Context} {before closing : List Text} {line : Text}
    (hlines : c.document.physicalLines = before ++ line :: closing) (hline : Text.trim line ≠ [])
    (hclosing : ∀ l ∈ closing, Text.trim l = []) :
    oneFinalNewline c = if 2 ≤ closing.length then [{}] else [] := by
  rw [oneFinalNewline, hlines, List.reverse_append, List.reverse_cons, List.append_assoc,
    List.singleton_append]
  obtain ⟨rows, rfl⟩ : ∃ rows : List Text, closing = rows.reverse :=
    ⟨_, (List.reverse_reverse _).symm⟩
  rw [List.reverse_reverse, List.length_reverse]
  -- the last two lines are blank exactly if both of them are among the closing ones
  rcases rows with _ | ⟨last, _ | ⟨previous, rows⟩⟩
  · cases before.reverse with
    | nil => rfl
    | cons previous others => simp [Finding.oneIf, hline]
  · simp [Finding.oneIf, hline]
  · have hlast : Text.trim last = [] := hclosing last (by simp)
    have hprevious : Text.trim previous = [] := hclosing previous (by simp)
    simp [Finding.oneIf, hlast, hprevious]

/-- The rule about the end of a document, as it is listed. -/
def General.endingRule : Rule :=
  ⟨"rule15", "exactly one newline at the end", .warning, oneFinalNewline⟩

theorem General.filter_check_ending (d : Document) (policy : Policy) {excluded : List Text}
    (hrun : "rule15".toList ∉ excluded) :
    (Group.general.check d policy excluded).filter (·.rule = "rule15") =
      (oneFinalNewline ⟨d, none, policy⟩).map endingRule.diagnostic :=
  Group.filter_check_general (r := endingRule) d policy (Group.mem_listed "rule15" rfl) hrun

namespace Document

variable {content : Text} {d : Document}

/-- A document with an instruction is not blank. -/
theorem trimRight_ne_nil (h : parse content = .ok d) (hne : d.instructions ≠ []) :
    Text.trimRight content ≠ [] := by
  obtain ⟨ls, is, hls, his, rfl⟩ := parse_eq_ok_iff.1 h
  obtain ⟨i, hi⟩ := List.exists_mem_of_ne_nil _ hne
  obtain ⟨j, hj, -⟩ := Stage.exists_of_mem_assign hi
  obtain ⟨l, hl, -⟩ := LogicalLine.exists_of_mem_instructions his j hj
  -- the logical line of an instruction has a physical line that was kept
  obtain ⟨runs, hruns, rfl⟩ := LogicalLine.exists_runs_of_extract hls
  obtain ⟨r, hr, -⟩ := List.mem_map.1 hl
  have hkept : r.last ∈ Line.kept 1 (Text.lines content) := by
    rw [hruns]
    exact List.mem_flatMap.2 ⟨r, hr, by simp [Line.Run.lines]⟩
  obtain ⟨hline, -, -, hdiscarded⟩ := Line.mem_kept hkept
  intro hblank
  have hall : ∀ c ∈ content, isBlank c := List.rdropWhile_eq_nil_iff.1 hblank
  have hnil : Text.trimLeft r.last.1 = [] :=
    Text.trimLeft_eq_nil_iff.2 fun c hc => hall c (Text.mem_of_mem_lines hline hc).1
  rw [Line.isDiscarded, hnil] at hdiscarded
  cases hdiscarded

/-- **When the rule about the end of a document objects.** In a document without carriage returns
that has an instruction, it objects once, and to no line, if there are two or more line feeds behind
the last character that is not blank, the last character of the document apart. So it is right about
a text that ends in one newline, to which it never objects, and about a text that does not, exactly if
it has two or more such line feeds. -/
theorem check_ending (h : parse content = .ok d) (hr : '\r' ∉ content)
    (hne : d.instructions ≠ []) (policy : Policy) {excluded : List Text}
    (hrun : "rule15".toList ∉ excluded) :
    let found := (Group.general.check d policy excluded).filter (·.rule = "rule15")
    let objection : Diagnostic := ⟨"rule15", "exactly one newline at the end", .warning, none⟩
    let closing := (Text.ending content).dropLast.count '\n'
    (found = if 2 ≤ closing then [objection] else []) ∧
    ((found = if Text.EndsInOneNewline content then [] else [objection]) ↔
      Text.EndsInOneNewline content ∨ 2 ≤ closing) := by
  intro found objection closing
  have hcheck : found = _ := General.filter_check_ending d policy hrun
  obtain ⟨before, line, blank, hlines, hline, hblank, hlength⟩ :=
    Text.exists_lines_ending hr (trimRight_ne_nil h hne)
  have hphysical : d.physicalLines = before ++ line :: blank := by
    obtain ⟨ls, is, -, -, rfl⟩ := parse_eq_ok_iff.1 h
    exact hlines
  have hfound : found = if 2 ≤ closing then [objection] else [] := by
    rw [hcheck, General.oneFinalNewline_eq hphysical hline hblank, hlength]
    split
    · rfl
    · rfl
  refine ⟨hfound, ?_⟩
  rw [hfound]
  by_cases hone : Text.EndsInOneNewline content
  · -- there is at most one line feed, so there are not two without the last character
    have hfew : ¬ 2 ≤ closing := by
      have hle : closing ≤ (Text.ending content).count '\n' :=
        (List.dropLast_sublist _).count_le _
      have hcount := hone.2
      omega
    rw [if_neg hfew, if_pos hone]
    exact iff_of_true rfl (.inl hone)
  · rw [if_neg hone, or_iff_right hone]
    split
    · next hmany => exact iff_of_true rfl hmany
    · next hfew => exact iff_of_false nofun hfew

/-- Two blank lines at the end, the first with a blank. -/
theorem check_ending_blankLines :
    ∃ d, parse "FROM a\n \n\n".toList = .ok d ∧
      (Group.general.check d {} []).filter (·.rule = "rule15") =
        [⟨"rule15", "exactly one newline at the end", .warning, none⟩] := by
  have hparse : (parse "FROM a\n \n\n".toList).map (·.instructions.length) = .ok 1 := by cbv
  obtain ⟨d, hd, hlength⟩ := exists_of_map_eq_ok hparse
  have hne : d.instructions ≠ [] := by
    rintro hnil
    rw [hnil] at hlength
    cases hlength
  exact ⟨d, hd, (check_ending hd (by decide) hne {} List.not_mem_nil).1⟩

/-- A document of one instruction whose lines the rule finds nothing in. -/
theorem exists_silent (hparse : (parse content).map (fun d =>
      (d.instructions.length, General.oneFinalNewline ⟨d, none, {}⟩)) = .ok (1, [])) :
    ∃ d, parse content = .ok d ∧ d.instructions ≠ [] ∧
      (Group.general.check d {} []).filter (·.rule = "rule15") = [] := by
  obtain ⟨d, hd, hpair⟩ := exists_of_map_eq_ok hparse
  obtain ⟨hlength, hsilent⟩ := Prod.mk.inj hpair
  refine ⟨d, hd, ?_, ?_⟩
  · intro hnil
    rw [hnil] at hlength
    cases hlength
  · rw [General.filter_check_ending d {} List.not_mem_nil, hsilent, List.map_nil]

/-- The rule is silent about a text that ends in two newlines and about a text without any. -/
theorem check_ending_silent :
    (¬ Text.EndsInOneNewline "FROM r/u/cc:1\n\n".toList ∧
      ∃ d, parse "FROM r/u/cc:1\n\n".toList = .ok d ∧ d.instructions ≠ [] ∧
        (Group.general.check d {} []).filter (·.rule = "rule15") = []) ∧
    ¬ Text.EndsInOneNewline "FROM r/u/cc:1".toList ∧
      ∃ d, parse "FROM r/u/cc:1".toList = .ok d ∧ d.instructions ≠ [] ∧
        (Group.general.check d {} []).filter (·.rule = "rule15") = [] := by
  refine ⟨⟨by decide, exists_silent ?_⟩, by decide, exists_silent ?_⟩
  · cbv
  · cbv

end Document

end Dockerlint
