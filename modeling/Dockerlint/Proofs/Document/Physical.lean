import Dockerlint.Lint.Report
import Dockerlint.Proofs.Document.Append

/-!
# Physical lines that make no difference

A document is read from the physical lines of its text, and its instructions from the kept lines
among them. So how the lines end makes no difference at all, and a line that is discarded makes a
difference only to the numbers of the lines behind it, wherever it stands: between instructions,
inside a continuation, or at the end of the text.

## Main definitions

* `Text.withReturns`: a text with carriage returns in front of some of its line feeds
* `Line.afterInsertion`: the number of a line when another one is inserted
* `Document.relined`: a document whose instructions are on other lines

## Main results

* `Text.lines_withReturns`: both endings give the same lines
* `Document.parse_withReturns`: endings make no difference
* `Line.kept_insert`: a discarded line raises the numbers behind it
* `Document.parse_of_kept`: the same kept lines with other numbers
* `Document.parse_insert`: discarded lines make no difference but to numbers
-/

namespace Dockerlint

/-! ## Line endings -/

/-- The text with a carriage return in front of the line feeds that are `chosen`, counted from
0. -/
def Text.withReturns (chosen : Nat → Bool) : Text → Text
  | [] => []
  | c :: rest =>
    if c = '\n' then
      let behind := '\n' :: withReturns (fun i => chosen (i + 1)) rest
      if chosen 0 then '\r' :: behind else behind
    else c :: withReturns chosen rest

example : Text.withReturns (· ≠ 1) "a\n\nb\n".toList = "a\r\n\nb\r\n".toList := by decide

/-- **Both endings give the same lines.** The text itself must have no carriage return: one at the
end of a line would become a part of the ending, or stand in front of one. -/
theorem Text.lines_withReturns {t : Text} (h : '\r' ∉ t) (chosen : Nat → Bool) :
    lines (withReturns chosen t) = lines t := by
  induction t generalizing chosen with
  | nil => rfl
  | cons c t ih =>
    obtain ⟨hc, ht⟩ := List.ne_and_not_mem_of_not_mem_cons h
    rw [withReturns]
    split
    · next hn =>
      subst hn
      cases chosen 0 with
      | true => exact congrArg ([] :: ·) (ih ht _)
      | false => exact congrArg ([] :: ·) (ih ht _)
    · next hn =>
      have hr : ∀ s : Text, c = '\r' → s.head? ≠ some '\n' := fun s hcr => absurd hcr.symm hc
      rw [lines_cons _ hn (hr _), lines_cons t hn (hr t), ih ht]

namespace Document

theorem parse_eq_of_lines {s t : Text} (h : Text.lines s = Text.lines t) : parse s = parse t := by
  rw [parse, parse, LogicalLine.extract, LogicalLine.extract, h]

/-- **Line endings make no difference.** Whichever line feeds of a text without carriage returns get
one in front of them, the text is read as the same document, physical lines included, or with the
same error on the same line. So every report of it is the same, and every lint run. -/
theorem parse_withReturns {content : Text} (h : '\r' ∉ content) (chosen : Nat → Bool) :
    parse (Text.withReturns chosen content) = parse content ∧
    ∀ settings policy,
      (parse (Text.withReturns chosen content)).map (Report.ofDocument · settings policy) =
        (parse content).map (Report.ofDocument · settings policy) ∧
      (parse (Text.withReturns chosen content)).bind (lint · settings policy) =
        (parse content).bind (lint · settings policy) := by
  have hparse := parse_eq_of_lines (Text.lines_withReturns h chosen)
  refine ⟨hparse, fun settings policy => ?_⟩
  rw [hparse]
  exact ⟨rfl, rfl⟩

/-- A continuation, an empty line and no line feed at the end. -/
theorem parse_withReturns_mixed :
    '\r' ∉ "FROM a\nRUN b \\\n c\n\nCMD d".toList ∧
      parse "FROM a\r\nRUN b \\\r\n c\n\r\nCMD d".toList =
        parse "FROM a\nRUN b \\\n c\n\nCMD d".toList := by
  have hreturn : '\r' ∉ "FROM a\nRUN b \\\n c\n\nCMD d".toList := by decide
  exact ⟨hreturn, (parse_withReturns hreturn (· ≠ 2)).1⟩

end Document

/-! ## Discarded lines -/

namespace Line

theorem isDiscarded_iff {line : Text} : isDiscarded line ↔
    (∀ c ∈ line, isBlank c) ∨ (Text.trimLeft line).head? = some '#' := by
  have hblank : (∀ c ∈ line, isBlank c) ↔ Text.trimLeft line = [] :=
    List.dropWhile_eq_nil_iff.symm
  rw [isDiscarded, hblank]
  cases Text.trimLeft line with
  | nil => simp
  | cons c rest => simp

/-- A carriage return at the end decides nothing. -/
theorem isDiscarded_of_append_return {line : Text} (h : isDiscarded (line ++ ['\r'])) :
    isDiscarded line := by
  rw [isDiscarded_iff] at h ⊢
  refine h.imp (fun hblank c hc => hblank c (List.mem_append_left _ hc)) fun hcomment => ?_
  rw [Text.trimLeft, List.dropWhile_append] at hcomment
  split at hcomment
  · exact absurd hcomment (by decide)
  · next hne =>
    rw [List.head?_append_of_ne_nil _ (by simpa using hne)] at hcomment
    exact hcomment

/-- The number of a line when another line is inserted behind the first `n` lines. -/
def afterInsertion (n line : Nat) : Nat := if n < line then line + 1 else line

/-- **A discarded line raises the numbers of the kept lines behind it**, and changes nothing else
about them. -/
theorem kept_insert {line : Text} (h : isDiscarded line) (before behind : List Text) :
    kept 1 (before ++ line :: behind) =
      (kept 1 (before ++ behind)).map (Prod.map id (afterInsertion before.length)) := by
  have hbefore : (kept 1 before).map (Prod.map id (afterInsertion before.length)) =
      kept 1 before := by
    refine (List.map_congr_left (g := id) fun k hk => ?_).trans (List.map_id _)
    obtain ⟨-, -, hhigh, -⟩ := mem_kept hk
    have hle : ¬ before.length < k.2 := by omega
    rw [Prod.map_apply, afterInsertion, if_neg hle]
    rfl
  have hbehind : (kept (1 + before.length) behind).map
      (Prod.map id (afterInsertion before.length)) = kept (1 + before.length + 1) behind := by
    rw [kept_add _ 1]
    refine List.map_congr_left fun k hk => ?_
    obtain ⟨-, hlow, -, -⟩ := mem_kept hk
    have hlt : before.length < k.2 := by omega
    rw [Prod.map_apply, Prod.map_apply, afterInsertion, if_pos hlt]
  rw [kept_append, kept_append, kept_cons, if_pos h, List.map_append, hbefore, hbehind]

end Line

namespace Document

/-- A document with given physical lines, whose instructions are on other lines. -/
def relined (f : Nat → Nat) (physicalLines : List Text) (d : Document) : Document :=
  { d with
    physicalLines
    logicalLines := d.logicalLines.map (LogicalLine.relined f)
    instructions := d.instructions.map (Instruction.relined f) }

/-- **A document depends on its kept lines**: the same lines with other numbers are read as the same
document on other lines, or with the same error on another line. -/
theorem parse_of_kept {f : Nat → Nat} {s t : Text}
    (h : Line.kept 1 (Text.lines t) = (Line.kept 1 (Text.lines s)).map (Prod.map id f)) :
    parse t = ((parse s).map (relined f (Text.lines t))).mapError (Error.relined f) := by
  have hextract := LogicalLine.assemble_of_kept h none
  rw [Option.map_none, ← LogicalLine.extract, ← LogicalLine.extract] at hextract
  rw [parse, parse, hextract]
  cases LogicalLine.extract s with
  | error e => rfl
  | ok ls =>
    have hinstructions := LogicalLine.instructions_relined f ls
    simp only [Except.map, Except.mapError] at hinstructions ⊢
    rw [hinstructions]
    cases LogicalLine.instructions ls with
    | error e => rfl
    | ok is =>
      simp only [relined, Stage.assign_relined]

/-- **Discarded lines make no difference but to numbers.** Let a line that is blank or a comment be
inserted into a text at the beginning of a line, also inside a continuation or at the end of the
text. An error stays the same, and a document keeps its instructions, all but for the numbers of the
lines behind the insertion, which are raised by 1. -/
theorem parse_insert {before line : Text} (hbefore : before = [] ∨ before.getLast? = some '\n')
    (hline : '\n' ∉ line)
    (hdiscarded : (∀ c ∈ line, isBlank c) ∨ (Text.trimLeft line).head? = some '#')
    (behind : Text) :
    (∀ e, parse (before ++ behind) = .error e →
      parse (before ++ (line ++ '\n' :: behind)) =
        .error (e.relined (Line.afterInsertion (Text.lines before).length))) ∧
    ∀ d, parse (before ++ behind) = .ok d →
      ∃ d', parse (before ++ (line ++ '\n' :: behind)) = .ok d' ∧
        d'.instructions = d.instructions.map
          (Instruction.relined (Line.afterInsertion (Text.lines before).length)) ∧
        d'.instructions.map (·.isValid) = d.instructions.map (·.isValid) := by
  obtain ⟨l, hlines, hl⟩ := Text.exists_lines_append_newline hline behind
  have hl : Line.isDiscarded l := by
    have hline := Line.isDiscarded_iff.2 hdiscarded
    rcases hl with rfl | rfl
    · exact hline
    · exact Line.isDiscarded_of_append_return hline
  have hkept : Line.kept 1 (Text.lines (before ++ (line ++ '\n' :: behind))) =
      (Line.kept 1 (Text.lines (before ++ behind))).map
        (Prod.map id (Line.afterInsertion (Text.lines before).length)) := by
    rw [Text.lines_append hbefore, Text.lines_append hbefore, hlines]
    exact Line.kept_insert hl (Text.lines before) (Text.lines behind)
  rw [parse_of_kept hkept]
  refine ⟨fun e he => ?_, fun d hd => ?_⟩
  · rw [he]
    rfl
  · rw [hd]
    refine ⟨_, rfl, rfl, ?_⟩
    rw [relined, List.map_map]
    exact List.map_congr_left fun i hi => (parsed_of_mem hd i hi).isValid_relined _

/-- A comment that ends in a backslash, inside a continuation: an instruction goes on behind it, or
an error is found there, or there is nothing behind it and the continuation is open where it was. -/
theorem parse_insert_continued :
    '\n' ∉ " # c \\".toList ∧ (Text.trimLeft " # c \\".toList).head? = some '#' ∧
      (∃ d, parse ("FROM a\nRUN b \\\n".toList ++ (" # c \\".toList ++
          '\n' :: "d\nCMD e\n".toList)) = .ok d ∧
        d.instructions.map (fun i => (i.keyword, i.argument, i.line)) =
          [(.fromImage, "a".toList, 1), (.run, "b d".toList, 4), (.cmd, "e".toList, 5)]) ∧
      parse ("FROM a\nRUN b \\\n".toList ++ (" # c \\".toList ++ '\n' :: "d\nEXIT\n".toList)) =
        .error (.unknownInstruction "EXIT".toList 5) ∧
      parse ("FROM a\nRUN b \\\n".toList ++ (" # c \\".toList ++ '\n' :: [])) =
        .error (.openContinuation 2) := by
  have hline : '\n' ∉ " # c \\".toList := by decide
  have hcomment : (Text.trimLeft " # c \\".toList).head? = some '#' := by decide
  have hparse : (parse ("FROM a\nRUN b \\\n".toList ++ "d\nCMD e\n".toList)).map
      (fun d => d.instructions.map fun i => (i.keyword, i.argument, i.line)) =
        .ok [(.fromImage, "a".toList, 1), (.run, "b d".toList, 3), (.cmd, "e".toList, 4)] := by
    cbv
  have herror : parse ("FROM a\nRUN b \\\n".toList ++ "d\nEXIT\n".toList) =
      .error (.unknownInstruction "EXIT".toList 4) := by
    cbv
  have hopen : parse ("FROM a\nRUN b \\\n".toList ++ []) = .error (.openContinuation 2) := by
    cbv
  have hbefore : "FROM a\nRUN b \\\n".toList.getLast? = some '\n' := by decide
  have hinsert := parse_insert (.inr hbefore) hline (.inr hcomment)
  refine ⟨hline, hcomment, ?_, (hinsert _).1 _ herror, (hinsert _).1 _ hopen⟩
  obtain ⟨d, hd, hvalue⟩ := exists_of_map_eq_ok hparse
  obtain ⟨d', hd', hsame, -⟩ := (hinsert _).2 d hd
  refine ⟨d', hd', ?_⟩
  have hraised := congrArg (List.map fun p => (p.1, p.2.1, Line.afterInsertion 2 p.2.2)) hvalue
  rw [List.map_map] at hraised
  rw [hsame, List.map_map]
  exact hraised

end Document

end Dockerlint
