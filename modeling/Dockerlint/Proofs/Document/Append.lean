import Mathlib
import Dockerlint.Proofs.Document.Blocks
import Dockerlint.Proofs.Line.Kept
import Dockerlint.Proofs.Text

/-!
# Documents one behind the other

A text that ends in a line feed can be read before the text behind it. Three loops carry something
from line to line: physical lines are numbered, a continuation may be open, and stages are counted.
If the first text is a document, nothing is open behind it. Then the second text is read as it is
alone, with its line numbers raised by the lines of the first and its stages counted on: what stands
before its first `FROM` belongs to the last stage of the first document. An error of the second text
is the error of both, at its place.

Each loop is treated alike: what it gives for two pieces put together, and what it gives when it
starts from another number. Line numbers are handed on, whatever they are; stages are counted.

## Main definitions

* `Instruction.relined`: an instruction on another line
* `Stage.rebase`: a stage of a document that is read behind another

## Main results

* `LogicalLine.assemble_append`, `LogicalLine.extract_append`: logical lines
* `LogicalLine.instructions_append`, `LogicalLine.instructions_relined`: instructions
* `Stage.assign_append`, `Stage.assign_rebase`: stages
* `Document.parse_append`: documents
-/

namespace Dockerlint

/-! ## Instructions on other lines -/

namespace Instruction

/-- The instruction on another line, which the wording of its syntax errors names. -/
def relined (f : Nat → Nat) (i : Instruction) : Instruction :=
  { i with
    line := f i.line
    syntaxErrors := (readArgument i.keyword i.argument (f i.line)).2 }

/-- The line has no part in the arguments, nor in whether there are any. -/
theorem readArgument_line (k : Keyword) (argument : Text) (m n : Nat) :
    (readArgument k argument m).1 = (readArgument k argument n).1 ∧
      (readArgument k argument m).2.isEmpty = (readArgument k argument n).2.isEmpty := by
  unfold readArgument
  split
  · exact ⟨rfl, rfl⟩
  · exact ⟨rfl, by rw [List.isEmpty_cons, List.isEmpty_cons]⟩

theorem relined_parse (f : Nat → Nat) (k : Keyword) (argument : Text) (n : Nat) :
    (parse k argument n).relined f = parse k argument (f n) := by
  simp only [parse, relined, (readArgument_line k argument n (f n)).1]

section Parsed

variable {i : Instruction} (h : i.Parsed) (f : Nat → Nat)
include h

/-- On another line, an instruction is read again. -/
theorem Parsed.relined_eq :
    i.relined f = { parse i.keyword i.argument (f i.line) with stage := i.stage } := by
  have hrelined := congrArg (fun j => { relined f j with stage := i.stage }) h
  exact hrelined.trans (congrArg (fun j => { j with stage := i.stage })
    (relined_parse f i.keyword i.argument i.line))

theorem Parsed.isValid_relined : (i.relined f).isValid = i.isValid := by
  rw [h.relined_eq, h]
  exact (readArgument_line i.keyword i.argument (f i.line) i.line).2

end Parsed

end Instruction

/-- A stage of a document that is read behind another, which has `count` stages and ends in the
stage `last`. -/
def Stage.rebase (s last : Stage) (count : Nat) : Stage :=
  match s with
  | .numbered ordinal => if ordinal = -1 then last else .numbered (ordinal + count)
  | .named name => .named name

namespace LogicalLine

/-! ## Logical lines -/

/-- Behind lines that leave nothing open, assembling begins anew. -/
theorem assemble_append {pending : Option Pending} {n : Nat} {lines : List Text}
    {ls : List LogicalLine} (h : assemble pending n lines = .ok ls) (others : List Text) :
    assemble pending n (lines ++ others) =
      (assemble none (n + lines.length) others).map (ls ++ ·) := by
  -- the number and what is open vary along the lines
  induction lines generalizing pending n ls with
  | nil =>
    cases pending with
    | some waiting => cases h
    | none =>
      obtain rfl := Except.ok.inj h
      cases hrest : assemble none n others <;> simp [hrest, Except.map]
  | cons line lines ih =>
    have hnumber : n + (line :: lines).length = (n + 1) + lines.length := by
      rw [List.length_cons]
      omega
    -- a step goes on with the rest, or it puts a line in front of what the rest gives
    rw [assemble] at h
    rw [List.cons_append, assemble, hnumber]
    split
    · next hline =>
      rw [if_pos hline] at h
      exact ih h
    · next hline =>
      rw [if_neg hline] at h
      simp only at h ⊢
      split
      · next hcontinues =>
        rw [if_pos hcontinues] at h
        exact ih h
      · next hcontinues =>
        rw [if_neg hcontinues] at h
        split
        · next htext =>
          rw [if_pos htext] at h
          exact ih h
        · next htext =>
          rw [if_neg htext] at h
          obtain ⟨ms, hms, rfl⟩ := exists_of_map_eq_ok h
          rw [ih hms]
          cases assemble none (n + 1 + lines.length) others <;> rfl

theorem extract_append {a : Text} (ha : a = [] ∨ a.getLast? = some '\n') {ls : List LogicalLine}
    (h : extract a = .ok ls) (b : Text) :
    extract (a ++ b) = ((extract b).map fun ms =>
      ls ++ ms.map (relined (· + (Text.lines a).length))).mapError
        (Error.relined (· + (Text.lines a).length)) := by
  have hbehind := assemble_of_kept (Line.kept_add 1 (Text.lines a).length (Text.lines b)) none
  rw [Option.map_none] at hbehind
  rw [extract, Text.lines_append ha, assemble_append h, hbehind, extract]
  cases assemble none 1 (Text.lines b) <;> rfl

/-! ## Instructions -/

theorem instructions_append {ls : List LogicalLine} {is : List Instruction}
    (h : instructions ls = .ok is) (ms : List LogicalLine) :
    instructions (ls ++ ms) = (instructions ms).map (is ++ ·) := by
  induction ls generalizing is with
  | nil =>
    obtain rfl := Except.ok.inj h
    cases hms : instructions ms <;> simp [hms, Except.map]
  | cons l ls ih =>
    rw [instructions] at h
    rw [List.cons_append, instructions]
    split at h
    · cases h
    · next i hi =>
      obtain ⟨js, hjs, rfl⟩ := exists_of_map_eq_ok h
      simp only [ih hjs]
      cases instructions ms <;> rfl

theorem instruction_relined (f : Nat → Nat) (l : LogicalLine) :
    (l.relined f).instruction =
      (l.instruction.map (Instruction.relined f)).mapError (Error.relined f) := by
  unfold instruction
  simp only [relined]
  split
  · next k _ => exact congrArg _ (Instruction.relined_parse f k _ l.line).symm
  · rfl

/-- The lines of instructions are those of their logical lines. -/
theorem instructions_relined (f : Nat → Nat) (ls : List LogicalLine) :
    instructions (ls.map (relined f)) =
      ((instructions ls).map (List.map (Instruction.relined f))).mapError (Error.relined f) := by
  induction ls with
  | nil => rfl
  | cons l ls ih =>
    rw [List.map_cons, instructions, instructions, instruction_relined, ih]
    cases l.instruction with
    | error e => rfl
    | ok i => cases instructions ls <;> rfl

/-- The instructions of lines that follow others, on other lines. -/
theorem instructions_behind {ls : List LogicalLine} {is : List Instruction}
    (h : instructions ls = .ok is) (f : Nat → Nat) (ms : List LogicalLine) :
    instructions (ls ++ ms.map (relined f)) = ((instructions ms).map fun js =>
      is ++ js.map (Instruction.relined f)).mapError (Error.relined f) := by
  rw [instructions_append h, instructions_relined]
  cases instructions ms <;> rfl

/-- An instruction is a keyword and an argument, read in no stage. -/
theorem eq_parse_of_instruction {l : LogicalLine} {i : Instruction} (h : l.instruction = .ok i) :
    i = Instruction.parse i.keyword i.argument i.line := by
  unfold instruction at h
  simp only at h
  split at h
  · rw [← Except.ok.inj h]
    rfl
  · cases h

theorem exists_of_mem_instructions {ls : List LogicalLine} {is : List Instruction}
    (h : instructions ls = .ok is) : ∀ i ∈ is, ∃ l ∈ ls, l.instruction = .ok i := by
  induction ls generalizing is with
  | nil =>
    obtain rfl := Except.ok.inj h
    simp
  | cons l ls ih =>
    rw [instructions] at h
    split at h
    · cases h
    · next i hi =>
      obtain ⟨js, hjs, rfl⟩ := exists_of_map_eq_ok h
      intro j hj
      rcases List.mem_cons.1 hj with rfl | hj
      · exact ⟨l, List.mem_cons_self .., hi⟩
      · obtain ⟨m, hm, hread⟩ := ih hjs j hj
        exact ⟨m, List.mem_cons_of_mem l hm, hread⟩

theorem eq_parse_of_instructions {ls : List LogicalLine} {is : List Instruction}
    (h : instructions ls = .ok is) :
    ∀ i ∈ is, i = Instruction.parse i.keyword i.argument i.line := by
  intro i hi
  obtain ⟨l, -, hread⟩ := exists_of_mem_instructions h i hi
  exact eq_parse_of_instruction hread

end LogicalLine

namespace Stage

/-! ## Stages -/

/-- Stages are counted on from those that have begun, and the last of them is current. -/
theorem assign_append (ordinal : Nat) (current : Stage) (is js : List Instruction) :
    let front := assign ordinal current is
    let behind := assign (ordinal + front.2.length) (front.2.getLast?.getD current) js
    assign ordinal current (is ++ js) = (front.1 ++ behind.1, front.2 ++ behind.2) := by
  induction is generalizing ordinal current with
  | nil => rfl
  | cons i is ih =>
    rw [List.cons_append]
    by_cases hi : i.keyword = .fromImage
    · have hcount : ordinal + ((assign (ordinal + 1) (ofImage i ordinal) is).2.length + 1) =
          ordinal + 1 + (assign (ordinal + 1) (ofImage i ordinal) is).2.length := by omega
      simp only [assign_cons_of_image _ _ _ hi, ih, List.length_cons, List.getLast?_cons,
        Option.getD_some, List.cons_append]
      rw [hcount]
    · simp only [assign_cons_of_ne _ _ _ hi, ih, List.cons_append]

theorem ofImage_rebase (last : Stage) (count : Nat) (i : Instruction) (ordinal : Nat) :
    (ofImage i ordinal).rebase last count = ofImage i (ordinal + count) := by
  unfold ofImage
  split
  · rfl
  · have hne : (ordinal : Int) ≠ -1 := by omega
    simp only [rebase, if_neg hne, Int.natCast_add]

/-- Behind `count` stages, of which `last` is the last, stages are counted on. -/
theorem assign_rebase (last : Stage) (count ordinal : Nat) (current : Stage)
    (is : List Instruction) :
    assign (ordinal + count) (current.rebase last count) is =
      ((assign ordinal current is).1.map fun i => { i with stage := i.stage.rebase last count },
        (assign ordinal current is).2.map (·.rebase last count)) := by
  induction is generalizing ordinal current with
  | nil => rfl
  | cons i is ih =>
    by_cases hi : i.keyword = .fromImage
    · have hnext : ordinal + count + 1 = ordinal + 1 + count := by omega
      rw [assign_cons_of_image _ _ _ hi, assign_cons_of_image _ _ _ hi,
        ← ofImage_rebase last count, hnext, ih (ordinal + 1) (ofImage i ordinal)]
      rfl
    · rw [assign_cons_of_ne _ _ _ hi, assign_cons_of_ne _ _ _ hi, ih ordinal current]
      rfl

/-- The lines of instructions have no part in the choice of their stages. -/
theorem assign_relined (f : Nat → Nat) (ordinal : Nat) (current : Stage) (is : List Instruction) :
    assign ordinal current (is.map (Instruction.relined f)) =
      ((assign ordinal current is).1.map (Instruction.relined f), (assign ordinal current is).2) := by
  induction is generalizing ordinal current with
  | nil => rfl
  | cons i is ih =>
    have himage : ofImage (i.relined f) ordinal = ofImage i ordinal := rfl
    rw [List.map_cons]
    by_cases hi : i.keyword = .fromImage
    · have hrelined : (i.relined f).keyword = .fromImage := hi
      rw [assign_cons_of_image _ _ _ hi, assign_cons_of_image _ _ _ hrelined, himage, ih]
      rfl
    · have hrelined : (i.relined f).keyword ≠ .fromImage := hi
      rw [assign_cons_of_ne _ _ _ hi, assign_cons_of_ne _ _ _ hrelined, ih]
      rfl

/-- Instructions on other lines, behind instructions that are in their stages: the stage before the
first one is the last stage of the instructions in front. -/
theorem assign_behind (f : Nat → Nat) (is js : List Instruction) :
    let front := assign 0 .beforeFirst is
    let last := front.2.getLast?.getD .beforeFirst
    assign 0 .beforeFirst (is ++ js.map (Instruction.relined f)) =
      (front.1 ++ (assign 0 .beforeFirst js).1.map fun j =>
          { j.relined f with stage := j.stage.rebase last front.2.length },
        front.2 ++ (assign 0 .beforeFirst js).2.map (·.rebase last front.2.length)) := by
  intro front last
  have hbehind := assign_rebase last front.2.length 0 .beforeFirst js
  have hlast : Stage.beforeFirst.rebase last front.2.length = last := rfl
  rw [hlast] at hbehind
  rw [assign_append, assign_relined, hbehind]
  simp only [List.map_map]
  rfl

/-- Only the stage of an instruction is assigned. -/
theorem map_assign {α : Type} {g : Instruction → α} (hg : ∀ i s, g { i with stage := s } = g i)
    (ordinal : Nat) (current : Stage) (is : List Instruction) :
    (assign ordinal current is).1.map g = is.map g := by
  induction is generalizing ordinal current with
  | nil => rfl
  | cons i is ih =>
    by_cases hi : i.keyword = .fromImage
    · rw [assign_cons_of_image _ _ _ hi, List.map_cons, List.map_cons, hg, ih]
    · rw [assign_cons_of_ne _ _ _ hi, List.map_cons, List.map_cons, hg, ih]

theorem exists_of_mem_assign {ordinal : Nat} {current : Stage} {is : List Instruction}
    {i : Instruction} (h : i ∈ (assign ordinal current is).1) :
    ∃ j ∈ is, i = { j with stage := i.stage } := by
  have hmem := List.mem_map_of_mem (f := fun k => { k with stage := .beforeFirst }) h
  rw [map_assign fun _ _ => rfl] at hmem
  obtain ⟨j, hj, heq⟩ := List.mem_map.1 hmem
  exact ⟨j, hj, congrArg (fun k => { k with stage := i.stage }) heq.symm⟩

/-- Instructions that are put into stages were read before. -/
theorem parsed_of_mem_assign {ordinal : Nat} {current : Stage} {is : List Instruction}
    (h : ∀ i ∈ is, i = Instruction.parse i.keyword i.argument i.line) :
    ∀ i ∈ (assign ordinal current is).1, i.Parsed := by
  intro i hi
  obtain ⟨j, hj, hstage⟩ := exists_of_mem_assign hi
  rw [hstage, h j hj]
  exact Instruction.parsed_parse ..

end Stage

namespace Document

/-! ## Documents -/

theorem parse_eq_ok_iff {content : Text} {d : Document} :
    parse content = .ok d ↔ ∃ ls is, LogicalLine.extract content = .ok ls ∧
      LogicalLine.instructions ls = .ok is ∧
      d = ⟨none, Text.lines content, ls, (Stage.assign 0 .beforeFirst is).1,
        (Stage.assign 0 .beforeFirst is).2⟩ := by
  unfold parse
  constructor
  · intro h
    split at h
    · cases h
    · next ls hls =>
      obtain ⟨is, his, rfl⟩ := exists_of_map_eq_ok h
      exact ⟨ls, is, hls, his, rfl⟩
  · rintro ⟨ls, is, hls, his, rfl⟩
    rw [hls]
    simp only [his]
    rfl

/-- The instructions of a document are what their keywords and arguments say. -/
theorem parsed_of_mem {content : Text} {d : Document} (h : parse content = .ok d) :
    ∀ i ∈ d.instructions, i.Parsed := by
  obtain ⟨ls, is, -, his, rfl⟩ := parse_eq_ok_iff.1 h
  exact Stage.parsed_of_mem_assign (LogicalLine.eq_parse_of_instructions his)

/-- An error behind a document is found where it is, since the document is read without one. -/
theorem parse_append_error {a : Text} (ha : a = [] ∨ a.getLast? = some '\n') {da : Document}
    (hda : parse a = .ok da) {b : Text} {e : Error} (hb : parse b = .error e) :
    parse (a ++ b) = .error (e.relined (· + (Text.lines a).length)) := by
  obtain ⟨ls, is, hls, his, -⟩ := parse_eq_ok_iff.1 hda
  have hextract := LogicalLine.extract_append ha hls b
  unfold parse at hb ⊢
  rw [hextract]
  split at hb
  · next e' hopen =>
    -- a continuation is open at the end
    rw [hopen, Except.error.inj hb]
    rfl
  · next ms hms =>
    -- a line begins with no keyword
    have hinstructions := LogicalLine.instructions_behind his (· + (Text.lines a).length) ms
    cases hread : LogicalLine.instructions ms with
    | ok js =>
      rw [hread] at hb
      cases hb
    | error e' =>
      rw [hread] at hb hinstructions
      obtain rfl := Except.error.inj hb
      simp only [hms, Except.map, Except.mapError, hinstructions]

/-- **Documents one behind the other.** Let `a` be empty or end in a line feed, and let it be the
text of a document. An error in a text `b` is the error of `a ++ b` at its place. If `b` is the text of a
document, so is `a ++ b`: the lines of `b` follow those of `a` with their numbers raised, and so do
its instructions, read on their new lines, in stages that are counted on. -/
theorem parse_append {a : Text} (ha : a = [] ∨ a.getLast? = some '\n') {da : Document}
    (hda : parse a = .ok da) (b : Text) :
    (∀ e, parse b = .error e →
      parse (a ++ b) = .error (e.relined (· + (Text.lines a).length))) ∧
    ∀ db, parse b = .ok db → ∃ d, parse (a ++ b) = .ok d ∧
      d.physicalLines = da.physicalLines ++ db.physicalLines ∧
      d.logicalLines = da.logicalLines ++
        db.logicalLines.map (·.relined (· + (Text.lines a).length)) ∧
      d.instructions = da.instructions ++ db.instructions.map (fun i =>
        { Instruction.parse i.keyword i.argument (i.line + (Text.lines a).length) with
          stage := i.stage.rebase da.lastStage da.stages.length }) ∧
      d.stages = da.stages ++ db.stages.map (·.rebase da.lastStage da.stages.length) := by
  refine ⟨fun e he => parse_append_error ha hda he, ?_⟩
  intro db hdb
  have hparsed := parsed_of_mem hdb
  obtain ⟨ls, is, hls, his, hd⟩ := parse_eq_ok_iff.1 hda
  obtain ⟨ms, js, hms, hjs, rfl⟩ := parse_eq_ok_iff.1 hdb
  have hextract := LogicalLine.extract_append ha hls b
  have hinstructions := LogicalLine.instructions_behind his (· + (Text.lines a).length) ms
  rw [hms] at hextract
  rw [hjs] at hinstructions
  have hbehind := Stage.assign_behind (· + (Text.lines a).length) is js
  refine ⟨_, parse_eq_ok_iff.2 ⟨_, _, hextract, hinstructions, rfl⟩, ?_, ?_, ?_, ?_⟩
  · rw [hd]
    exact Text.lines_append ha b
  · rw [hd]
  · simp only [hbehind, hd]
    refine congrArg (_ ++ ·) (List.map_congr_left fun i hi => ?_)
    rw [(hparsed i hi).relined_eq]
    rfl
  · simp only [hbehind, hd]
    rfl

/-- Behind a named and a numbered stage: a continuation, a third stage, and in the end an error. -/
theorem parse_append_two_stages :
    ∃ da, parse "ARG v\nFROM x AS n\nFROM y\n".toList = .ok da ∧
      (∃ d, parse
          ("ARG v\nFROM x AS n\nFROM y\n".toList ++ "RUN c \\\n d\nFROM z\n".toList) = .ok d ∧
        d.instructions.map (fun i => (i.line, i.stage)) =
          [(1, .beforeFirst), (2, .named ['n']), (3, .numbered 1), (5, .numbered 1),
            (6, .numbered 2)]) ∧
      parse ("ARG v\nFROM x AS n\nFROM y\n".toList ++ "RUN c\nEXIT\n".toList) =
        .error (.unknownInstruction "EXIT".toList 5) := by
  have hparse : (parse "ARG v\nFROM x AS n\nFROM y\n".toList).map
      (fun d => (d.instructions.map (fun i => (i.line, i.stage)), d.stages)) =
        .ok ([(1, .beforeFirst), (2, .named ['n']), (3, .numbered 1)],
          [.named ['n'], .numbered 1]) := by
    cbv
  have hbehind : (parse "RUN c \\\n d\nFROM z\n".toList).map
      (fun d => d.instructions.map (fun i => (i.line, i.stage))) =
        .ok [(2, .beforeFirst), (3, .numbered 0)] := by
    cbv
  have herror : parse "RUN c\nEXIT\n".toList = .error (.unknownInstruction "EXIT".toList 2) := by
    cbv
  obtain ⟨da, hda, hvalue⟩ := exists_of_map_eq_ok hparse
  obtain ⟨hinstructions, hstages⟩ := Prod.mk.inj hvalue
  obtain ⟨db, hdb, hplaces⟩ := exists_of_map_eq_ok hbehind
  refine ⟨da, hda, ?_, ?_⟩
  · obtain ⟨d, hd, -, -, hboth, -⟩ := (parse_append (.inr rfl) hda _).2 db hdb
    refine ⟨d, hd, ?_⟩
    have hshift : db.instructions.map (fun i =>
        (i.line + 3, i.stage.rebase da.lastStage da.stages.length)) =
        [(5, .numbered 1), (6, .numbered 2)] := by
      have hplaces := congrArg (List.map fun p => (p.1 + 3, p.2.rebase (.numbered 1) 2)) hplaces
      rw [List.map_map] at hplaces
      rw [lastStage, hstages]
      exact hplaces
    rw [hboth, List.map_append, hinstructions, List.map_map]
    exact congrArg (_ ++ ·) hshift
  · exact (parse_append (.inr rfl) hda _).1 _ herror

end Document

end Dockerlint
