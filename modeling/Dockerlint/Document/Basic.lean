import Dockerlint.Instruction
import Dockerlint.Line.Logical

/-!
# Documents

A document is read line by line: every logical line is an instruction, and every instruction
belongs to the stage that the last `FROM` before it begins. Reading stops at an open continuation,
and otherwise at the first line whose first word is no keyword.

## Main definitions

* `Stage.assign`: instructions in their stages, and the stages that begin
* `Document`: the lines, the instructions and the stages of a text
* `Document.parse`: the document of a text
* `Document.load`: the document in a file

## Main results

* `Stage.assign_stages`, `Document.stages_of_parse`: the stages are those of the `FROM`
  instructions
-/

namespace Dockerlint

/-- The first word of a line, and the text behind the blanks that follow it. -/
def LogicalLine.divide (text : Text) : Text × Text :=
  (text.takeWhile (!isBlank ·), Text.trimLeft (text.dropWhile (!isBlank ·)))

/-- The instruction on a logical line. -/
def LogicalLine.instruction (l : LogicalLine) : Except Error Instruction :=
  let (word, argument) := LogicalLine.divide l.text
  match Keyword.ofText? word with
  | some keyword => .ok (Instruction.parse keyword argument l.line)
  | none => .error (.unknownInstruction word l.line)

/-- The instructions on logical lines, up to the first that has none. -/
def LogicalLine.instructions : List LogicalLine → Except Error (List Instruction)
  | [] => .ok []
  | l :: ls =>
    match l.instruction with
    | .error e => .error e
    | .ok i => (instructions ls).map (i :: ·)

namespace Stage

/-- The stage that a `FROM` begins, where `ordinal` others began before it. -/
def ofImage (i : Instruction) (ordinal : Nat) : Stage :=
  match i.args.image?.bind (·.stageName) with
  | some name => .named name
  | none => .numbered ordinal

/-- Puts instructions into their stages, where `ordinal` stages began before and `current` is the
last of them, and lists the stages that begin. -/
def assign (ordinal : Nat) (current : Stage) :
    List Instruction → List Instruction × List Stage
  | [] => ([], [])
  | i :: is =>
    if i.keyword = .fromImage then
      match assign (ordinal + 1) (ofImage i ordinal) is with
      | (others, stages) =>
        ({ i with stage := ofImage i ordinal } :: others, ofImage i ordinal :: stages)
    else
      match assign ordinal current is with
      | (others, stages) => ({ i with stage := current } :: others, stages)

section Assign

variable {i : Instruction} (ordinal : Nat) (current : Stage) (is : List Instruction)

theorem assign_cons_of_image (hi : i.keyword = .fromImage) :
    assign ordinal current (i :: is) =
      ({ i with stage := ofImage i ordinal } :: (assign (ordinal + 1) (ofImage i ordinal) is).1,
        ofImage i ordinal :: (assign (ordinal + 1) (ofImage i ordinal) is).2) := by
  rw [assign, if_pos hi]

theorem assign_cons_of_ne (hi : i.keyword ≠ .fromImage) :
    assign ordinal current (i :: is) =
      ({ i with stage := current } :: (assign ordinal current is).1,
        (assign ordinal current is).2) := by
  rw [assign, if_neg hi]

/-- The stages that begin are those of the `FROM` instructions, in order. -/
theorem assign_stages :
    (assign ordinal current is).2 =
      ((assign ordinal current is).1.filter (·.keyword == .fromImage)).map (·.stage) := by
  induction is generalizing ordinal current with
  | nil => rfl
  | cons i is ih =>
    by_cases hi : i.keyword = .fromImage
    · rw [assign_cons_of_image ordinal current is hi, List.filter_cons_of_pos (by simpa using hi),
        List.map_cons, ← ih]
    · rw [assign_cons_of_ne ordinal current is hi, List.filter_cons_of_neg (by simpa using hi),
        ← ih]

end Assign

end Stage

/-- The lines, the instructions and the stages of a text. -/
structure Document where
  /-- The file that the text was read from, if any. -/
  path : Option Text
  physicalLines : List Text
  logicalLines : List LogicalLine
  /-- One instruction for each logical line, in its stage. -/
  instructions : List Instruction
  /-- The stages in the order in which they begin. -/
  stages : List Stage
deriving DecidableEq, Repr

namespace Document

/-- The document of a text. -/
def parse (content : Text) : Except Error Document :=
  match LogicalLine.extract content with
  | .error e => .error e
  | .ok logicalLines =>
    (LogicalLine.instructions logicalLines).map fun instructions =>
      let staged := Stage.assign 0 .beforeFirst instructions
      { path := none
        physicalLines := Text.lines content
        logicalLines
        instructions := staged.1
        stages := staged.2 }

/-- The stages of a document are those of its `FROM` instructions, in order. -/
theorem stages_of_parse {content : Text} {d : Document} (h : parse content = .ok d) :
    d.stages = (d.instructions.filter (·.keyword == .fromImage)).map (·.stage) := by
  unfold parse at h
  split at h
  · cases h
  · obtain ⟨is, -, rfl⟩ := exists_of_map_eq_ok h
    exact Stage.assign_stages 0 .beforeFirst is

/-- The document in the file at a path, given the bytes of the regular file there, if there is
one. -/
def load (path : Text) (file : Option ByteArray) : Except Error Document :=
  match file with
  | none => .error (.notFound path)
  | some bytes =>
    match String.fromUTF8? bytes with
    | none => .error .notText
    | some content => (parse content.toList).map ({ · with path := some path })

/-- The last stage, which is the one before the first `FROM` if there is no `FROM`. -/
def lastStage (d : Document) : Stage := d.stages.getLast?.getD .beforeFirst

end Document

end Dockerlint
