import Dockerlint.Lint.Address
import Dockerlint.Lint.Rule
import Dockerlint.Text.Bytes

/-!
# General rules

The rules that look at the document as a whole: its `FROM` instructions, the order of its
instructions, its maintainers and its physical lines.

## Main definitions

* `General.rules`: the rules, by what they look at
-/

namespace Dockerlint.General

section Images

/-- The `FROM` instructions of a document. -/
def images (c : Context) : List Instruction := c.document.ofKeyword .fromImage none

/-- Some stage must begin. -/
def imageIsPresent (c : Context) : List Finding :=
  Finding.oneIf (c.document.firstOfKeyword .fromImage none).isNone

/-- Only build arguments may be declared before the first `FROM`. -/
def imageComesFirst (c : Context) : List Finding :=
  match (c.document.select none).find? (·.keyword != .arg) with
  | some i => Finding.oneIf (i.keyword != .fromImage)
  | none => []

/-- How a character of a name is written in a list of names: a control character, and a blank other
than a space, by its number. The wording is exact for names without characters that extend the one
before them (such as U+0301) and without other unprintable ones (such as U+00AD, U+200B and U+E000):
these would have to be written by their number too, but stand here as they are. -/
def escapeInList (c : Char) : String :=
  if c = '"' then "\\\""
  else if c = '\\' then "\\\\"
  else if c = '\t' then "\\t"
  else if c = '\r' then "\\r"
  else if c = '\n' then "\\n"
  else if c = '\x00' then "\\0"
  else if c.toNat < 0x20 ∨ (0x7F ≤ c.toNat ∧ c.toNat < 0xA0) ∨ (c ≠ ' ' ∧ isBlank c) then
    "\\u\x7b" ++ String.ofList (Nat.toDigits 16 c.toNat) ++ "\x7d"
  else String.singleton c

/-- A list of names in brackets, each in double quotes. -/
def nameList (names : List Text) : String :=
  "[" ++ ", ".intercalate (names.map fun name =>
    inDoubleQuotes (String.join (name.map escapeInList))) ++ "]"

example : nameList [['a', '"'], ['\x1b']] = "[\"a\\\"\", \"\\u\x7b1b\x7d\"]" := by decide

/-- Under an enforced policy, every base image comes from a listed registry. -/
def imageFromAllowedRegistry (c : Context) : List Finding :=
  if c.policy.isEnforced then
    ((images c).filter fun i => !c.policy.allows (i.args.image?.bind (·.registry))).map fun i =>
      { line := some i.line, detail := nameList c.policy.allowed }
  else []

/-- Every base image has a username. -/
def imageHasUsername (c : Context) : List Finding :=
  Finding.atInstructions (images c) fun i => (i.args.image?.bind (·.username)).isNone

/-- The name of every base image has at least two characters. -/
def imageNameLength (c : Context) : List Finding :=
  (images c).filterMap fun i =>
    match i.args.image?.bind (·.image) with
    | some image =>
      if image ≠ [] ∧ image.length < 2 then
        some { line := some i.line, detail := String.ofList image }
      else none
    | none => none

/-- Every base image has a tag. -/
def imageHasTag (c : Context) : List Finding :=
  Finding.atInstructions (images c) fun i => (i.args.image?.bind (·.tag)).isNone

end Images

section Instructions

/-- `ADD` is not used. -/
def addIsAbsent (c : Context) : List Finding :=
  Finding.oneIf (c.document.firstOfKeyword .add none).isSome

/-- If there is a `CMD` or an `ENTRYPOINT`, one of them comes last. -/
def commandIsLast (c : Context) : List Finding :=
  let command := c.document.lastIndexOf .cmd none
  let entrypoint := c.document.lastIndexOf .entrypoint none
  -- with a `CMD` or an `ENTRYPOINT` there is at least one instruction
  let last := some (c.document.instructions.length - 1)
  Finding.oneIf ((command.isSome || entrypoint.isSome) && command != last && entrypoint != last)

/-- No `RUN` begins with `sudo`. -/
def runWithoutSudo (c : Context) : List Finding :=
  Finding.atInstructions (c.document.ofKeyword .run none) fun i =>
    Text.startsWith (Text.ofString "sudo") (Text.trim i.argument)

/-- The arrays behind a keyword are in double quotes. -/
def inDouble (keyword : Keyword) (c : Context) : List Finding :=
  Finding.atInstructions (c.document.ofKeyword keyword none) fun i => i.quoting == .single

end Instructions

section Maintainers

/-- Maintainers are named by labels or by `MAINTAINER`, not by both. -/
def maintainersNotMixed (c : Context) : List Finding :=
  Finding.oneIf (!(c.document.maintainerLabels .ignored none).isEmpty
    && !(c.document.ofKeyword .maintainer none).isEmpty)

/-- Maintainers are not named by `MAINTAINER`. -/
def maintainerIsAbsent (c : Context) : List Finding :=
  Finding.oneIf (c.document.firstOfKeyword .maintainer none).isSome

/-- The key of a maintainer label is in lower case. -/
def labelIsLowercase (c : Context) : List Finding :=
  Finding.atInstructions (c.document.maintainerLabels .ignored none) fun i =>
    !i.containsKey Document.maintainerKey .exact

/-- The entries of a maintainer label, separated by commas; an empty value has none. -/
def labelEntries (i : Instruction) : List Text :=
  match i.valueOf Document.maintainerKey .exact with
  | none | some [] => []
  | some value => Text.split ',' value

/-- Every entry of a maintainer label has a mail address. -/
def labelHasMail (c : Context) : List Finding :=
  (c.document.maintainerLabels .ignored none).flatMap fun i =>
    ((labelEntries i).filter (!·.contains '@')).map fun _ => { line := some i.line }

/-- A finding for each part that a maintainer entry of an instruction lacks. -/
def missingParts (i : Instruction) (entry : Text) : List Finding :=
  List.replicate (Address.missing entry) { line := some i.line }

/-- Every entry of a maintainer label has a name and an address. -/
def labelForm (c : Context) : List Finding :=
  (c.document.maintainerLabels .exact none).flatMap fun i =>
    (labelEntries i).flatMap (missingParts i)

/-- Every entry of a `MAINTAINER` has a name and an address. -/
def maintainerForm (c : Context) : List Finding :=
  (c.document.ofKeyword .maintainer none).flatMap fun i =>
    (i.args.maintainers?.getD []).flatMap (missingParts i)

end Maintainers

section Lines

/-- The number of characters that a line may have. -/
def maxLineLength : Nat := 100

/-- No line is too long. -/
def lineLength (c : Context) : List Finding :=
  Finding.atLines (fun line => decide (maxLineLength < line.length)) 1 c.document.physicalLines

/-- A line whose first character that is not blank opens a comment. -/
def isComment (line : Text) : Bool := Text.startsWith ['#'] (Text.trim line)

/-- The operators that join commands. -/
def operators : List Text := [['&', '&'], ['|', '|']]

/-- Whether an operator occurs first behind the beginning of a text. -/
def occursInside (operator t : Text) : Bool :=
  match Text.firstIndex operator t with
  | some n => decide (0 < n)
  | none => false

/-- Operators stand at the beginning of a line. -/
def operatorsLead (c : Context) : List Finding :=
  Finding.atLines (fun line => !isComment line && operators.any fun o => occursInside o (Text.trim line))
    1 c.document.physicalLines

/-- An operator at the beginning of a line has one byte of blanks before it. -/
def operatorsIndented (c : Context) : List Finding :=
  Finding.atLines
    (fun line =>
      !isComment line && (operators.any fun o => Text.startsWith o (Text.trimLeft line))
        && Text.bytes (line.takeWhile isBlank) != 1)
    1 c.document.physicalLines

/-- No line that is not blank ends in a blank. -/
def noTrailingBlank (c : Context) : List Finding :=
  Finding.atLines (fun line => Text.trimLeft line != Text.trimRight (Text.trimLeft line))
    1 c.document.physicalLines

/-- The last two lines are not both blank. -/
def oneFinalNewline (c : Context) : List Finding :=
  match c.document.physicalLines.reverse with
  | last :: previous :: _ => Finding.oneIf (Text.trim previous == [] && Text.trim last == [])
  | _ => []

end Lines

/-- The general rules, by what they look at. -/
def rules : List Rule :=
  [⟨"rule0_0", "FROM must occur at least once", .error, imageIsPresent⟩,
    ⟨"rule0_1_2", "Do not mix LABEL maintainer and MAINTAINER", .error, maintainersNotMixed⟩,
    ⟨"rule0_1_4", "LABEL maintainer is recommended over MAINTAINER", .warning,
      maintainerIsAbsent⟩,
    ⟨"rule0_1_5", "LABEL maintainer must be lowercase", .error, labelIsLowercase⟩,
    ⟨"rule0_1_6", "LABEL maintainer requires a mail address", .error, labelHasMail⟩,
    ⟨"rule1", "FROM must be the first instruction (only ARG can precede FROM)", .error,
      imageComesFirst⟩,
    ⟨"rule2", "FROM must point to an allowed registry: ", .error, imageFromAllowedRegistry⟩,
    ⟨"rule3", "FROM must point to a username", .error, imageHasUsername⟩,
    ⟨"rule4", "FROM must point to a name with at least 2 characters, actual: ", .error,
      imageNameLength⟩,
    ⟨"rule5", "FROM must point to a tag", .error, imageHasTag⟩,
    ⟨"rule6", "ADD is prohibited", .error, addIsAbsent⟩,
    ⟨"rule8", "CMD or ENTRYPOINT must be the last instruction if present", .error,
      commandIsLast⟩,
    ⟨"rule9", "RUN sudo is prohibited", .error, runWithoutSudo⟩,
    ⟨"rule10", "Lines longer than 100 characters", .warning, lineLength⟩,
    ⟨"rule11_0", "AND (&&) / OR (||) control operators must be in front of each concerned line "
      ++ "for multi-line RUN commands", .warning, operatorsLead⟩,
    ⟨"rule11_1", "AND (&&) / OR (||) control operators should be indented by a single white space "
      ++ "in front of each concerned line for multi-line RUN commands", .warning,
      operatorsIndented⟩,
    ⟨"rule12_1", "CMD argument(s) must be enclosed with \" instead of '", .error, inDouble .cmd⟩,
    ⟨"rule12_2", "ENTRYPOINT argument(s) must be enclosed with \" instead of '", .error,
      inDouble .entrypoint⟩,
    ⟨"rule12_3", "VOLUME argument(s) must be enclosed with \" instead of '", .error,
      inDouble .volume⟩,
    ⟨"rule13_0", "LABEL maintainer must be in the form name <name@mail.com>", .error, labelForm⟩,
    ⟨"rule13_1", "MAINTAINER must be in the form name <name@mail.com>", .error, maintainerForm⟩,
    ⟨"rule14", "no trailing whitespaces", .warning, noTrailingBlank⟩,
    ⟨"rule15", "exactly one newline at the end", .warning, oneFinalNewline⟩]

end Dockerlint.General
