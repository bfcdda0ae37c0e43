import Dockerlint.Args
import Dockerlint.Reader.Scanner

/-!
# The grammars as scripts

The argument of each keyword is read here by a scanner. Where a part may be missing, the script
saves its place and goes back to it. A loop goes on as long as its parts are found, in as many rounds
as it may; no loop counts what it takes.

## Main definitions

* `Grammar.operand`: the script of a form of argument
* `Grammar.trigger`: the wrapped keyword and the byte where its argument begins
* `Grammar.parse`: the arguments of a keyword, or where the argument does not fit
-/

namespace Dockerlint

/-- Where an argument does not fit, as it is reported. -/
structure SyntaxFailure where
  message : String
  /-- The column in the argument, from 1. -/
  column : Option Nat
deriving DecidableEq, Repr

namespace Grammar

open Script

/-- Words with any blanks before each of them, as written. -/
def words (stops : List Char) : (passes : Nat) → Script (List Text)
  | 0 => exhausted
  | passes + 1 => do
    let save ← position
    skip
    match ← attempt (word stops .written) with
    | some w =>
      let more ← words stops passes
      return w :: more
    | none =>
      goTo save
      return []

/-! ## Assignments -/

/-- The value behind an equals sign, which may be missing. -/
def assigned : Script Text := do
  match ← attempt (word [] .value) with
  | some value => return value
  | none => return []

/-- Assignments `key=value`. -/
def pairs : (passes : Nat) → Script (List (Text × Text))
  | 0 => exhausted
  | passes + 1 => do
    let save ← position
    skip
    match ← attempt (word ['='] .value) with
    | some key =>
      if ← eat ['='] then
        let value ← assigned
        let more ← pairs passes
        return (key, value) :: more
      else
        goTo save
        return []
    | none =>
      goTo save
      return []

/-- A key, and the words of its value. -/
def oldStyle (passes : Nat) : Script (Option (Text × Text)) := do
  match ← attempt (word [] .value) with
  | some key =>
    match ← words [] passes with
    | [] => return none
    | w :: ws => return some (key, Text.join [' '] (w :: ws))
  | none => return none

/-- The assignments of an argument. -/
def assignments (passes : Nat) : Attempt Assignments := do
  skip
  let start ← position
  match ← pairs passes with
  | p :: ps =>
    finish
    return Table.ofList (p :: ps)
  | [] =>
    goTo start
    match ← oldStyle passes with
    | some p =>
      finish
      return Table.ofList [p]
    | none => throw (.expected start .assignment)

/-! ## Lists -/

/-- The ports of an argument; none need to follow where `found` says that there was one. -/
def ports : (passes : Nat) → (found : Bool) → Attempt (List Text)
  | 0, _ => exhausted
  | passes + 1, found => do
    skip
    let atEnd ← atEnd
    if found && atEnd then
      return []
    else
      let start ← position
      let token ← word [] .written
      if Ports.isPort token then
        let more ← ports passes true
        return token :: more
      else
        throw (.expected start .port)

/-- The entries of an argument. -/
def maintainers : (passes : Nat) → Attempt (List Text)
  | 0 => exhausted
  | passes + 1 => do
    skip
    let w ← word [','] .written
    let ws ← words [','] passes
    let save ← position
    skip
    if ← eat [','] then
      let more ← maintainers passes
      return Text.join [' '] (w :: ws) :: more
    else
      goTo save
      finish
      return [Text.join [' '] (w :: ws)]

/-! ## Images -/

/-- A word with a slash directly behind it. -/
def segment : Script (Option Text) := do
  let save ← position
  match ← attempt (word ['/'] .written) with
  | some part =>
    if ← eat ['/'] then
      return some part
    else
      goTo save
      return none
  | none =>
    goTo save
    return none

/-- Segments, one behind the other. -/
def segments : (passes : Nat) → Script (List Text)
  | 0 => exhausted
  | passes + 1 => do
    match ← segment with
    | some part =>
      let more ← segments passes
      return part :: more
    | none => return []

/-- A tag behind a colon. -/
def tag : Script (Option Text) := do
  let save ← position
  if ← eat [':'] then
    match ← attempt (word [] .written) with
    | some tag => return some tag
    | none =>
      goTo save
      return none
  else
    return none

/-- The name of the stage. -/
def stageName : Script (Option Text) := do
  let save ← position
  skip
  if ← eatCaseless ['a', 's'] then
    skip
    match ← attempt (word [] .written) with
    | some name => return some name
    | none =>
      goTo save
      return none
  else
    goTo save
    return none

/-- The image of an argument. -/
def image (passes : Nat) : Attempt Image := do
  skip
  let start ← position
  let registry ← segment
  let names ← segments passes
  let image ← word ['/', ':'] .written
  let tag ← tag
  let fullName ← slice start
  let stageName ← stageName
  finish
  return { registry, username := Image.usernameOf names, image, tag, fullName, stageName }

/-! ## Flags -/

section Options

variable {ι : Type}

/-- Takes the beginning of one of the flags, up to its value. -/
def eatOne : List (Flag ι) → Script (Option (ι × List (Flag ι)))
  | [] => return none
  | f :: flags => do
    if ← eat f.opening then
      return some (f.kind, flags)
    else
      match ← eatOne flags with
      | some (kind, others) => return some (kind, f :: others)
      | none => return none

/-- The flags in front of an argument, each at most once. -/
def options (value : ι → Script (Option Text)) :
    (passes : Nat) → (flags : List (Flag ι)) → Script (List (ι × Text))
  | 0, _ => exhausted
  | passes + 1, flags => do
    let save ← position
    skip
    match ← eatOne flags with
    | some (kind, others) =>
      match ← value kind with
      | some text =>
        let more ← options value passes others
        return (kind, text) :: more
      | none =>
        goTo save
        return []
    | none =>
      goTo save
      return []

end Options

/-- A user and a group with a colon between them. -/
def owner : Script (Option Text) := do
  let start ← position
  match ← attempt (word [':'] .written) with
  | some _ =>
    if ← eat [':'] then
      match ← attempt (word [] .written) with
      | some _ =>
        let text ← slice start
        return some text
      | none => return none
    else
      return none
  | none => return none

/-- The value of a flag of a transfer. -/
def transferValue : Transfer.FlagKind → Script (Option Text)
  | .chown => owner
  | .origin => attempt (word [] .written)

/-- The value of a flag of a health check. -/
def settingValue (_ : Healthcheck.Setting) : Script (Option Text) := do
  skip
  attempt (word [] .written)

/-! ## Transfers -/

/-- Sources and destination as an array. -/
def arrayParts (passes : Nat) : Attempt (List Text × Text) := do
  let items ← array passes .doubleOnly
  match Transfer.divide (items.map (·.value)) with
  | some parts =>
    finish
    return parts
  | none => throw (.expected (← position) .sourceAndDestination)

/-- Paths up to the end. -/
def paths : (passes : Nat) → Attempt (List Text)
  | 0 => exhausted
  | passes + 1 => do
    let first ← path (passes + 1)
    skip
    if ← atEnd then
      return [first]
    else
      let more ← paths passes
      return first :: more

/-- Sources and destination as paths. -/
def shellParts (passes : Nat) : Attempt (List Text × Text) := do
  let paths ← paths passes
  match Transfer.divide paths with
  | some parts => return parts
  | none => throw (.expected (← position) .path)

/-- Sources and destination in either form. -/
def parts (passes : Nat) : Attempt (List Text × Text) := do
  let start ← position
  match ← (liftM (arrayParts passes).run : Attempt (Except Failure (List Text × Text))) with
  | .ok parts => return parts
  | .error f =>
    goTo start
    match ← (liftM (shellParts passes).run : Attempt (Except Failure (List Text × Text))) with
    | .ok parts => return parts
    | .error g => throw (f.furthest g)

/-- The transfer of an argument. -/
def transfer (passes : Nat) : Attempt Transfer := do
  let found ← options transferValue passes Transfer.flags
  skip
  let (sources, destination) ← parts passes
  return { owner := found.lookup .chown, origin := found.lookup .origin, sources, destination }

/-! ## Other forms -/

/-- What follows the flags of a health check. -/
def check : Attempt (Option Text) := do
  let start ← position
  if ← eat (Text.ofString "NONE") then
    finish
    return none
  else if ← eat (Text.ofString "CMD") then
    match Healthcheck.readCommand (← rest) with
    | some command => return some command
    | none => throw (.expected start .noneOrCmd)
  else
    throw (.expected start .noneOrCmd)

/-- The health check of an argument. -/
def healthcheck (passes : Nat) : Attempt Healthcheck := do
  let found ← options settingValue passes Healthcheck.flags
  skip
  let command ← check
  return {
    interval := Healthcheck.Setting.valueIn found .interval
    timeout := Healthcheck.Setting.valueIn found .timeout
    startPeriod := Healthcheck.Setting.valueIn found .startPeriod
    retries := Healthcheck.Setting.valueIn found .retries
    command }

/-- The arguments of a command. -/
def command (passes : Nat) : Attempt (List Text) := do
  skip
  let start ← rest
  if start.head? = some '[' then
    let items ← array passes .any
    finish
    return items.map (·.value)
  else
    return [Text.trimRight start]

/-- A word, and directly behind it a separator and a second word, or neither. -/
def pair (sep : Char) : Attempt Pair := do
  skip
  let first ← word [sep] .written
  let save ← position
  if ← eat [sep] then
    match ← attempt (word [] .written) with
    | some second =>
      finish
      return ⟨first, some second⟩
    | none =>
      goTo save
      finish
      return ⟨first, none⟩
  else
    finish
    return ⟨first, none⟩

/-- The signal that makes up an argument. -/
def stopSignal : Attempt Text := do
  skip
  let signal ← word [] .written
  finish
  return signal

/-- The directory that makes up an argument. -/
def workdir (passes : Nat) : Attempt Text := do
  skip
  let path ← path passes
  finish
  return path

/-- The script of a form of argument. -/
def operand (passes : Nat) : Form → Attempt Operand
  | .assignments => do return .assignments (← assignments passes)
  | .command => do return .command (← command passes)
  | .healthcheck => do return .healthcheck (← healthcheck passes)
  | .image => do return .image (← image passes)
  | .maintainers => do return .maintainers (← maintainers passes)
  | .parameter => do
    let p ← pair '='
    return .parameter p.first p.second
  | .ports => do return .ports (← ports passes false)
  | .stopSignal => do return .stopSignal (← stopSignal)
  | .transfer => do return .transfer (← transfer passes)
  | .user => do
    let p ← pair ':'
    return .user p.first p.second
  | .workdir => do return .workdir (← workdir passes)

/-! ## Arguments -/

/-- The byte where an argument begins, behind a keyword and blanks. -/
def argumentOffset : Attempt Nat := do
  if Text.startsBlank (← rest) then
    skip
    position
  else
    throw (.expected (← position) .whitespace)

/-- The wrapped keyword, and the byte where its argument begins. -/
def trigger : Attempt (Text × Nat) := do
  skip
  let start ← position
  let text ← rest
  match Args.unwrappable.find? fun k => Text.startsWith k.text text with
  | some k => throw (.unwanted start k)
  | none =>
    let length := Text.bytes (text.takeWhile Char.isUpper)
    if length = 0 then
      throw (.expected start .keyword)
    else
      goTo (start + length)
      let word ← slice start
      let offset ← argumentOffset
      return (word, offset)

/-- A failure as it is reported, if the argument can be cut there. -/
def report (argument : Text) (f : Failure) : Option SyntaxFailure :=
  (f.column argument).map fun c => ⟨f.message, some c⟩

/-- The operand of an argument, by the script of its form. -/
def parseForm (passes : Nat) (f : Form) (argument : Text) :
    Option (Except SyntaxFailure Operand) :=
  match (operand passes f).run (Scanner.start argument) with
  | none => none
  | some (.ok operand, _) => some (.ok operand)
  | some (.error failure, _) => (report argument failure).map .error

/-- The argument of `ONBUILD`. The columns of the wrapped instruction are moved by what stands in
front of its argument. -/
def parseTrigger (passes : Nat) (argument : Text) : Option (Except SyntaxFailure Args) :=
  match trigger.run (Scanner.start argument) with
  | none => none
  | some (.error failure, _) => (report argument failure).map .error
  | some (.ok (word, offset), _) =>
    match Keyword.ofText? word with
    | none => some (.error ⟨Keyword.unknownMessage word, none⟩)
    | some k =>
      match k.form?, Text.splitByte argument offset with
      | some f, some (before, inner) =>
        (parseForm passes f inner).map fun
          | .ok operand => .ok (.onbuild (some word) (some (.ofOperand k operand)))
          | .error failure =>
            .error { failure with column := failure.column.map (· + before.length) }
      | _, _ => none

/-- The arguments of a keyword, by scripts whose loops may have `passes` rounds. -/
def parse (passes : Nat) (k : Keyword) (argument : Text) : Option (Except SyntaxFailure Args) :=
  match k.form? with
  | some f => (parseForm passes f argument).map fun outcome => outcome.map (.ofOperand k)
  | none => parseTrigger passes argument

end Grammar

end Dockerlint
