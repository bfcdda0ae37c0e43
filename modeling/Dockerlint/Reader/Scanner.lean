import Dockerlint.Reader.Session
import Dockerlint.Text.Bytes

/-!
# The scanner

A scanner reads an argument by its bytes: it stands at one, cuts the argument there, and goes on by
the bytes of what it takes. What it read it keeps, by byte and part, together with the byte behind
it, and where the same part is asked for again it goes there without reading. Scripts say what to
read. A script gives nothing if it cuts the argument inside a character, or if a loop of it goes on
for more rounds than it may.

## Main definitions

* `Failure`: why a script stopped, and at which byte
* `Scanner`: an argument, a byte of it, and what was read
* `Script`, `Attempt`: what a scanner does, and what can also fail
* `Script.remember`: an attempt that is looked up, or made and kept
* `Script.word`, `Script.quoted`, `Script.path`, `Script.array`: the parts of an argument
-/

namespace Dockerlint

/-- Why a script stopped. -/
structure Failure where
  /-- The number of bytes before the failure. -/
  offset : Nat
  message : String
deriving DecidableEq, Repr

namespace Failure

/-- Something else was expected. -/
def expected (offset : Nat) (what : Expectation) : Failure := ⟨offset, "Expected " ++ what.name⟩

/-- A keyword stands where it may not. -/
def unwanted (offset : Nat) (keyword : Keyword) : Failure :=
  ⟨offset, "Found unwanted token, " ++ inDoubleQuotes keyword.name⟩

/-- The second failure if it is further on than the first, otherwise the first. -/
def furthest (f g : Failure) : Failure := if f.offset < g.offset then g else f

/-- The column of a failure, from 1, in an argument that can be cut there. -/
def column (argument : Text) (f : Failure) : Option Nat :=
  (Text.toByte argument (min f.offset (Text.bytes argument))).map fun before => before.length + 1

end Failure

/-- What a scanner keeps of a reading. -/
structure Recollection (k : Kind) where
  /-- The byte behind the part, or the one where it failed to begin. -/
  ending : Nat
  result : Except Failure k.Content

/-- What was read, by byte and part, the latest first. -/
abbrev Recollections (k : Kind) := List ((Nat × Part k) × Recollection k)

/-- A byte of a text, with what was read of the text. -/
structure Scanner where
  text : Text
  /-- The number of bytes before the scanner. -/
  offset : Nat
  texts : Recollections .text
  lists : Recollections .list

namespace Scanner

/-- A scanner at the beginning of a text, with nothing read. -/
def start (text : Text) : Scanner := ⟨text, 0, [], []⟩

/-- What was read of a kind. -/
def recollections (s : Scanner) : (k : Kind) → Recollections k
  | .text => s.texts
  | .list => s.lists

/-- The scanner that also keeps a reading. -/
def keep (s : Scanner) : {k : Kind} → (key : Nat × Part k) → (r : Recollection k) → Scanner
  | .text, key, r => { s with texts := (key, r) :: s.texts }
  | .list, key, r => { s with lists := (key, r) :: s.lists }

end Scanner

/-- What a scanner does; nothing is left of it where it cannot go on. -/
abbrev Script (α : Type) := StateT Scanner Option α

/-- What a scanner does with an outcome that may be a failure. -/
abbrev Attempt (α : Type) := ExceptT Failure (StateT Scanner Option) α

namespace Script

/-! ## Places -/

/-- The byte at which the scanner stands. -/
def position : Script Nat := fun s => some (s.offset, s)

/-- Goes to a byte. -/
def goTo (offset : Nat) : Script Unit := fun s => some ((), { s with offset })

/-- Goes on by a number of bytes. -/
def advance (n : Nat) : Script Unit := fun s => some ((), { s with offset := s.offset + n })

/-- What is left of the text. -/
def rest : Script Text := fun s => (Text.fromByte s.text s.offset).map (·, s)

/-- The text between two bytes. -/
def between (start stop : Nat) : Script Text := fun s =>
  (Text.slice s.text start stop).map (·, s)

/-- Whether nothing is left of the text. -/
def atEnd : Script Bool := fun s => some (decide (Text.bytes s.text ≤ s.offset), s)

/-- A loop that may not go on. -/
def exhausted {α : Type} : Script α := fun _ => none

/-- The text from a byte up to the scanner. -/
def slice (start : Nat) : Script Text := do between start (← position)

/-- Skips blanks. -/
def skip : Script Unit := do
  let rest ← rest
  advance (Text.bytes rest - Text.bytes (Text.trimLeft rest))

/-- Takes a text, if it comes next. -/
def eat (word : Text) : Script Bool := do
  if Text.startsWith word (← rest) then
    advance (Text.bytes word)
    return true
  else
    return false

/-- Takes a text, if it comes next, up to the case of ASCII letters. As many bytes are compared, if
the text can be cut behind them. -/
def eatCaseless (word : Text) : Script Bool := do
  match Text.toByte (← rest) (Text.bytes word) with
  | some head =>
    if Text.sameCaseless word head then
      advance (Text.bytes word)
      return true
    else
      return false
  | none => return false

/-- The outcome of an attempt that may fail. -/
def attempt {α : Type} (p : Attempt α) : Script (Option α) := do
  match ← p.run with
  | .ok a => return some a
  | .error _ => return none

/-- Skips blanks and requires the end of the text. -/
def finish : Attempt Unit := do
  skip
  if ← atEnd then
    return ()
  else
    throw (.expected (← position) .endOfText)

/-! ## Parts -/

/-- An attempt to read a part that is looked up, or made and kept. An attempt that fails leaves the
place. -/
def remember {k : Kind} (part : Part k) (p : Attempt k.Content) : Attempt k.Content :=
  ExceptT.mk fun s =>
    match (s.recollections k).lookup (s.offset, part) with
    | some found => some (found.result, { s with offset := found.ending })
    | none =>
      match p.run s with
      | none => none
      | some (.ok content, t) =>
        some (.ok content, t.keep (s.offset, part) ⟨t.offset, .ok content⟩)
      | some (.error f, t) =>
        some (.error f, { t with offset := s.offset }.keep (s.offset, part) ⟨s.offset, .error f⟩)

/-- The number of bytes before the closing quote, from the text behind the opening one. -/
def closeOffset (q : Char) : Text → Option Nat
  | [] => none
  | ['\\'] => none
  | '\\' :: c :: rest => (closeOffset q rest).map (Text.bytes ['\\', c] + ·)
  | c :: rest =>
    if c = '\n' then none
    else if c = q then some 0
    else (closeOffset q rest).map (c.utf8Size + ·)

/-- Reads a string between two characters `q`. -/
def quoted (q : Char) (taking : Taking) : Attempt Text := remember (.quoted q taking) do
  let start ← position
  if ← eat [q] then
    let opening ← position
    match closeOffset q (← rest) with
    | none => throw (.expected start (.enclosed q))
    | some n =>
      goTo (opening + n + q.utf8Size)
      match taking with
      | .value => return Quoted.unescape (← between opening (opening + n))
      | .written => slice start
  else
    throw (.expected start (.enclosed q))

/-- Reads a word. -/
def word (stops : List Char) (taking : Taking) : Attempt Text := remember (.word stops taking) do
  let start ← position
  let rest ← rest
  if rest.head? = some '"' then
    match ← attempt (quoted '"' taking) with
    | some text => return text
    | none => throw (.expected start (.word stops))
  else
    let length := Text.bytes (rest.takeWhile (Word.inRun stops))
    if length = 0 then
      throw (.expected start (.word stops))
    else
      advance length
      slice start

/-- Takes the words of a relative path behind its first one. -/
def pathWords : (passes : Nat) → Script Unit
  | 0 => exhausted
  | passes + 1 => do
    let save ← position
    if ← eat ['/'] then
      match ← attempt (word ['/'] .written) with
      | some _ => pathWords passes
      | none => goTo save
    else
      return ()

/-- Takes slashes. -/
def slashes : (passes : Nat) → Script Unit
  | 0 => exhausted
  | passes + 1 => do
    if ← eat ['/'] then slashes passes else return ()

/-- Takes a relative path, if there is one. -/
def relativePath (passes : Nat) : Script Bool := do
  match ← attempt (word ['/'] .written) with
  | some _ =>
    pathWords passes
    slashes passes
    return true
  | none => return false

/-- Reads a path. -/
def path (passes : Nat) : Attempt Text := remember .path do
  let start ← position
  if ← eat ['/'] then
    let _ ← relativePath passes
    slice start
  else if ← relativePath passes then
    slice start
  else
    throw (.expected start .path)

/-- Reads the elements of an array up to the closing bracket. -/
def elements (quotes : ElementQuotes) : (passes : Nat) → Attempt (List Element)
  | 0 => exhausted
  | passes + 1 => do
    skip
    let start ← position
    match Reader.elementQuote quotes (← rest) with
    | none => throw (.expected start (Reader.elementExpectation quotes))
    | some q =>
      let value ← quoted q.char .value
      skip
      if ← eat [','] then
        let more ← elements quotes passes
        return ⟨q, value⟩ :: more
      else if ← eat [']'] then
        return [⟨q, value⟩]
      else
        throw (.expected (← position) .delimiter)

/-- Reads an array. -/
def array (passes : Nat) (quotes : ElementQuotes) : Attempt (List Element) :=
  remember (.array quotes) do
    if ← eat ['['] then
      elements quotes passes
    else
      throw (.expected (← position) .openingBracket)

/-- Reads a part. -/
def read (passes : Nat) : {k : Kind} → (part : Part k) → Attempt k.Content
  | _, .word stops taking => word stops taking
  | _, .quoted q taking => quoted q taking
  | _, .path => path passes
  | _, .array quotes => array passes quotes

end Script

end Dockerlint
