import Dockerlint.Keyword

/-!
# Mismatches

Why an argument does not fit the grammar of its keyword. A mismatch carries the text that was
left at the point of failure, which is a tail of the argument; its column counts from the
beginning of the argument. So a mismatch inside a wrapped instruction needs no shift: its tail is
also a tail of the whole argument.

## Main definitions

* `Expectation`: what a grammar looked for
* `Mismatch`: what stopped a grammar, and where
* `Mismatch.furthest`: of two mismatches, the one that got further
* `Mismatch.column`: the place of a mismatch in an argument
-/

namespace Dockerlint

/-- What a grammar looked for. -/
inductive Expectation where
  | word (stops : List Char)
  | enclosed (quote : Char)
  | quotedString
  | path
  | openingBracket
  | delimiter
  | endOfText
  | port
  | assignment
  | sourceAndDestination
  | noneOrCmd
  | keyword
  | whitespace
deriving DecidableEq, Repr

/-- A text between double quotes, for messages. -/
def inDoubleQuotes (s : String) : String := "\"" ++ s ++ "\""

/-- How an expectation is named in messages. -/
def Expectation.name : Expectation → String
  | .word [] => "word"
  | .word stops =>
    "word without the characters "
      ++ ", ".intercalate (stops.map fun c => inDoubleQuotes (String.singleton c))
  | .enclosed quote => String.join ["string enclosed in '", String.singleton quote, "'"]
  | .quotedString => "quoted string"
  | .path => "path"
  | .openingBracket => "\"[\""
  | .delimiter => "\",\" delimiter or \"]\""
  | .endOfText => "end of text"
  | .port => "port"
  | .assignment => "assignment or old style assignment"
  | .sourceAndDestination => "source and destination"
  | .noneOrCmd => "\"NONE\" or \"CMD\""
  | .keyword => "keyword"
  | .whitespace => "whitespace"

/-- Why an argument does not fit its grammar. -/
inductive Mismatch where
  /-- Something else was expected where `rest` begins. -/
  | expected (what : Expectation) (rest : Text)
  /-- A keyword that may not be wrapped stands where `rest` begins. -/
  | unwanted (keyword : Keyword) (rest : Text)
  /-- The wrapped instruction has no known keyword; this has no place. -/
  | unknownKeyword (word : Text)
deriving DecidableEq, Repr

namespace Mismatch

/-- The text left at the point of failure. -/
def rest? : Mismatch → Option Text
  | .expected _ rest => some rest
  | .unwanted _ rest => some rest
  | .unknownKeyword _ => none

/-- The second mismatch if it left less text than the first, otherwise the first. -/
def furthest (m n : Mismatch) : Mismatch :=
  match m.rest?, n.rest? with
  | some left, some right => if right.length < left.length then n else m
  | _, _ => m

/-- The column, from 1, in the argument where the mismatch occurred. -/
def column (argument : Text) (m : Mismatch) : Option Nat :=
  m.rest?.map fun rest => argument.length - rest.length + 1

/-- The wording of a mismatch, without its place. -/
def message : Mismatch → String
  | .expected what _ => String.join ["Expected ", what.name]
  | .unwanted keyword _ => String.join ["Found unwanted token, ", inDoubleQuotes keyword.name]
  | .unknownKeyword word => Keyword.unknownMessage word

end Mismatch

/-- The outcome of reading something at the beginning of a text: the value and the text behind
it, or a mismatch. -/
abbrev Outcome (α : Type) := Except Mismatch (α × Text)

/-- Outcomes are equal if they are of one kind and their values are equal. -/
instance decidableEqOutcome {ε α : Type} [DecidableEq ε] [DecidableEq α] :
    DecidableEq (Except ε α)
  | .ok a, .ok b => decidable_of_iff (a = b) ⟨congrArg _, Except.ok.inj⟩
  | .error d, .error e => decidable_of_iff (d = e) ⟨congrArg _, Except.error.inj⟩
  | .ok _, .error _ => isFalse nofun
  | .error _, .ok _ => isFalse nofun

/-- Takes a reader's result, or says what was expected at `rest`. -/
def Expectation.require {α : Type} (what : Expectation) (rest : Text) (found : Option α) :
    Except Mismatch α :=
  match found with
  | some a => .ok a
  | none => .error (.expected what rest)

theorem Expectation.require_eq_ok_iff {α : Type} {what : Expectation} {rest : Text}
    {found : Option α} {a : α} : what.require rest found = .ok a ↔ found = some a := by
  cases found with
  | none => exact ⟨nofun, nofun⟩
  | some b =>
    exact ⟨fun h => congrArg some (Except.ok.inj h), fun h => congrArg _ (Option.some.inj h)⟩

/-- A value that was mapped from an outcome comes from a value. -/
theorem exists_of_map_eq_ok {ε α β : Type} {f : α → β} {outcome : Except ε α} {b : β}
    (h : outcome.map f = .ok b) : ∃ a, outcome = .ok a ∧ f a = b := by
  cases outcome with
  | error e => cases h
  | ok a => exact ⟨a, rfl, Except.ok.inj h⟩

end Dockerlint
