import Dockerlint.Args
import Dockerlint.Stage

/-!
# Instructions

An instruction is a keyword and an argument on a line of a document. Its argument is read by the
grammar of the keyword; a mismatch is recorded as a syntax error, and then every attribute is
absent.

## Main definitions

* `Instruction`: keyword, argument, line, stage, arguments and syntax errors
* `Instruction.parse`: the instruction with a given keyword and argument
* `Instruction.Parsed`: an instruction that was read from its own argument, on its own line

## Main results

* `Instruction.Parsed.outcome`: the argument fits, or everything is absent and there is one error
* `Instruction.Parsed.keyword_args`: arguments are tagged with the keyword of their instruction
-/

namespace Dockerlint

/-- An instruction of a document. -/
structure Instruction where
  keyword : Keyword
  /-- The text behind the keyword. -/
  argument : Text
  /-- The physical line that the instruction ends on. -/
  line : Nat
  /-- The stage that the instruction belongs to. -/
  stage : Stage
  /-- What the argument says. -/
  args : Args
  /-- Why the argument does not fit the grammar of the keyword. -/
  syntaxErrors : List String
deriving DecidableEq, Repr

namespace Instruction

/-- The wording of a mismatch in an argument, with its place where it has one. -/
def describe (keyword : Keyword) (argument : Text) (line : Nat) (m : Mismatch) : String :=
  let place :=
    match m.column argument with
    | some column =>
      String.join
        [" (at line ", toString line, ", position ", toString column, " of the argument)"]
    | none => ""
  String.join
    [keyword.name, " instruction with argument ", inDoubleQuotes (String.ofList argument),
      " is invalid: ", m.message, place]

/-- The arguments and the syntax errors that reading an argument gives. -/
def readArgument (keyword : Keyword) (argument : Text) (line : Nat) : Args × List String :=
  match Args.read keyword argument with
  | .ok args => (args, [])
  | .error m => (.empty keyword, [describe keyword argument line m])

/-- The instruction with a given keyword and argument, in no stage yet. -/
def parse (keyword : Keyword) (argument : Text) (line : Nat) : Instruction :=
  let found := readArgument keyword argument line
  { keyword, argument, line, stage := .beforeFirst, args := found.1, syntaxErrors := found.2 }

/-- Whether the argument fits the grammar of the keyword. -/
def isValid (i : Instruction) : Bool := i.syntaxErrors.isEmpty

/-- How an instruction is displayed. -/
def display (i : Instruction) : Text := i.keyword.text ++ ' ' :: i.argument

/-- The value of an attribute by its name. -/
def field? (i : Instruction) (name : String) : Option Field := i.args.field? name

/-- The value that an `ENV` or a `LABEL` assigns to a key. -/
def valueOf (i : Instruction) (key : Text) (mode : Assignments.KeyCase) : Option Text :=
  i.args.assignments?.bind (·.valueOf key mode)

/-- Whether an `ENV` or a `LABEL` assigns a key. -/
def containsKey (i : Instruction) (key : Text) (mode : Assignments.KeyCase) : Bool :=
  (i.valueOf key mode).isSome

/-- How the elements of the argument are quoted, read as an array. -/
def quoting (i : Instruction) : Command.Quoting := Command.quoting i.argument

/-! ## Instructions that were read -/

/-- An instruction that was read from its own argument on its own line, whatever its stage. -/
def Parsed (i : Instruction) : Prop :=
  i = { parse i.keyword i.argument i.line with stage := i.stage }

theorem parsed_parse (keyword : Keyword) (argument : Text) (line : Nat) (stage : Stage) :
    Parsed { parse keyword argument line with stage } := rfl

section Parsed

variable {i : Instruction}

theorem Parsed.staged (h : i.Parsed) (stage : Stage) : Parsed { i with stage } := by
  have hstaged := congrArg (fun j => { j with stage }) h
  exact hstaged

/-- **The argument fits, or everything is absent and there is one syntax error.** -/
theorem Parsed.outcome (h : i.Parsed) :
    (Args.read i.keyword i.argument = .ok i.args ∧ i.syntaxErrors = []) ∨
      ∃ m, Args.read i.keyword i.argument = .error m ∧ i.args = .empty i.keyword ∧
        i.syntaxErrors = [describe i.keyword i.argument i.line m] := by
  have hargs := congrArg (·.args) h
  have herrors := congrArg (·.syntaxErrors) h
  simp only [parse, readArgument] at hargs herrors
  cases hread : Args.read i.keyword i.argument with
  | ok args =>
    rw [hread] at hargs herrors
    exact .inl ⟨congrArg _ hargs.symm, herrors⟩
  | error m =>
    rw [hread] at hargs herrors
    exact .inr ⟨m, rfl, hargs, herrors⟩

/-- A valid instruction has the arguments that its argument is read as. -/
theorem Parsed.read_eq_iff (h : i.Parsed) {args : Args} :
    Args.read i.keyword i.argument = .ok args ↔ i.args = args ∧ i.isValid := by
  rcases h.outcome with ⟨hread, herrors⟩ | ⟨m, hread, -, herrors⟩
  · simp [hread, isValid, herrors]
  · simp [hread, isValid, herrors]

theorem Parsed.read_of_syntaxErrors (h : i.Parsed) (herrors : i.syntaxErrors = []) :
    Args.read i.keyword i.argument = .ok i.args :=
  h.read_eq_iff.2 ⟨rfl, List.isEmpty_iff.2 herrors⟩

theorem Parsed.args_of_syntaxErrors (h : i.Parsed) (herrors : i.syntaxErrors ≠ []) :
    i.args = .empty i.keyword := by
  rcases h.outcome with ⟨-, hnone⟩ | ⟨m, -, hargs, -⟩
  · exact absurd hnone herrors
  · exact hargs

/-- Arguments are tagged with the keyword of their instruction, also where they are absent. -/
theorem Parsed.keyword_args (h : i.Parsed) : i.args.keyword = i.keyword := by
  rcases h.outcome with ⟨hread, -⟩ | ⟨m, -, hargs, -⟩
  · exact Args.keyword_of_read hread
  · rw [hargs, Args.keyword_empty]

end Parsed

end Instruction

end Dockerlint
