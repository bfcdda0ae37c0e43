import Dockerlint.Text.Basic

/-!
# Errors

What can stop the reading of a document or a configuration, or a lint run. A mismatch of an
argument with its grammar is not among them: it is recorded on the instruction.

## Main definitions

* `Error`: the causes
* `Error.message`: their wording
-/

namespace Dockerlint

/-- Why a document or a configuration cannot be used, or why a lint run fails. -/
inductive Error where
  /-- A logical line begins with a word that is no keyword. -/
  | unknownInstruction (word : Text) (line : Nat)
  /-- The text cannot be split into logical lines. -/
  | malformed (line : Nat) (reason : String)
  /-- Linting found errors, and the configuration asks to fail on them. -/
  | lintingFailed (errors warnings : List String)
  /-- There is no regular file at the path. -/
  | notFound (path : Text)
  /-- The file cannot be read. -/
  | unreadable (reason : String)
  /-- A configuration text is not of the expected form. -/
  | serialization (reason : String)
  /-- A configuration cannot be used. -/
  | configuration (reason : String)
deriving DecidableEq, Repr

namespace Error

/-- The text ends while a continuation is still open. -/
def openContinuation (line : Nat) : Error :=
  .malformed line "input ends inside a line continuation"

/-- The bytes of a file are not the UTF-8 encoding of a text. -/
def notText : Error := .unreadable "stream did not contain valid UTF-8"

/-- The wording of an error. -/
def message : Error → String
  | .unknownInstruction word line =>
    "Unknown instruction '" ++ String.ofList word ++ "' at line " ++ toString line
  | .malformed line reason =>
    "Dockerfile parse error at line " ++ toString line ++ ": " ++ reason
  | .lintingFailed errors _ =>
    "Linting failed with " ++ toString errors.length ++ " error(s)"
  | .notFound path => "Dockerfile not found: " ++ String.ofList path
  | .unreadable reason => "I/O error: " ++ reason
  | .serialization reason => "Serialization error: " ++ reason
  | .configuration reason => "Configuration error: " ++ reason

end Error

end Dockerlint
