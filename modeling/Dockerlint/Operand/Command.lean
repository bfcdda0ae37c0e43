import Dockerlint.Reader

/-!
# Commands

The argument of `CMD`, `ENTRYPOINT`, `RUN`, `SHELL` and `VOLUME`: an array of quoted strings, or
any other text, which is then the only argument. A text that begins with a bracket is always read
as an array.

## Main definitions

* `Command.read`: the arguments of a command
* `Command.quoting`: how the elements of an array are quoted
-/

namespace Dockerlint.Command

/-- The arguments of a command. -/
def read (t : Text) : Except Mismatch (List Text) :=
  let start := Text.trimLeft t
  if start.head? = some '[' then
    match Reader.array .any start with
    | .error m => .error m
    | .ok (es, rest) => Reader.finish (es.map (·.value)) rest
  else .ok [Text.trimRight start]

/-- How the elements of an array are quoted. -/
inductive Quoting where
  /-- The text is no array. -/
  | notArray
  /-- Every element is in double quotes. -/
  | double
  /-- Some element is in single quotes. -/
  | single
deriving DecidableEq, Repr

/-- The array that makes up an argument, if it is one. -/
def readArray (t : Text) : Except Mismatch (List Element) :=
  match Reader.array .any (Text.trimLeft t) with
  | .error m => .error m
  | .ok (es, rest) => Reader.finish es rest

/-- How the elements of an argument are quoted. -/
def quoting (t : Text) : Quoting :=
  match readArray t with
  | .error _ => .notArray
  | .ok es => if es.all (·.quote == .double) then .double else .single

end Dockerlint.Command
