import Dockerlint.Text.Blank

/-!
# Maintainer entries

A maintainer is named in the form `name <address>`. Without angle brackets the whole entry is the
address, and the name is missing.

## Main definitions

* `Address.parse`: the name and the address of an entry
-/

namespace Dockerlint

/-- The parts of a maintainer entry. -/
structure Address where
  name : Text
  address : Text
deriving DecidableEq, Repr

namespace Address

/-- A text without the double quotes at its ends. -/
def stripQuotes (t : Text) : Text :=
  ((t.dropWhile (· == '"')).reverse.dropWhile (· == '"')).reverse

/-- The name and the address of an entry. -/
def parse (entry : Text) : Address :=
  let entry := Text.trim entry
  match Text.cut '<' entry with
  | none => ⟨[], entry⟩
  | some (name, rest) =>
    match Text.cut '>' rest with
    | none => ⟨[], entry⟩
    | some (address, _) => ⟨Text.trim (stripQuotes (Text.trim name)), Text.trim address⟩

/-- The number of parts that an entry lacks. -/
def missing (entry : Text) : Nat :=
  let parts := parse entry
  (if parts.name = [] then 1 else 0) + (if parts.address = [] then 1 else 0)

end Address

end Dockerlint
