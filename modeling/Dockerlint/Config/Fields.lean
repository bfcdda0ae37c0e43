import Dockerlint.Error

/-!
# Fields of a configuration

The fields of a configuration are found by name among the entries of a mapping. A field that is
missing has its default, a field that stands twice is an error, and entries with other names are
ignored.

## Main definitions

* `Config.field`: a field of a configuration, read by a decoder
-/

namespace Dockerlint.Config

/-- The value of a field among some entries. -/
def field {m : Type → Type} [Alternative m] {α β : Type} (entries : List (Text × α))
    (name : String) (decode : α → m β) (default : β) : m β :=
  match entries.filter fun e => e.1 == name.toList with
  | [] => pure default
  | [e] => decode e.2
  | _ => failure

/-- A configuration that was read, or the error that its text is not of the expected form. -/
def require {α : Type} (found : Option α) : Except Error α :=
  match found with
  | some a => .ok a
  | none => .error (.serialization "the text is not of the expected form")

end Dockerlint.Config
