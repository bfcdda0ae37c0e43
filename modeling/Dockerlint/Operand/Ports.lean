import Dockerlint.Reader

/-!
# Ports

The argument of `EXPOSE`: ports, separated by blanks. A port is a number or a range of two
numbers, with an optional protocol behind a slash. The ports are kept as written.

## Main definitions

* `Ports.isPort`: the form of a port
* `Ports.read`: the ports of an argument
-/

namespace Dockerlint.Ports

/-- A number: decimal digits, at least one. -/
def isNumber (t : Text) : Bool := !t.isEmpty && t.all Char.isDigit

/-- A number, or two numbers with a hyphen between them. -/
def isRange (t : Text) : Bool :=
  match Text.cut '-' t with
  | some (low, high) => isNumber low && isNumber high
  | none => isNumber t

/-- The name of a protocol: ASCII letters, at least one. -/
def isProtocol (t : Text) : Bool := !t.isEmpty && t.all Char.isAlpha

/-- A number or a range, with an optional protocol behind a slash. -/
def isPort (t : Text) : Bool :=
  match Text.cut '/' t with
  | some (range, protocol) => isRange range && isProtocol protocol
  | none => isRange t

example : isPort "8000-8010/tcp".toList ∧ ¬ isPort "80/".toList ∧ ¬ isPort "-80".toList := by
  decide

/-- The ports of an argument, at least one. -/
def read (t : Text) : Except Mismatch (List Text) :=
  let start := Text.trimLeft t
  match _h : Word.read [] start with
  | none => .error (.expected (.word []) start)
  | some (w, rest) =>
    if isPort w.written then
      if Text.trimLeft rest = [] then .ok [w.written]
      else (read rest).map (w.written :: ·)
    else .error (.expected .port start)
termination_by t.length
decreasing_by
  have h₁ := Word.read_length_lt _h
  have h₂ : start.length ≤ t.length := Text.trimLeft_length_le t
  omega

end Dockerlint.Ports
