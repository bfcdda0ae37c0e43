import Dockerlint.Reader
import Dockerlint.Text.Table

/-!
# Assignments

The argument of `ENV` and of `LABEL`. In its usual form it is a sequence of `key=value`, where a
later value of a key replaces an earlier one and a value may be missing. If not even the first
word is followed by an equals sign, the argument is one assignment in the old style: a key, and
behind it the words of its value.

## Main definitions

* `Assignments.read`: the assignments of an argument
* `Assignments.valueOf`: the value of a key, exactly or up to the case of ASCII letters
* `Assignments.render`: assignments written with quotes
-/

namespace Dockerlint

/-- Values by key. -/
abbrev Assignments := Table Text

namespace Assignments

/-- The value behind an equals sign, which may be missing. -/
def readValue (t : Text) : Text × Text :=
  match Word.read [] t with
  | some (w, behind) => (w.value, behind)
  | none => ([], t)

theorem readValue_length_le (t : Text) : (readValue t).2.length ≤ t.length := by
  unfold readValue
  split
  · next h => exact Nat.le_of_lt (Word.read_length_lt h)
  · exact Nat.le_refl _

/-- The assignments `key=value` that a text begins with, and the text behind the last. -/
def readPairs (t : Text) : List (Text × Text) × Text :=
  match _h : Word.read ['='] (Text.trimLeft t) with
  | none => ([], t)
  | some (key, rest) =>
    match _h' : Text.after ['='] rest with
    | none => ([], t)
    | some behind =>
      let value := readValue behind
      let more := readPairs value.2
      ((key.value, value.1) :: more.1, more.2)
termination_by t.length
decreasing_by
  have h₁ := Word.read_length_lt _h
  have h₂ := Text.trimLeft_length_le t
  have h₃ := readValue_length_le behind
  rw [Text.after_eq_some_iff.1 _h', List.length_append] at h₁
  omega

/-- The assignment in the old style that a text begins with, and the text behind it. -/
def readOldStyle (t : Text) : Option ((Text × Text) × Text) :=
  match Word.read [] t with
  | none => none
  | some (key, rest) =>
    match Word.readMany [] rest with
    | ([], _) => none
    | (w :: ws, behind) => some ((key.value, Word.phrase (w :: ws)), behind)

/-- The assignments of an argument. -/
def read (t : Text) : Except Mismatch Assignments :=
  let start := Text.trimLeft t
  match readPairs start with
  | (p :: ps, rest) => Reader.finish (Table.ofList (p :: ps)) rest
  | ([], _) =>
    -- the old style is an alternative only while no assignment was read
    match readOldStyle start with
    | some (p, rest) => Reader.finish (Table.ofList [p]) rest
    | none => .error (.expected .assignment start)

/-- Whether the case of ASCII letters counts in the comparison of keys. -/
inductive KeyCase where
  | exact
  | ignored
deriving DecidableEq, Repr

/-- The value of a key. Where case is ignored, the first of the matching keys counts. -/
def valueOf (a : Assignments) (key : Text) : KeyCase → Option Text
  | .exact => a.find? key
  | .ignored => (a.entries.find? fun e => Text.sameCaseless e.1 key).map (·.2)

/-- Assignments with keys and values in double quotes, one space between them. -/
def render (pairs : List (Text × Text)) : Text :=
  Text.join [' '] (pairs.map fun (key, value) =>
    Quoted.render .double key ++ '=' :: Quoted.render .double value)

end Assignments

end Dockerlint
