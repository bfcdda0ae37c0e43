import Dockerlint.Text.Basic

/-!
# JSON values

A JSON value keeps the order of the fields of an object and the literal of a number. It is written
with two spaces for each level of nesting; only quotes, backslashes and control characters are
escaped.

## Main definitions

* `Json`: a value
* `Json.render`: a value as text
-/

namespace Dockerlint

/-- A JSON value. -/
inductive Json where
  | null
  | bool (value : Bool)
  | number (literal : String)
  | string (value : Text)
  | array (items : List Json)
  | object (fields : List (String × Json))
deriving Repr

namespace Json

/-- The value of an integer. -/
def ofInt (n : Int) : Json := .number (toString n)

/-- The value of a list of texts. -/
def ofTexts (ts : List Text) : Json := .array (ts.map .string)

/-- The value of a list of messages. -/
def ofStrings (ss : List String) : Json := .array (ss.map fun s => .string s.toList)

/-- The value of something that may be absent. -/
def ofOption {α : Type} (f : α → Json) : Option α → Json
  | some a => f a
  | none => .null

/-- A control character as a code point in four hexadecimal digits. -/
def escapeControl (c : Char) : String :=
  let digits := Nat.toDigits 16 c.toNat
  "\\u" ++ String.ofList (List.replicate (4 - digits.length) '0' ++ digits)

/-- How a character is written in a string. -/
def escapeChar (c : Char) : String :=
  if c = '"' then "\\\""
  else if c = '\\' then "\\\\"
  else if c = '\x08' then "\\b"
  else if c = '\t' then "\\t"
  else if c = '\n' then "\\n"
  else if c = '\x0c' then "\\f"
  else if c = '\r' then "\\r"
  else if c.toNat < 0x20 then escapeControl c
  else String.singleton c

/-- A text as a string in quotes. -/
def renderString (t : Text) : String := "\"" ++ String.join (t.map escapeChar) ++ "\""

example : renderString ['"', '\\', '\x08', '\x1b', 'a'] = "\"\\\"\\\\\\b\\u001ba\"" := by decide

/-- A line break and the indentation of a level. -/
def newline (level : Nat) : String := "\n" ++ String.ofList (List.replicate (2 * level) ' ')

mutual

/-- A value as text, at a level of nesting. -/
def renderAt (level : Nat) : Json → String
  | .null => "null"
  | .bool true => "true"
  | .bool false => "false"
  | .number literal => literal
  | .string value => renderString value
  | .array [] => "[]"
  | .array (item :: items) =>
    "[" ++ newline (level + 1) ++ renderAt (level + 1) item ++ renderItems (level + 1) items
      ++ newline level ++ "]"
  | .object [] => "\x7b\x7d"
  | .object ((name, value) :: fields) =>
    "\x7b" ++ newline (level + 1) ++ renderString name.toList ++ ": "
      ++ renderAt (level + 1) value ++ renderFields (level + 1) fields ++ newline level ++ "\x7d"

/-- The items behind the first one. -/
def renderItems (level : Nat) : List Json → String
  | [] => ""
  | item :: items => "," ++ newline level ++ renderAt level item ++ renderItems level items

/-- The fields behind the first one. -/
def renderFields (level : Nat) : List (String × Json) → String
  | [] => ""
  | (name, value) :: fields =>
    "," ++ newline level ++ renderString name.toList ++ ": " ++ renderAt level value
      ++ renderFields level fields

end

/-- A value as text. -/
def render (j : Json) : String := renderAt 0 j

end Json

end Dockerlint
