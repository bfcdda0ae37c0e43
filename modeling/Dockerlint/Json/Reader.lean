import Dockerlint.Json.Basic

/-!
# Reading JSON

A text is read as one JSON value with only space around it. The grammar is strict: no comments, no
trailing commas, no leading zeros and no control characters in strings. An escaped half of a
surrogate pair without its other half is no character: a string that holds one, or an object that
has one in a name, is read as null.

## Main definitions

* `Json.parse`: the value of a text
-/

namespace Dockerlint.Json

/-- The characters that may stand between tokens. -/
def isSpace (c : Char) : Bool := c == ' ' || c == '\n' || c == '\t' || c == '\r'

/-- A text without the space it begins with. -/
def skipSpace (t : Text) : Text := t.dropWhile isSpace

section Numbers

/-- The digits that a text begins with, at least one. -/
def readDigits (t : Text) : Option (Text × Text) :=
  match t.takeWhile Char.isDigit with
  | [] => none
  | digits => some (digits, t.dropWhile Char.isDigit)

/-- The integer part of a number: zero alone, or digits that do not begin with zero. -/
def readInteger (t : Text) : Option (Text × Text) :=
  match readDigits t with
  | some ('0' :: _ :: _, _) => none
  | found => found

/-- A minus sign, if a text begins with one. -/
def readMinus : Text → Text × Text
  | '-' :: rest => (['-'], rest)
  | t => ([], t)

/-- A fraction, if a text begins with a point. -/
def readFraction : Text → Option (Text × Text)
  | '.' :: rest => (readDigits rest).map fun (digits, behind) => ('.' :: digits, behind)
  | t => some ([], t)

/-- A sign, if a text begins with one. -/
def readSign : Text → Text × Text
  | '-' :: rest => (['-'], rest)
  | '+' :: rest => (['+'], rest)
  | t => ([], t)

/-- An exponent, if a text begins with its mark. -/
def readExponent : Text → Option (Text × Text)
  | [] => some ([], [])
  | c :: rest =>
    if c = 'e' ∨ c = 'E' then
      let sign := readSign rest
      (readDigits sign.2).map fun (digits, behind) => (c :: (sign.1 ++ digits), behind)
    else some ([], c :: rest)

/-- A number. -/
def readNumber (t : Text) : Option (Json × Text) :=
  let minus := readMinus t
  match readInteger minus.2 with
  | none => none
  | some (integer, t) =>
    match readFraction t with
    | none => none
    | some (fraction, t) =>
      (readExponent t).map fun (exponent, behind) =>
        (.number (String.ofList (minus.1 ++ integer ++ fraction ++ exponent)), behind)

end Numbers

section Strings

/-- The value of a hexadecimal digit. -/
def hexDigit (c : Char) : Option Nat :=
  if c.isDigit then some (c.toNat - 0x30)
  else if 0x61 ≤ c.toNat ∧ c.toNat ≤ 0x66 then some (c.toNat - 0x61 + 10)
  else if 0x41 ≤ c.toNat ∧ c.toNat ≤ 0x46 then some (c.toNat - 0x41 + 10)
  else none

/-- The number of four hexadecimal digits. -/
def hexNumber (a b c d : Char) : Option Nat :=
  match hexDigit a, hexDigit b, hexDigit c, hexDigit d with
  | some a, some b, some c, some d => some (((a * 16 + b) * 16 + c) * 16 + d)
  | _, _, _, _ => none

/-- What a character stands for behind a backslash. -/
def unescapeChar : Char → Option Char
  | '"' => some '"'
  | '\\' => some '\\'
  | '/' => some '/'
  | 'b' => some '\x08'
  | 'f' => some '\x0c'
  | 'n' => some '\n'
  | 'r' => some '\r'
  | 't' => some '\t'
  | _ => none

/-- What a string is written of: characters, and the halves of surrogate pairs. -/
inductive Piece where
  | char (c : Char)
  | high (code : Nat)
  | low (code : Nat)

/-- What a code in four hexadecimal digits stands for. -/
def Piece.ofCode (n : Nat) : Piece :=
  if 0xD800 ≤ n ∧ n < 0xDC00 then .high n
  else if 0xDC00 ≤ n ∧ n < 0xE000 then .low n
  else .char (Char.ofNat n)

/-- The character of a surrogate pair. -/
def joinHalves (high low : Nat) : Char :=
  Char.ofNat (0x10000 + (high - 0xD800) * 0x400 + (low - 0xDC00))

example : joinHalves 0xD83D 0xDE00 = '😀' := by decide

/-- The text of some pieces, unless a half stands without its other half. -/
def joinPieces : List Piece → Option Text
  | [] => some []
  | .char c :: rest => (joinPieces rest).map (c :: ·)
  | .high a :: .low b :: rest => (joinPieces rest).map (joinHalves a b :: ·)
  | _ => none

/-- The pieces of a string from behind its opening quote, and the text behind its closing quote. -/
def readPieces : Text → Option (List Piece × Text)
  | '"' :: rest => some ([], rest)
  | '\\' :: 'u' :: a :: b :: c :: d :: rest =>
    match hexNumber a b c d with
    | some n => (readPieces rest).map fun (pieces, behind) => (.ofCode n :: pieces, behind)
    | none => none
  | '\\' :: c :: rest =>
    match unescapeChar c with
    | some value => (readPieces rest).map fun (pieces, behind) => (.char value :: pieces, behind)
    | none => none
  | c :: rest =>
    if c.toNat < 0x20 ∨ c = '\\' then none
    else (readPieces rest).map fun (pieces, behind) => (.char c :: pieces, behind)
  | [] => none

/-- The value of a string; one that is no text stands for no value. -/
def ofPieces (pieces : List Piece) : Json := ofOption .string (joinPieces pieces)

/-- The value of an object; one with a name that is no text stands for no value. -/
def ofFields (fields : List (List Piece × Json)) : Json :=
  ofOption .object (fields.mapM fun (pieces, value) =>
    (joinPieces pieces).map fun name => (String.ofList name, value))

end Strings

mutual

/-- The value that a text begins with, and the text behind it. -/
def readValue : (fuel : Nat) → Text → Option (Json × Text)
  | 0, _ => none
  | fuel + 1, t =>
    match t with
    | '"' :: rest => (readPieces rest).map fun (pieces, behind) => (ofPieces pieces, behind)
    | '[' :: rest =>
      match skipSpace rest with
      | ']' :: behind => some (.array [], behind)
      | rest => (readItems fuel rest).map fun (items, behind) => (.array items, behind)
    | '\x7b' :: rest =>
      match skipSpace rest with
      | '\x7d' :: behind => some (.object [], behind)
      | rest => (readFields fuel rest).map fun (fields, behind) => (ofFields fields, behind)
    | 't' :: 'r' :: 'u' :: 'e' :: behind => some (.bool true, behind)
    | 'f' :: 'a' :: 'l' :: 's' :: 'e' :: behind => some (.bool false, behind)
    | 'n' :: 'u' :: 'l' :: 'l' :: behind => some (.null, behind)
    | t => readNumber t

/-- The items of an array up to its closing bracket. -/
def readItems : (fuel : Nat) → Text → Option (List Json × Text)
  | 0, _ => none
  | fuel + 1, t =>
    match readValue fuel t with
    | none => none
    | some (item, rest) =>
      match skipSpace rest with
      | ',' :: rest =>
        (readItems fuel (skipSpace rest)).map fun (items, behind) => (item :: items, behind)
      | ']' :: behind => some ([item], behind)
      | _ => none

/-- The fields of an object up to its closing brace. -/
def readFields : (fuel : Nat) → Text → Option (List (List Piece × Json) × Text)
  | 0, _ => none
  | fuel + 1, t =>
    match t with
    | '"' :: rest =>
      match readPieces rest with
      | none => none
      | some (name, rest) =>
        match skipSpace rest with
        | ':' :: rest =>
          match readValue fuel (skipSpace rest) with
          | none => none
          | some (value, rest) =>
            match skipSpace rest with
            | ',' :: rest =>
              (readFields fuel (skipSpace rest)).map fun (fields, behind) =>
                ((name, value) :: fields, behind)
            | '\x7d' :: behind => some ([(name, value)], behind)
            | _ => none
        | _ => none
    | _ => none

end

/-- The value of a text. A value takes at least one character, and so does the step from an item
or a field to the next, so twice the length bounds the depth of the reading. -/
def parse (t : Text) : Option Json :=
  match readValue (2 * t.length + 1) (skipSpace t) with
  | some (value, rest) => if skipSpace rest = [] then some value else none
  | none => none

end Dockerlint.Json
