import Dockerlint.Json.Reader
import Dockerlint.Yaml.Page

/-!
# YAML tags, anchors and directives

A node can have a tag, which names its kind, and an anchor, by which it can be used again. A tag is
written in full between angle brackets, or as a handle and a suffix; the directives in front of a
document say what its handles stand for.

## Main definitions

* `Yaml.readAnchor`: the name of an anchor
* `Yaml.Tag`, `Yaml.readTag`: a tag as it is written
* `Yaml.Directive`, `Yaml.readDirective`: a directive
-/

namespace Dockerlint.Yaml

/-- The name of an anchor, from behind its mark. -/
def readAnchor (p : Page) : Option (Text × Page) :=
  let name := p.chars isNameChar
  let rest := p.past isNameChar
  if name ≠ [] ∧ (rest.atGap ∨ ['?', ':', ',', ']', '\x7d', '%', '@', '\x60'].any rest.nextIs) then
    some (name, rest)
  else none

section Tags

/-- A tag as it is written. A tag that is written in full has no handle. -/
structure Tag where
  handle : Text
  suffix : Text
deriving DecidableEq, Repr

/-- The marks that may stand in a tag. -/
def tagMarks : Text :=
  [';', '/', '?', ':', '@', '&', '=', '+', '$', '.', '%', '!', '~', '*', '\x27', '(', ')']

/-- The characters of a tag; commas and brackets only between angle brackets. -/
def isTagChar (verbatim : Bool) (c : Char) : Bool :=
  isNameChar c || tagMarks.contains c || (verbatim && [',', '[', ']'].contains c)

/-- The number of octets of a character that begins with the given octet. -/
def octetCount (n : Nat) : Option Nat :=
  if n < 0x80 then some 1
  else if n < 0xC0 then none
  else if n < 0xE0 then some 2
  else if n < 0xF0 then some 3
  else if n < 0xF8 then some 4
  else none

/-- The octet that a percent sign and two hexadecimal digits stand for. -/
def readOctet (p : Page) : Option (Nat × Page) :=
  match Page.text (List.take 3 p) with
  | ['%', a, b] =>
    match Json.hexDigit a, Json.hexDigit b with
    | some a, some b => some (a * 16 + b, p.drop 3)
    | _, _ => none
  | _ => none

/-- The given number of octets that continue a character. -/
def readOctets : (count : Nat) → Page → Option (Text × Page)
  | 0, p => some ([], p)
  | count + 1, p =>
    match readOctet p with
    | none => none
    | some (n, rest) =>
      if 0x80 ≤ n ∧ n < 0xC0 then
        (readOctets count rest).map fun (octets, behind) => (Char.ofNat n :: octets, behind)
      else none

/-- The octets of an escaped character. -/
def readEscapedOctets (p : Page) : Option (Text × Page) :=
  match readOctet p with
  | none => none
  | some (n, rest) =>
    match octetCount n with
    | none => none
    | some count =>
      (readOctets (count - 1) rest).map fun (octets, behind) => (Char.ofNat n :: octets, behind)

/-- The octets of a tag or of a part of it. -/
def readTagText (verbatim : Bool) : (fuel : Nat) → Page → Option (Text × Page)
  | 0, _ => none
  | _, [] => some ([], [])
  | fuel + 1, c :: rest =>
    if !isTagChar verbatim c.char then some ([], c :: rest)
    else
      match if c.char = '%' then readEscapedOctets (c :: rest) else some ([c.char], rest) with
      | none => none
      | some (octets, behind) =>
        (readTagText verbatim fuel behind).map fun (text, last) => (octets ++ text, last)

/-- What may be a handle: a name between two exclamation marks, of which the second may be
missing. -/
def readHandle (p : Page) : Option (Text × Page) :=
  if !p.nextIs '!' then none
  else
    let name := Page.chars isNameChar p.tail
    let rest := Page.past isNameChar p.tail
    if rest.nextIs '!' then some ('!' :: name ++ ['!'], rest.tail) else some ('!' :: name, rest)

/-- Whether a text is a handle with both exclamation marks. -/
def isHandle (t : Text) : Bool := 2 ≤ t.length && t.getLast? == some '!'

/-- A tag without the check of what follows it. -/
def readBareTag (fuel : Nat) (p : Page) : Option (Tag × Page) :=
  if Page.nextIs '<' p.tail then
    match readTagText true fuel (p.drop 2) with
    | none => none
    | some (text, rest) =>
      if text ≠ [] ∧ rest.nextIs '>' then some (⟨[], text⟩, rest.tail) else none
  else
    match readHandle p with
    | none => none
    | some (handle, rest) =>
      match readTagText false fuel rest with
      | none => none
      | some (text, rest) =>
        if isHandle handle then (if text = [] then none else some (⟨handle, text⟩, rest))
        else if handle.tail ++ text = [] then some (⟨[], ['!']⟩, rest)
        else some (⟨['!'], handle.tail ++ text⟩, rest)

/-- A tag, behind which a gap must stand, or in a flow collection a comma. -/
def readTag (inFlow : Bool) (fuel : Nat) (p : Page) : Option (Tag × Page) :=
  match readBareTag fuel p with
  | none => none
  | some (tag, rest) =>
    if rest.atGap ∨ (inFlow ∧ rest.nextIs ',') then some (tag, rest) else none

end Tags

section Directives

/-- A directive in front of a document. -/
inductive Directive where
  | version (major minor : Nat)
  | handle (name start : Text)
deriving DecidableEq, Repr

/-- A number of at most nine digits. -/
def readNumber (p : Page) : Option (Nat × Page) :=
  let digits := p.chars Char.isDigit
  if digits = [] ∨ 9 < digits.length then none
  else some (digits.foldl (fun n d => n * 10 + (d.toNat - 0x30)) 0, p.past Char.isDigit)

/-- The version of the language, from behind the name of its directive. -/
def readVersion (p : Page) : Option (Directive × Page) :=
  match readNumber (p.past isBlank) with
  | none => none
  | some (major, rest) =>
    if !rest.nextIs '.' then none
    else (readNumber rest.tail).map fun (minor, behind) => (.version major minor, behind)

/-- A handle and what it stands for, from behind the name of its directive. -/
def readHandleMeaning (fuel : Nat) (p : Page) : Option (Directive × Page) :=
  match readHandle (p.past isBlank) with
  | none => none
  | some (handle, rest) =>
    if !(isHandle handle || handle == ['!']) || (rest.chars isBlank).isEmpty then none
    else
      match readTagText true fuel (rest.past isBlank) with
      | none => none
      | some (start, behind) =>
        if start ≠ [] ∧ behind.atGap then some (.handle handle start, behind) else none

/-- A directive from behind its mark, and the page behind its line. -/
def readDirective (fuel : Nat) (p : Page) : Option (Directive × Page) :=
  let name := String.ofList (p.chars isNameChar)
  let rest := p.past isNameChar
  let found :=
    if !rest.atGap then none
    else if name = "YAML" then readVersion rest
    else if name = "TAG" then readHandleMeaning fuel rest
    else none
  match found with
  | none => none
  | some (directive, behind) => (Page.lineEnd? behind).map fun last => (directive, last.tail)

end Directives

end Dockerlint.Yaml
