import Dockerlint.Yaml.Page

/-!
# YAML scalars in a block of lines

A block scalar consists of the lines behind its header that are indented. In a literal scalar the
lines are kept; in a folded scalar a break between two lines is read as a space, unless one of
them begins with a blank. The header can give the indentation and what becomes of the breaks at
the end.

## Main definitions

* `Yaml.Header`: how a block scalar is read
* `Yaml.readBlock`: a block scalar
-/

namespace Dockerlint.Yaml

/-- Which breaks at the end of a block scalar are kept. -/
inductive Chomp where
  | strip
  | clip
  | keep
deriving DecidableEq, Repr

/-- What the header of a block scalar says. -/
structure Header where
  chomp : Chomp := .clip
  /-- How much further than the block around it the scalar is indented. -/
  indent : Option Nat := none
deriving DecidableEq, Repr

section Headers

/-- What a sign says about the breaks at the end. -/
def chompOf : Char → Option Chomp
  | '+' => some .keep
  | '-' => some .strip
  | _ => none

/-- The sign that a page may begin with. -/
def readChomp : Page → Chomp × Page
  | [] => (.clip, [])
  | c :: rest =>
    match chompOf c.char with
    | some chomp => (chomp, rest)
    | none => (.clip, c :: rest)

/-- The digit that a page may begin with, which is not zero. -/
def readDigit : Page → Option (Option Nat × Page)
  | [] => some (none, [])
  | c :: rest =>
    if c.char = '0' then none
    else if c.char.isDigit then some (some (c.char.toNat - 0x30), rest)
    else some (none, c :: rest)

/-- A header: a sign and a digit in either order, and the page behind its line. -/
def readHeader (p : Page) : Option (Header × Page) :=
  let sign := readChomp p
  match readDigit sign.2 with
  | none => none
  | some (indent, p) =>
    let last := if sign.1 = .clip then readChomp p else (sign.1, p)
    (Page.lineEnd? last.2).map fun p => ({ chomp := last.1, indent }, p.tail)

end Headers

section Lines

/-- The breaks up to the next line that is not empty, the depth of the deepest line on the way,
and the page from that line's text on. Spaces before column `indent` are indentation, where a tab
is an error; if no column is given, all spaces are. -/
def readIndent (indent : Option Nat) : (deepest : Nat) → Page → Option (Text × Nat × Page)
  | deepest, [] => some ([], deepest, [])
  | deepest, c :: rest =>
    let inside := indent.all (c.column < ·)
    if inside && c.char == ' ' then readIndent indent deepest rest
    else if inside && c.char == '\t' then none
    else if isBreak c.char then
      (readIndent indent (max deepest c.column) rest).map fun (breaks, deepest, behind) =>
        (c.char :: breaks, deepest, behind)
    else some ([], max deepest c.column, c :: rest)

/-- How the break between two lines is read: `breaks` are the breaks behind it, and `blank` says
that one of the lines begins with a blank. -/
def joinLines (folded blank : Bool) (first breaks : Text) : Text :=
  if folded && first == ['\n'] && !blank then (if breaks = [] then [' '] else breaks)
  else first ++ breaks

/-- The breaks at the end that are kept. -/
def Chomp.apply (first breaks : Text) : Chomp → Text
  | .strip => []
  | .clip => first
  | .keep => first ++ breaks

/-- The lines of a block scalar that begin in column `indent`. `first` is the break of the line
before, which begins with a blank if `blank`, and `breaks` are those of the empty lines behind
it. -/
def readLines (folded : Bool) (chomp : Chomp) (indent : Nat) :
    (fuel : Nat) → (blank : Bool) → (first breaks : Text) → Page → Option (Text × Page)
  | 0, _, _, _, _ => none
  | fuel + 1, blank, first, breaks, p =>
    if !p.head?.any (·.column == indent) then some (chomp.apply first breaks, p)
    else
      let startsBlank := p.head?.any (isBlank ·.char)
      let joint := joinLines folded (blank || startsBlank) first breaks
      let line := p.chars (!isBreak ·)
      let rest := p.past (!isBreak ·)
      match readIndent (some indent) 0 rest.tail with
      | none => none
      | some (breaks, _, behind) =>
        (readLines folded chomp indent fuel startsBlank (Page.text (List.take 1 rest)) breaks
          behind).map fun (text, last) => (joint ++ line ++ text, last)

end Lines

/-- A block scalar from behind its mark. Its lines begin in the column that the header gives,
counted from the block around it, whose content begins in column `margin`, or in that of the
deepest of the lines up to the first one that is not empty. -/
def readBlock (folded : Bool) (margin fuel : Nat) (p : Page) : Option (Text × Page) :=
  match readHeader p with
  | none => none
  | some (header, p) =>
    let given := header.indent.map (margin - 1 + ·)
    match readIndent given 0 p with
    | none => none
    | some (breaks, deepest, p) =>
      let indent := given.getD (max (max deepest margin) 1)
      readLines folded header.chomp indent fuel false [] breaks p

end Dockerlint.Yaml
