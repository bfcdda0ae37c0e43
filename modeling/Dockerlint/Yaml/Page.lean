import Dockerlint.Text.Basic

/-!
# Pages

A YAML document is read from a page: the characters of a text, each with its place. Indentation is
told by columns, and how far a key may reach is told by lines and offsets, so no reader has to
count.

## Main definitions

* `Yaml.Cell`, `Yaml.Page`: a character with its place, the characters of a text
* `Yaml.Page.ofText?`: the page of a text, if all its characters are allowed
* `Yaml.Page.atGap`, `Yaml.Page.atMarker`: what comes next
-/

namespace Dockerlint.Yaml

section Characters

/-- Spaces and tabs. -/
def isBlank (c : Char) : Bool := c == ' ' || c == '\t'

/-- The characters that end a line: line feeds, and the separators of lines and paragraphs. -/
def isBreak (c : Char) : Bool := c == '\n' || c.toNat == 0x2028 || c.toNat == 0x2029

/-- Blanks and breaks. -/
def isIdle (c : Char) : Bool := isBlank c || isBreak c

/-- The byte order mark. -/
def isOrderMark (c : Char) : Bool := c.toNat == 0xFEFF

/-- The characters that structure a flow collection. -/
def isFlowIndicator (c : Char) : Bool := [',', '[', ']', '\x7b', '\x7d'].contains c

/-- The characters of names: letters, digits, hyphens and underscores. -/
def isNameChar (c : Char) : Bool := c.isAlphanum || c == '-' || c == '_'

/-- The characters that a text may consist of. -/
def isAllowed (c : Char) : Bool :=
  let n := c.toNat
  n == 0x09 || n == 0x0A || n == 0x0D || (0x20 ≤ n && n ≤ 0x7E) || n == 0x85
    || (0xA0 ≤ n && n ≤ 0xFFFD) || 0x10000 ≤ n

/-- A text in which every line ends with a line feed, except at the separators of lines and
paragraphs. -/
def unifyBreaks : Text → Text
  | [] => []
  | '\r' :: '\n' :: rest => '\n' :: unifyBreaks rest
  | c :: rest => (if c = '\r' ∨ c.toNat = 0x85 then '\n' else c) :: unifyBreaks rest

end Characters

/-- A character and its place in a text. -/
structure Cell where
  char : Char
  /-- The number of lines before its line. -/
  line : Nat
  /-- The number of characters before it on its line. -/
  column : Nat
  /-- The number of bytes before it on its line. -/
  offset : Nat
deriving DecidableEq, Repr

/-- The characters of a text from some place on. -/
abbrev Page := List Cell

namespace Page

/-- The page of a text whose first character stands at the given place. -/
def place (line column offset : Nat) : Text → Page
  | [] => []
  | c :: rest =>
    ⟨c, line, column, offset⟩ ::
      (if isBreak c then place (line + 1) 0 0 rest
      else place line (column + 1) (offset + c.utf8Size) rest)

/-- The page of a text, if all its characters are allowed. -/
def ofText? (t : Text) : Option Page :=
  if t.all isAllowed then some (place 0 0 0 (unifyBreaks t)) else none

/-- The characters of a page. -/
def text (p : Page) : Text := p.map Cell.char

/-- Whether a given character comes next. -/
def nextIs (c : Char) : Page → Bool
  | [] => false
  | d :: _ => d.char == c

/-- Whether a blank, a break or the end comes next. -/
def atGap : Page → Bool
  | [] => true
  | c :: _ => isIdle c.char

/-- Whether a break or the end comes next. -/
def atLineEnd : Page → Bool
  | [] => true
  | c :: _ => isBreak c.char

/-- Whether a line begins here with three times the given character and a gap. -/
def atTriple (mark : Char) : Page → Bool
  | c :: p =>
    c.column == 0 && text ((c :: p).take 3) == [mark, mark, mark] && atGap (p.drop 2)
  | [] => false

/-- Whether the marker at the beginning or at the end of a document comes next. -/
def atMarker (p : Page) : Bool := atTriple '-' p || atTriple '.' p

/-- A page from behind the characters of the given kind. -/
def past (kind : Char → Bool) (p : Page) : Page := p.dropWhile fun c => kind c.char

/-- The characters of the given kind that come next. -/
def chars (kind : Char → Bool) (p : Page) : Text := text (p.takeWhile fun c => kind c.char)

/-- The page from the end of a line on which only blanks and a comment may stand. -/
def lineEnd? (p : Page) : Option Page :=
  let p := p.past isBlank
  let p := if p.nextIs '#' then p.past (!isBreak ·) else p
  if p.atLineEnd then some p else none

end Page

end Dockerlint.Yaml
