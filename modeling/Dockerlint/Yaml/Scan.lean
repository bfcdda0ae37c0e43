import Dockerlint.Yaml.Block
import Dockerlint.Yaml.Scalar
import Dockerlint.Yaml.Token

/-!
# Cutting a page into tokens

The tokens of a page are found from left to right, and the columns of the open block collections
tell which of them end before a token. That a token was the beginning of a key is known only at
the colon behind it, so the place of a token that may begin a key is remembered until then. A key
stands on one line, and its colon follows within 1024 bytes.

## Main definitions

* `Yaml.Scan`: how far a page has been cut, and what may come next
* `Yaml.Scan.readToken`: the next token
* `Yaml.Token.ofPage?`: the tokens of a page
-/

namespace Dockerlint.Yaml

/-- The place of a token that may begin a key. -/
structure KeyPlace where
  /-- The number of tokens before it. -/
  position : Nat
  line : Nat
  column : Nat
  offset : Nat
  /-- Whether nothing but a key can stand there. -/
  required : Bool
deriving Repr

/-- The number of bytes that a key may take. -/
def keyLimit : Nat := 1024

/-- Whether a key that begins at a place would reach too far at the given cell. -/
def KeyPlace.isStale (here : Cell) (k : KeyPlace) : Bool :=
  k.line < here.line || k.offset + keyLimit < here.offset

/-- How far a page has been cut into tokens. -/
structure Scan where
  page : Page
  /-- The tokens so far, the last one first. -/
  tokens : List Token := []
  /-- The number of the tokens so far. -/
  count : Nat := 0
  /-- The columns of the open block collections, the innermost first. -/
  columns : List Nat := []
  /-- The place in the innermost open collection where a key may have begun. -/
  place : Option KeyPlace := none
  /-- Such places in the collections around the open flow collections, the innermost first. -/
  outer : List (Option KeyPlace) := []
  /-- Whether the next token may begin a key. -/
  keyAllowed : Bool := true

namespace Scan

section State

/-- Whether a flow collection is open. -/
def inFlow (s : Scan) : Bool := !s.outer.isEmpty

/-- The first column that is further right than the innermost block collection. -/
def margin (s : Scan) : Nat :=
  match s.columns with
  | [] => 0
  | column :: _ => column + 1

/-- Adds a token. -/
def emit (t : Token) (s : Scan) : Scan :=
  { s with tokens := t :: s.tokens, count := s.count + 1 }

/-- Adds a token in front of the token at `position`. -/
def insert (position : Nat) (t : Token) (s : Scan) : Scan :=
  let behind := s.count - position
  { s with
    tokens := s.tokens.take behind ++ t :: s.tokens.drop behind
    count := s.count + 1 }

/-- Gives up the place where a key may have begun; an error if there must be a key. -/
def dropPlace (s : Scan) : Option Scan :=
  if s.place.any (·.required) then none else some { s with place := none }

/-- Remembers that the next token, at the given cell, may begin a key, if it may. In a block a key
is required in the column of the innermost collection. -/
def savePlace (here : Cell) (s : Scan) : Option Scan :=
  if s.keyAllowed then
    s.dropPlace.map fun s =>
      { s with
        place := some
          { position := s.count
            line := here.line
            column := here.column
            offset := here.offset
            required := !s.inFlow && s.margin == here.column + 1 } }
  else some s

/-- Gives up the place where a key may have begun if the key would reach too far at the given cell.
The places in the collections around are looked at when these go on. -/
def dropStale (here : Cell) (s : Scan) : Option Scan :=
  if s.place.any (·.isStale here) then s.dropPlace else some s

/-- Opens a block collection in front of the token at `position`, if its column is further right
than the innermost one. -/
def openBlock (kind : Collection) (column position : Nat) (s : Scan) : Scan :=
  if !s.inFlow && s.margin ≤ column then
    { s with columns := column :: s.columns }.insert position (.block kind)
  else s

/-- Closes the innermost block collections whose columns fulfil `p`. -/
def closeWhile (p : Nat → Bool) (s : Scan) : Scan :=
  let closed := s.columns.takeWhile p
  { s with
    tokens := closed.map (fun _ => .blockEnd) ++ s.tokens
    count := s.count + closed.length
    columns := s.columns.dropWhile p }

/-- Closes the block collections that a token in the given column does not belong to. -/
def closeBlocks (column : Nat) (s : Scan) : Scan :=
  if s.inFlow then s else s.closeWhile (column < ·)

/-- Closes all block collections. -/
def closeAll (s : Scan) : Scan := if s.inFlow then s else s.closeWhile fun _ => true

end State

section Tokens

/-- The page from the next token on, and whether that token may begin a key: in a block, the first
one of a line may. Where a key may begin, a tab does not separate tokens. A byte order mark at the
beginning of a line is skipped, but takes a column. -/
def skipIdle (inFlow comment keyAllowed : Bool) : Page → Bool × Page
  | [] => (keyAllowed, [])
  | c :: rest =>
    if isBreak c.char then skipIdle inFlow false (keyAllowed || !inFlow) rest
    else if comment then skipIdle inFlow true keyAllowed rest
    else if c.char = ' ' ∨ (c.char = '\t' ∧ (inFlow ∨ keyAllowed = false)) then
      skipIdle inFlow false keyAllowed rest
    else if c.char = '#' then skipIdle inFlow true keyAllowed rest
    else if c.column = 0 ∧ isOrderMark c.char then skipIdle inFlow false keyAllowed rest
    else (keyAllowed, c :: rest)

/-- The state from the next token on. -/
def skip (s : Scan) : Scan :=
  let (keyAllowed, page) := skipIdle s.inFlow false s.keyAllowed s.page
  { s with page, keyAllowed }

/-- A marker between documents, which closes everything. -/
def readMarker (t : Token) (s : Scan) : Option Scan :=
  s.closeAll.dropPlace.map fun s =>
    { s with page := s.page.drop 3, keyAllowed := false }.emit t

/-- A directive in front of a document. -/
def readDirectiveLine (fuel : Nat) (s : Scan) : Option Scan :=
  match s.closeAll.dropPlace, readDirective fuel s.page.tail with
  | some s, some (d, page) => some ({ s with page, keyAllowed := false }.emit (.directive d))
  | _, _ => none

/-- An opening bracket. -/
def readOpening (kind : Collection) (here : Cell) (s : Scan) : Option Scan :=
  (s.savePlace here).map fun s =>
    { s with
      page := s.page.tail
      place := none
      outer := s.place :: s.outer
      keyAllowed := true }.emit (.opening kind)

/-- A closing bracket. -/
def readClosing (kind : Collection) (s : Scan) : Option Scan :=
  s.dropPlace.map fun s =>
    { s with
      page := s.page.tail
      place := s.outer.head?.getD s.place
      outer := s.outer.tail
      keyAllowed := false }.emit (.closing kind)

/-- The comma of a flow collection. -/
def readComma (s : Scan) : Option Scan :=
  s.dropPlace.map fun s => { s with page := s.page.tail, keyAllowed := true }.emit .comma

/-- The hyphen of a block sequence. -/
def readItem (here : Cell) (s : Scan) : Option Scan :=
  if !s.inFlow && !s.keyAllowed then none
  else
    (s.openBlock .sequence here.column s.count).dropPlace.map fun s =>
      { s with page := s.page.tail, keyAllowed := true }.emit .item

/-- The question mark in front of a key. -/
def readKeyMark (here : Cell) (s : Scan) : Option Scan :=
  if !s.inFlow && !s.keyAllowed then none
  else
    (s.openBlock .mapping here.column s.count).dropPlace.map fun s =>
      { s with page := s.page.tail, keyAllowed := !s.inFlow }.emit .key

/-- The colon in front of a value. If a key may have begun before, it did; otherwise the colon
stands behind a key with a question mark, or behind no key. -/
def readColon (here : Cell) (s : Scan) : Option Scan :=
  match s.place with
  | some k =>
    let s := (s.insert k.position .key).openBlock .mapping k.column k.position
    some ({ s with page := s.page.tail, place := none, keyAllowed := false }.emit .value)
  | none =>
    if !s.inFlow && !s.keyAllowed then none
    else
      let s := s.openBlock .mapping here.column s.count
      some ({ s with page := s.page.tail, keyAllowed := !s.inFlow }.emit .value)

/-- A token that may begin a key, as a reader finds it behind its first character. -/
def readAtom (here : Cell) (read : Page → Option (Token × Page)) (s : Scan) : Option Scan :=
  match s.savePlace here, read s.page.tail with
  | some s, some (t, page) => some ({ s with page, keyAllowed := false }.emit t)
  | _, _ => none

/-- A plain scalar. Behind a break, the next token may begin a key. -/
def readPlainScalar (fuel : Nat) (here : Cell) (s : Scan) : Option Scan :=
  match s.savePlace here, readPlain s.inFlow s.margin fuel s.page with
  | some s, some plain =>
    let s := { s with page := plain.rest, keyAllowed := plain.broken }
    some (s.emit (.scalar .plain plain.text))
  | _, _ => none

/-- A block scalar. -/
def readBlockScalar (style : Style) (fuel : Nat) (s : Scan) : Option Scan :=
  match s.dropPlace, readBlock (style == .folded) s.margin fuel s.page.tail with
  | some s, some (text, page) =>
    some ({ s with page, keyAllowed := true }.emit (.scalar style text))
  | _, _ => none

/-- The next token, at the given cell. -/
def readToken (fuel : Nat) (here : Cell) (s : Scan) : Option Scan :=
  let c := here.char
  let beforeGap := Page.atGap s.page.tail
  if here.column = 0 ∧ c = '%' then s.readDirectiveLine fuel
  else if s.page.atTriple '-' then s.readMarker .documentStart
  else if s.page.atTriple '.' then s.readMarker .documentEnd
  else if c = '[' then s.readOpening .sequence here
  else if c = '\x7b' then s.readOpening .mapping here
  else if c = ']' then s.readClosing .sequence
  else if c = '\x7d' then s.readClosing .mapping
  else if c = ',' then s.readComma
  else if c = '-' ∧ beforeGap then s.readItem here
  else if c = '?' ∧ (s.inFlow ∨ beforeGap) then s.readKeyMark here
  else if c = ':' ∧ (s.inFlow ∨ beforeGap) then s.readColon here
  else if c = '*' then
    s.readAtom here fun p => (readAnchor p).map fun (name, rest) => (.reference name, rest)
  else if c = '&' then
    s.readAtom here fun p => (readAnchor p).map fun (name, rest) => (.anchor name, rest)
  else if c = '!' then
    s.readAtom here fun _ => (readTag s.inFlow fuel s.page).map fun (t, rest) => (.tag t, rest)
  else if c = '|' ∧ s.inFlow = false then s.readBlockScalar .literal fuel
  else if c = '>' ∧ s.inFlow = false then s.readBlockScalar .folded fuel
  else if c = '\x27' ∨ c = '"' then
    s.readAtom here fun p =>
      (readQuoted c fuel p).map fun (text, rest) => (.scalar .quoted text, rest)
  else if startsPlain s.inFlow s.page then s.readPlainScalar fuel here
  else none

/-- The tokens up to the end of the page. The fuel exceeds the length of the page, of which every
token takes a character. -/
def run : (fuel : Nat) → Scan → Option (List Token)
  | 0, _ => none
  | fuel + 1, s =>
    let s := s.skip
    match s.page with
    | [] => s.closeAll.dropPlace.map fun s => s.tokens.reverse
    | here :: _ =>
      match s.dropStale here with
      | none => none
      | some s =>
        match (s.closeBlocks here.column).readToken (fuel + 1) here with
        | none => none
        | some s => run fuel s

end Tokens

end Scan

/-- The tokens of a page. -/
def Token.ofPage? (p : Page) : Option (List Token) := Scan.run (p.length + 1) { page := p }

end Dockerlint.Yaml
