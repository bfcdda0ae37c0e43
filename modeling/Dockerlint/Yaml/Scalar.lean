import Dockerlint.Json.Reader
import Dockerlint.Yaml.Page

/-!
# YAML scalars in a line of text

Scalars are written plainly or between quotes and may go over several lines. Line breaks inside
them are folded: one line feed is read as a space, and of several breaks all but the first are
kept. Blanks next to a break do not count.

## Main definitions

* `Yaml.Gap`: blanks and breaks between the words of a scalar
* `Yaml.readPlain`: a plain scalar
* `Yaml.readQuoted`: a scalar between quotes
-/

namespace Dockerlint.Yaml

section Gaps

/-- What stands between two words of a scalar. -/
structure Gap where
  /-- How the gap is read. -/
  text : Text
  /-- Whether the gap holds a break. -/
  broken : Bool
  /-- The page behind the gap. -/
  rest : Page

/-- How a break and the breaks behind it are read. A separator of lines or paragraphs is kept. -/
def foldBreaks (first : Char) (more : Text) : Text :=
  if first ≠ '\n' then first :: more
  else if more = [] then [' ']
  else more

example : foldBreaks '\n' [] = [' '] ∧ foldBreaks '\n' ['\n', '\n'] = ['\n', '\n'] := by decide

/-- The breaks among the blanks and breaks that a page begins with. -/
def breaksOf (p : Page) : Text := (p.chars isIdle).filter isBreak

/-- The gap that a page begins with. Behind a break, a tab before column `margin` is an error. -/
def readGap (margin : Nat) (p : Page) : Option Gap :=
  match p.past isBlank with
  | [] => some ⟨p.chars isBlank, false, []⟩
  | c :: rest =>
    if !isBreak c.char then some ⟨p.chars isBlank, false, c :: rest⟩
    else if (rest.takeWhile (isIdle ·.char)).any fun d => d.char == '\t' && d.column < margin then
      none
    else some ⟨foldBreaks c.char (breaksOf rest), true, Page.past isIdle rest⟩

end Gaps

section Plain

/-- Whether a plain scalar can begin here. -/
def startsPlain (inFlow : Bool) : Page → Bool
  | [] => false
  | c :: rest =>
    if c.char = '-' then !Page.atGap rest
    else if c.char = '?' ∨ c.char = ':' then !inFlow && !Page.atGap rest
    else !(isIdle c.char || isFlowIndicator c.char
      || ['#', '&', '*', '!', '|', '>', '\x27', '"', '%', '@', '\x60'].contains c.char)

/-- The characters that may not stand behind a colon in a flow collection. -/
def endsFlowColon (c : Char) : Bool := c == '?' || isFlowIndicator c

/-- The word of a plain scalar that a page begins with. A colon ends it before a gap; in a flow
collection a colon may not stand before an indicator. -/
def readWord (inFlow : Bool) : Page → Option (Text × Page)
  | [] => some ([], [])
  | c :: rest =>
    if isIdle c.char then some ([], c :: rest)
    else if c.char = ':' ∧ Page.atGap rest then some ([], c :: rest)
    else if inFlow ∧ isFlowIndicator c.char then some ([], c :: rest)
    else if inFlow ∧ c.char = ':' ∧ rest.head?.any (endsFlowColon ·.char) then none
    else (readWord inFlow rest).map fun (word, behind) => (c.char :: word, behind)

/-- A plain scalar and the page behind the gap that follows it. -/
structure Plain where
  text : Text
  /-- Whether the gap behind the scalar holds a break. -/
  broken : Bool
  rest : Page

/-- The words of a plain scalar. The gap before the first of them is read as `before` and holds a
break if `broken`. In a block, a line that begins before column `margin` does not belong to the
scalar. -/
def readWords (inFlow : Bool) (margin : Nat) :
    (fuel : Nat) → (before : Text) → (broken : Bool) → Page → Option Plain
  | 0, _, _, _ => none
  | fuel + 1, before, broken, p =>
    if p.atMarker || p.nextIs '#' then some ⟨[], broken, p⟩
    else
      match readWord inFlow p with
      | none => none
      | some ([], _) => some ⟨[], broken, p⟩
      | some (word, rest) =>
        if !rest.atGap then some ⟨before ++ word, false, rest⟩
        else
          match readGap margin rest with
          | none => none
          | some gap =>
            if !inFlow && gap.rest.head?.any (·.column < margin) then
              some ⟨before ++ word, gap.broken, gap.rest⟩
            else
              (readWords inFlow margin fuel gap.text gap.broken gap.rest).map fun more =>
                { more with text := before ++ word ++ more.text }

/-- A plain scalar. -/
def readPlain (inFlow : Bool) (margin fuel : Nat) (p : Page) : Option Plain :=
  readWords inFlow margin fuel [] false p

end Plain

section Quotes

/-- What a character stands for behind a backslash in double quotes. -/
def unescapeChar : Char → Option Char
  | '0' => some '\x00'
  | 'a' => some '\x07'
  | 'b' => some '\x08'
  | 't' => some '\t'
  | '\t' => some '\t'
  | 'n' => some '\n'
  | 'v' => some '\x0b'
  | 'f' => some '\x0c'
  | 'r' => some '\r'
  | 'e' => some '\x1b'
  | ' ' => some ' '
  | '"' => some '"'
  | '/' => some '/'
  | '\\' => some '\\'
  | 'N' => some (Char.ofNat 0x85)
  | '_' => some (Char.ofNat 0xA0)
  | 'L' => some (Char.ofNat 0x2028)
  | 'P' => some (Char.ofNat 0x2029)
  | _ => none

/-- The number of hexadecimal digits of an escaped code point. -/
def codeWidth : Char → Option Nat
  | 'x' => some 2
  | 'u' => some 4
  | 'U' => some 8
  | _ => none

/-- The code point that hexadecimal digits name. -/
def codePoint (digits : Text) : Option Char :=
  match digits.mapM Json.hexDigit with
  | none => none
  | some values =>
    let n := values.foldl (fun n d => n * 16 + d) 0
    if Nat.isValidChar n then some (Char.ofNat n) else none

example : codePoint ['0', '0', 'E', '9'] = some 'é' ∧ codePoint ['d', '8', '0', '0'] = none := by
  decide

/-- What an escape stands for, from behind its backslash. An escaped break is read as nothing, and
so are the blanks behind it. -/
def readEscape : Page → Option (Text × Page)
  | [] => none
  | c :: rest =>
    if isBreak c.char then some (breaksOf rest, Page.past isIdle rest)
    else
      match codeWidth c.char with
      | none => (unescapeChar c.char).map fun value => ([value], rest)
      | some width =>
        let digits := Page.text (rest.take width)
        if digits.length < width then none
        else (codePoint digits).map fun value => ([value], rest.drop width)

/-- A scalar from behind its opening quote, and the page behind its closing quote. Between single
quotes, a quote is written twice; between double quotes, a backslash escapes. -/
def readQuoted (quote : Char) : (fuel : Nat) → Page → Option (Text × Page)
  | 0, _ => none
  | _, [] => none
  | fuel + 1, c :: rest =>
    let goOn (piece : Text) (behind : Page) : Option (Text × Page) :=
      (readQuoted quote fuel behind).map fun (text, last) => (piece ++ text, last)
    if Page.atMarker (c :: rest) then none
    else if isIdle c.char then
      match readGap 0 (c :: rest) with
      | some gap => goOn gap.text gap.rest
      | none => none
    else if c.char = quote then
      if quote = '\x27' ∧ Page.nextIs quote rest then goOn [quote] rest.tail else some ([], rest)
    else if c.char = '\\' ∧ quote = '"' then
      match readEscape rest with
      | some (piece, behind) => goOn piece behind
      | none => none
    else goOn [c.char] rest

end Quotes

end Dockerlint.Yaml
