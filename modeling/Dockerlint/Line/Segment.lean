import Dockerlint.Text.Blank

/-!
# Segments

A physical line that is blank or a comment is discarded. Any other line contributes a segment to
a logical line: its characters up to a comment or a continuation marker. A quoted span that
closes on the line is copied as it is, so nothing inside it starts a comment or a continuation. A
backslash with only spaces and tabs behind it is the continuation marker; any other backslash
keeps the next character that is neither space nor tab.

## Main definitions

* `Line.isDiscarded`: blank lines and comment lines
* `Segment.spanLength`: the length of a quoted span behind its opening quote
* `Segment.scan`: the segment of a line
-/

namespace Dockerlint

/-- Blank lines, and lines whose first character that is not blank opens a comment. -/
def Line.isDiscarded (line : Text) : Bool :=
  match Text.trimLeft line with
  | [] => true
  | c :: _ => c == '#'

/-- What a physical line contributes to a logical line. -/
structure Segment where
  /-- The characters before a comment or the continuation marker. -/
  text : Text
  /-- Whether the line ends in a continuation marker. -/
  continues : Bool
deriving DecidableEq, Repr

namespace Segment

/-- The number of characters up to the closing quote and with it, from the text behind the opening
quote; a backslash takes the next character with it. -/
def spanLength (q : Char) : Text → Option Nat
  | [] => none
  | '\\' :: _ :: rest => (spanLength q rest).map (· + 2)
  | c :: rest => if c = q then some 1 else (spanLength q rest).map (· + 1)

/-- The segment with a text in front. -/
def prepend (front : Text) (s : Segment) : Segment := { s with text := front ++ s.text }

/-- The characters that may stand between a backslash and what it escapes. -/
def isGap (c : Char) : Bool := c == ' ' || c == '\t'

/-- The segment of a line. -/
def scan (line : Text) : Segment :=
  match line with
  | [] => ⟨[], false⟩
  | c :: rest =>
    if c = '#' then ⟨[], false⟩
    else if c = '\\' then
      -- spaces and tabs between a backslash and what it escapes are dropped
      match _h : rest.dropWhile isGap with
      | [] => ⟨[], true⟩
      | next :: behind => (scan behind).prepend [c, next]
    else if c = '"' ∨ c = '\x27' then
      -- a quote that is never closed on the line is an ordinary character
      match spanLength c rest with
      | some n => (scan (rest.drop n)).prepend (c :: rest.take n)
      | none => (scan rest).prepend [c]
    else (scan rest).prepend [c]
termination_by line.length
decreasing_by
  all_goals simp only [List.length_cons, List.length_drop]
  · have := (List.dropWhile_suffix isGap (l := rest)).length_le
    rw [_h, List.length_cons] at this
    omega
  all_goals omega

end Segment

end Dockerlint
