import Dockerlint.Text.Basic

/-!
# Physical lines

A line feed ends a physical line, and one carriage return directly before it belongs to the line
ending. Text after the last line feed is a line of its own if there is any; a carriage return
that no line feed follows is an ordinary character.

## Main definitions

* `Text.lines`: the physical lines of a text
-/

namespace Dockerlint.Text

/-- The physical lines of a text, without their endings. -/
def lines : Text → List Text
  | [] => []
  | '\n' :: rest => [] :: lines rest
  | '\r' :: '\n' :: rest => [] :: lines rest
  | c :: rest => consHead c (lines rest)

example : lines "a\r\n\nb\r".toList = ["a".toList, [], "b\r".toList] := by decide

end Dockerlint.Text
