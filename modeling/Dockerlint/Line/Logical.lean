import Dockerlint.Error
import Dockerlint.Line.Segment
import Dockerlint.Text.Lines

/-!
# Logical lines

A logical line joins the segments of consecutive kept lines up to the first that does not
continue, and carries the number of that last physical line. Discarded lines are skipped, also
inside a continuation. A text that ends while a continuation is open has no logical lines.

## Main definitions

* `LogicalLine`: a text and the physical line it ends on
* `LogicalLine.extract`: the logical lines of a document
-/

namespace Dockerlint

/-- The text of one instruction. -/
structure LogicalLine where
  /-- The joined segments, trimmed. -/
  text : Text
  /-- The number, from 1, of the physical line that the logical line ends on. -/
  line : Nat
deriving DecidableEq, Repr

namespace LogicalLine

/-- The segments of a continuation that is still open. -/
structure Pending where
  /-- The joined segments so far. -/
  text : Text
  /-- The number of the last line that continues. -/
  line : Nat
deriving DecidableEq, Repr

/-- Joins the segments of the physical lines from number `n` on to a pending continuation. -/
def assemble (pending : Option Pending) (n : Nat) :
    List Text → Except Error (List LogicalLine)
  | [] =>
    match pending with
    | none => .ok []
    | some waiting => .error (.openContinuation waiting.line)
  | line :: rest =>
    if Line.isDiscarded line then assemble pending (n + 1) rest
    else
      let segment := Segment.scan line
      let text := (pending.elim [] (·.text)) ++ Text.trimLeft segment.text
      -- the blanks before a continuation marker stay, those behind it on the next line do not
      if segment.continues then assemble (some ⟨text, n⟩) (n + 1) rest
      else
        let text := Text.trimRight text
        if text = [] then assemble none (n + 1) rest
        else (assemble none (n + 1) rest).map (⟨text, n⟩ :: ·)

/-- The logical lines of a document. -/
def extract (content : Text) : Except Error (List LogicalLine) :=
  assemble none 1 (Text.lines content)

end LogicalLine

end Dockerlint
