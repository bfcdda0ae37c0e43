import Dockerlint.Proofs.Line.Runs

/-!
# Extraction by kept lines

Extraction goes through all physical lines and counts them, but it looks at the kept ones alone, and
at their numbers only to hand them on. So it is a function of the kept lines with their numbers, and
other numbers on the same lines give the same outcome with other numbers in it. Whatever changes a
document without changing its kept lines is seen in the numbers and nowhere else.

## Main definitions

* `Error.relined`, `LogicalLine.relined`: errors and logical lines on other lines
* `LogicalLine.gather`: the logical lines of kept lines

## Main results

* `Line.kept_append`, `Line.kept_add`: the kept lines of two pieces, and from another number on
* `LogicalLine.assemble_eq_gather`: extraction looks at the kept lines
* `LogicalLine.gather_relined`: numbers are handed on
* `LogicalLine.assemble_of_kept`: the same kept lines with other numbers
-/

namespace Dockerlint

/-- The error on another line. -/
def Error.relined (f : Nat → Nat) : Error → Error
  | .unknownInstruction word line => .unknownInstruction word (f line)
  | .malformed line reason => .malformed (f line) reason
  | e => e

namespace Line

theorem kept_append (n : Nat) (lines others : List Text) :
    kept n (lines ++ others) = kept n lines ++ kept (n + lines.length) others := by
  rw [kept, List.zipIdx_append, List.filter_append]
  rfl

/-- Counting from a number raised by `k` raises the numbers. -/
theorem kept_add (n k : Nat) (lines : List Text) :
    kept (n + k) lines = (kept n lines).map (Prod.map id (· + k)) := by
  rw [kept, Nat.add_comm n k, ← List.map_snd_add_zipIdx_eq_zipIdx, List.filter_map]
  rfl

end Line

namespace LogicalLine

/-- The logical line on another line. -/
def relined (f : Nat → Nat) (l : LogicalLine) : LogicalLine := { l with line := f l.line }

/-- The continuation with its last line on another line. -/
def Pending.relined (f : Nat → Nat) (p : Pending) : Pending := { p with line := f p.line }

/-- Joins the segments of kept lines to a pending continuation. -/
def gather (pending : Option Pending) : List (Text × Nat) → Except Error (List LogicalLine)
  | [] =>
    match pending with
    | none => .ok []
    | some waiting => .error (.openContinuation waiting.line)
  | (line, n) :: rest =>
    let text := (pending.elim [] (·.text)) ++ Line.piece line
    if Line.continues line then gather (some ⟨text, n⟩) rest
    else if Text.trimRight text = [] then gather none rest
    else (gather none rest).map (⟨Text.trimRight text, n⟩ :: ·)

/-- **Extraction looks at the kept lines** and their numbers, and at nothing else. -/
theorem assemble_eq_gather (pending : Option Pending) (n : Nat) (lines : List Text) :
    assemble pending n lines = gather pending (Line.kept n lines) := by
  induction lines generalizing pending n with
  | nil => rfl
  | cons line lines ih =>
    rw [assemble, Line.kept_cons]
    split
    · exact ih pending (n + 1)
    · rw [gather, ih none (n + 1)]
      simp only [ih (some _) (n + 1)]
      rfl

/-- **Numbers are handed on**: other numbers on the kept lines are other numbers in the outcome. -/
theorem gather_relined (f : Nat → Nat) (pending : Option Pending) (ks : List (Text × Nat)) :
    gather (pending.map (Pending.relined f)) (ks.map (Prod.map id f)) =
      ((gather pending ks).map (List.map (relined f))).mapError (Error.relined f) := by
  induction ks generalizing pending with
  | nil => cases pending <;> rfl
  | cons k ks ih =>
    obtain ⟨line, n⟩ := k
    have htext : (pending.map (Pending.relined f)).elim [] (·.text) =
        pending.elim [] (·.text) := by
      cases pending <;> rfl
    -- numbers have no part in the tests of a step
    rw [List.map_cons, Prod.map_apply, gather, gather, htext]
    simp only [id_eq]
    split
    · exact ih (some ⟨_, n⟩)
    · split
      · exact ih none
      · have hrest := ih none
        rw [Option.map_none] at hrest
        rw [hrest]
        cases gather none ks <;> rfl

/-- The same kept lines with other numbers have the same logical lines with other numbers. -/
theorem assemble_of_kept {f : Nat → Nat} {n m : Nat} {lines others : List Text}
    (h : Line.kept m others = (Line.kept n lines).map (Prod.map id f)) (pending : Option Pending) :
    assemble (pending.map (Pending.relined f)) m others =
      ((assemble pending n lines).map (List.map (relined f))).mapError (Error.relined f) := by
  rw [assemble_eq_gather, assemble_eq_gather, h, gather_relined]

end LogicalLine

end Dockerlint
