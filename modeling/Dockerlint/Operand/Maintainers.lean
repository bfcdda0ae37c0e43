import Dockerlint.Reader

/-!
# Maintainers

The argument of `MAINTAINER`: entries, separated by commas. An entry is one or more words; it is
kept as its words, as written, with one space between them.

## Main definitions

* `Maintainers.read`: the entries of an argument
-/

namespace Dockerlint.Maintainers

/-- The entries of an argument, at least one. -/
def read (t : Text) : Except Mismatch (List Text) :=
  let start := Text.trimLeft t
  match _h : Word.read [','] start with
  | none => .error (.expected (.word [',']) start)
  | some (w, rest) =>
    let more := Word.readMany [','] rest
    let entry := Word.phrase (w :: more.1)
    match _h' : Text.after [','] (Text.trimLeft more.2) with
    | none => Reader.finish [entry] more.2
    | some behind => (read behind).map (entry :: ·)
termination_by t.length
decreasing_by
  have h₁ := Word.read_length_lt _h
  have h₂ : start.length ≤ t.length := Text.trimLeft_length_le t
  have h₃ : more.2.length ≤ rest.length := Word.readMany_length_le [','] rest
  have h₄ := Text.trimLeft_length_le more.2
  rw [Text.after_eq_some_iff.1 _h', List.length_append] at h₄
  simp only [List.length_cons, List.length_nil] at h₄
  omega

end Dockerlint.Maintainers
