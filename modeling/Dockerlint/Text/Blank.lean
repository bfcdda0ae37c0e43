import Dockerlint.Text.Basic

/-!
# Blanks

The blank characters are the code points with the Unicode property White_Space. Words end at
them, and lines, arguments and fields are trimmed of them.

## Main definitions

* `isBlank`: the blank characters
* `Text.trimLeft`, `Text.trimRight`, `Text.trim`: a text without its outer blanks
* `Text.startsBlank`: the texts that begin with a blank

## Main results

* `Text.trimLeft_length_le`: trimming never lengthens
* `Text.trimLeft_eq_self_iff`: the trimmed texts are those that do not begin with a blank
-/

namespace Dockerlint

/-- The code points with the property White_Space. -/
def isBlank (c : Char) : Bool :=
  let n := c.toNat
  (0x09 ≤ n && n ≤ 0x0D) || n == 0x20 || n == 0x85 || n == 0xA0 || n == 0x1680
    || (0x2000 ≤ n && n ≤ 0x200A) || n == 0x2028 || n == 0x2029 || n == 0x202F || n == 0x205F
    || n == 0x3000

example : isBlank (Char.ofNat 0x3000) ∧ ¬ isBlank (Char.ofNat 0x200B) ∧ ¬ isBlank '\x1c' := by
  decide

namespace Text

/-- A text without the blanks it begins with. -/
def trimLeft (t : Text) : Text := t.dropWhile isBlank

/-- A text without the blanks it ends with. -/
def trimRight (t : Text) : Text := (t.reverse.dropWhile isBlank).reverse

/-- A text without its outer blanks. -/
def trim (t : Text) : Text := trimRight (trimLeft t)

/-- Whether a text begins with a blank. -/
def startsBlank : Text → Bool
  | [] => false
  | c :: _ => isBlank c

@[simp] theorem trimLeft_nil : trimLeft [] = [] := rfl

theorem trimLeft_cons (c : Char) (t : Text) :
    trimLeft (c :: t) = if isBlank c then trimLeft t else c :: t := by
  simp only [trimLeft, List.dropWhile_cons]

theorem trimLeft_suffix (t : Text) : trimLeft t <:+ t := List.dropWhile_suffix isBlank

theorem trimLeft_length_le (t : Text) : (trimLeft t).length ≤ t.length :=
  (trimLeft_suffix t).length_le

theorem trimLeft_eq_self_iff {t : Text} : trimLeft t = t ↔ startsBlank t = false := by
  cases t with
  | nil => simp [startsBlank]
  | cons c t =>
    rw [trimLeft_cons, startsBlank]
    cases isBlank c with
    | true =>
      have := trimLeft_length_le t
      simp only [if_true, Bool.true_eq_false, iff_false]
      intro h
      rw [h, List.length_cons] at this
      omega
    | false => simp

end Text

end Dockerlint
