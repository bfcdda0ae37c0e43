import Dockerlint.Text.Blank
import Dockerlint.Text.Quoted

/-!
# Words

A word is a quoted string in double quotes, or a run of characters that are neither blank nor
among given stops and that does not begin with a double quote. A reader that fails leaves the
text alone, and one that succeeds takes at least one character.

## Main definitions

* `Word`: a quoted or a bare word
* `Word.written`: the word as it stands in the text
* `Word.value`: the word without its quotes and escapes
* `Word.read`: the word that a text begins with
* `Word.readMany`: the words that a text begins with, blanks between them
* `Word.phrase`: words as written, with one space between them

## Main results

* `Word.read_eq_some`: a word and what follows it make up the text
* `Word.read_length_lt`: a word is not empty
-/

namespace Dockerlint

/-- A word of an argument. -/
inductive Word where
  | quoted (inner : Text)
  | bare (run : Text)
deriving DecidableEq, Repr

namespace Word

/-- The word as it stands in the text, quotes and escapes kept. -/
def written : Word → Text
  | .quoted inner => '"' :: (inner ++ ['"'])
  | .bare run => run

/-- What the word means: a quoted word without its quotes and escapes. -/
def value : Word → Text
  | .quoted inner => Quoted.unescape inner
  | .bare run => run

/-- The characters of a bare word that ends at `stops`. -/
def inRun (stops : List Char) (c : Char) : Bool := !isBlank c && !stops.contains c

/-- The bare word that a text begins with, not empty. -/
def readBare (stops : List Char) (t : Text) : Option (Word × Text) :=
  if t.takeWhile (inRun stops) = [] then none
  else some (.bare (t.takeWhile (inRun stops)), t.dropWhile (inRun stops))

/-- The word that a text begins with, and the text behind it. A double quote always opens a
quoted word, also where it is never closed. -/
def read (stops : List Char) (t : Text) : Option (Word × Text) :=
  if t.head? = some '"' then
    (Quoted.read .double t).map fun (inner, behind) => (.quoted inner, behind)
  else readBare stops t

theorem readBare_eq_some {stops : List Char} {t : Text} {w : Word} {rest : Text}
    (h : readBare stops t = some (w, rest)) : t = w.written ++ rest ∧ w.written ≠ [] := by
  unfold readBare at h
  split at h
  · simp at h
  · next hne =>
    obtain ⟨rfl, rfl⟩ := Prod.mk.inj (Option.some.inj h)
    exact ⟨by simp [written], hne⟩

theorem read_eq_some {stops : List Char} {t : Text} {w : Word} {rest : Text}
    (h : read stops t = some (w, rest)) : t = w.written ++ rest ∧ w.written ≠ [] := by
  unfold read at h
  split at h
  · obtain ⟨⟨inner, behind⟩, hq, hw⟩ := Option.map_eq_some_iff.1 h
    obtain ⟨rfl, rfl⟩ := Prod.mk.inj hw
    rw [Quoted.read_eq_some hq]
    simp [written, Quote.char]
  · exact readBare_eq_some h

theorem read_length_lt {stops : List Char} {t : Text} {w : Word} {rest : Text}
    (h : read stops t = some (w, rest)) : rest.length < t.length := by
  obtain ⟨rfl, hne⟩ := read_eq_some h
  have := List.length_pos_iff.2 hne
  simp only [List.length_append]
  omega

/-- The words that a text begins with, any blanks between them, and the text behind the last. -/
def readMany (stops : List Char) (t : Text) : List Word × Text :=
  match _h : read stops (Text.trimLeft t) with
  | none => ([], t)
  | some (w, rest) =>
    let (ws, behind) := readMany stops rest
    (w :: ws, behind)
termination_by t.length
decreasing_by
  have := read_length_lt _h
  have := Text.trimLeft_length_le t
  omega

theorem readMany_length_le (stops : List Char) (t : Text) :
    (readMany stops t).2.length ≤ t.length := by
  fun_induction readMany stops t with
  | case1 => exact Nat.le_refl _
  | case2 t w rest h ws behind heq ih =>
    have h₁ := read_length_lt h
    have h₂ := Text.trimLeft_length_le t
    rw [heq] at ih
    simp only at ih ⊢
    omega

/-- Words as written, with one space between them. -/
def phrase (ws : List Word) : Text := Text.join [' '] (ws.map written)

end Word

end Dockerlint
