import Dockerlint.Reader

/-!
# Pairs

The argument of `ARG` and of `USER`: a word, and directly behind it a separator and a second word,
or neither. Both words are kept as written. A separator with no word behind it does not belong to
the pair, and nothing but blanks may follow one.

## Main definitions

* `Pair.read`: a pair with a given separator
* `Pair.render`: a pair as it is written
-/

namespace Dockerlint

/-- A word and an optional second word. -/
structure Pair where
  /-- The part before the separator. -/
  first : Text
  /-- The part behind the separator. -/
  second : Option Text
deriving DecidableEq, Repr

namespace Pair

/-- The separator and the word behind it. -/
def readSecond (sep : Char) (t : Text) : Option (Word × Text) :=
  (Text.after [sep] t).bind (Word.read [])

/-- The pair that makes up an argument. -/
def read (sep : Char) (t : Text) : Except Mismatch Pair :=
  match Reader.word [sep] (Text.trimLeft t) with
  | .error m => .error m
  | .ok (w, rest) =>
    match readSecond sep rest with
    | some (v, behind) => Reader.finish ⟨w.written, some v.written⟩ behind
    | none => Reader.finish ⟨w.written, none⟩ rest

/-- A pair as it is written. -/
def render (sep : Char) (p : Pair) : Text :=
  p.first ++ p.second.elim [] (sep :: ·)

end Pair

end Dockerlint
