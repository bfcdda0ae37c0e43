import Dockerlint.Mismatch
import Dockerlint.Text.Path

/-!
# Readers

The common parts of the argument grammars, with the mismatch that each of them reports. A reader
takes the text where its part should begin and returns the part with the text behind it.

## Main definitions

* `Reader.word`, `Reader.quoted`, `Reader.path`: a word, a quoted string, a path
* `Reader.array`: a bracketed list of quoted strings
* `Reader.finish`: a value at the end of an argument

## Main results

* `Reader.array_eq`: an array is an opening bracket and its elements
-/

namespace Dockerlint

/-- Which quotes the elements of an array may have. -/
inductive ElementQuotes where
  | any
  | doubleOnly
deriving DecidableEq, Repr

/-- An element of an array. -/
structure Element where
  /-- The quotes around the element. -/
  quote : Quote
  /-- The element without its quotes and escapes. -/
  value : Text
deriving DecidableEq, Repr

/-- The element as it is written in an array. -/
def Element.render (e : Element) : Text := Quoted.render e.quote e.value

namespace Reader

/-- A value with only blanks behind it. -/
def finish {α : Type} (a : α) (t : Text) : Except Mismatch α :=
  match Text.trimLeft t with
  | [] => .ok a
  | rest => .error (.expected .endOfText rest)

/-- A word that ends at blanks and at `stops`. -/
def word (stops : List Char) (t : Text) : Outcome Word :=
  Expectation.require (.word stops) t (Word.read stops t)

/-- The body of a string between two characters `q`. -/
def quoted (q : Char) (t : Text) : Outcome Text :=
  Expectation.require (.enclosed q) t (Quoted.between q t)

/-- A path. -/
def path (t : Text) : Outcome Text :=
  Expectation.require .path t (Path.read t)

/-- The quote that an element begins with, among those allowed. -/
def elementQuote (quotes : ElementQuotes) : Text → Option Quote
  | [] => none
  | c :: _ =>
    if c = Quote.double.char then some .double
    else if c = Quote.single.char ∧ quotes = .any then some .single
    else none

/-- What is expected at the beginning of an element. -/
def elementExpectation : ElementQuotes → Expectation
  | .any => .quotedString
  | .doubleOnly => .enclosed Quote.double.char

/-- The elements of an array up to the closing bracket, from the text behind the opening bracket
or a comma. -/
def elements (quotes : ElementQuotes) (t : Text) : Outcome (List Element) :=
  let start := Text.trimLeft t
  match elementQuote quotes start with
  | none => .error (.expected (elementExpectation quotes) start)
  | some q =>
    match _h : Quoted.read q start with
    | none => .error (.expected (.enclosed q.char) start)
    | some (inner, behind) =>
      let element : Element := ⟨q, Quoted.unescape inner⟩
      match _h' : Text.trimLeft behind with
      | ',' :: rest =>
        match elements quotes rest with
        | .ok (more, last) => .ok (element :: more, last)
        | .error m => .error m
      | ']' :: rest => .ok ([element], rest)
      | rest => .error (.expected .delimiter rest)
termination_by t.length
decreasing_by
  have h₁ := Quoted.read_length_lt _h
  have h₂ := Text.trimLeft_length_le behind
  have h₃ : start.length ≤ t.length := Text.trimLeft_length_le t
  rw [_h', List.length_cons] at h₂
  omega

/-- A bracketed, comma-separated list of quoted strings, not empty. -/
def array (quotes : ElementQuotes) : Text → Outcome (List Element)
  | [] => .error (.expected .openingBracket [])
  | c :: rest =>
    if c = '[' then elements quotes rest else .error (.expected .openingBracket (c :: rest))

theorem array_eq (quotes : ElementQuotes) (t : Text) :
    array quotes ('[' :: t) = elements quotes t := by
  simp [array]

/-- An array of the given elements. -/
def renderArray (es : List Element) : Text :=
  '[' :: (Text.join [',', ' '] (es.map Element.render) ++ [']'])

end Reader

end Dockerlint
