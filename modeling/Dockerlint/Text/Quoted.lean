import Dockerlint.Text.Basic

/-!
# Quoted strings

A quoted string stands between two equal quotes on one line. A backslash takes the next character
with it, so that an escaped quote does not close the string. The body is what stands between the
quotes; its value is the body with the escapes resolved: `\t`, `\n`, `\f` and `\r` name control
characters, and any other escaped character stands for itself.

## Main definitions

* `Quote`: the two quotes
* `Quoted.body`: the body behind an opening quote, and the text behind the closing one
* `Quoted.between`, `Quoted.read`: the same, with the opening quote in front
* `Quoted.unescape`: the value of a body
* `Quoted.render`: a quoted string with a given value

## Main results

* `Quoted.body_eq_some`: nothing is lost between the quotes
* `Quoted.unescape_escape`, `Quoted.read_render`: a rendered string is read back
-/

namespace Dockerlint

/-- The quotes that enclose a string. -/
inductive Quote where
  | single
  | double
deriving DecidableEq, Repr

/-- The character of a quote. -/
def Quote.char : Quote → Char
  | .single => '\x27'
  | .double => '"'

theorem Quote.char_ne_backslash (q : Quote) : q.char ≠ '\\' := by cases q <;> decide

namespace Quoted

/-- The body of a quoted string and the text behind its closing quote, from the text behind the
opening one. An unescaped line feed ends the search. -/
def body (q : Char) : Text → Option (Text × Text)
  | [] => none
  | '\\' :: c :: rest => (body q rest).map fun (inner, behind) => ('\\' :: c :: inner, behind)
  | c :: rest =>
    if c = '\n' then none
    else if c = q then some ([], rest)
    else (body q rest).map fun (inner, behind) => (c :: inner, behind)

/-- The body of the string between two characters `q` that a text begins with, and the text
behind it. A backslash always escapes, so it encloses nothing. -/
def between (q : Char) : Text → Option (Text × Text)
  | [] => none
  | c :: rest => if c = q ∧ q ≠ '\\' then body q rest else none

/-- The body of the quoted string that a text begins with, and the text behind it. -/
def read (q : Quote) (t : Text) : Option (Text × Text) := between q.char t

/-- The character that an escaped character stands for. -/
def unescapeChar : Char → Char
  | 't' => '\t'
  | 'n' => '\n'
  | 'f' => '\x0c'
  | 'r' => '\r'
  | c => c

/-- The value of a body; a backslash with nothing behind it stands for itself. -/
def unescape : Text → Text
  | [] => []
  | '\\' :: c :: rest => unescapeChar c :: unescape rest
  | c :: rest => c :: unescape rest

/-- How a character of a value is written between the quotes `q`. -/
def escapeChar (q : Quote) (c : Char) : Text :=
  if c = '\t' then ['\\', 't']
  else if c = '\n' then ['\\', 'n']
  else if c = '\x0c' then ['\\', 'f']
  else if c = '\r' then ['\\', 'r']
  else if c = '\\' ∨ c = q.char then ['\\', c]
  else [c]

/-- A body between the quotes `q` with a given value. -/
def escape (q : Quote) : Text → Text
  | [] => []
  | c :: rest => escapeChar q c ++ escape q rest

/-- The quoted string between the quotes `q` with a given value. -/
def render (q : Quote) (value : Text) : Text := q.char :: (escape q value ++ [q.char])

theorem body_eq_some {q : Char} {t inner behind : Text} (h : body q t = some (inner, behind)) :
    t = inner ++ q :: behind := by
  fun_induction body q t generalizing inner with
  | case1 => simp at h
  | case2 c rest ih =>
    obtain ⟨⟨i, b⟩, hb, hib⟩ := Option.map_eq_some_iff.1 h
    obtain ⟨rfl, rfl⟩ := Prod.mk.inj hib
    simp [ih hb]
  | case3 => simp at h
  | case4 rest => simp_all
  | case5 c rest _ _ _ ih =>
    obtain ⟨⟨i, b⟩, hb, hib⟩ := Option.map_eq_some_iff.1 h
    obtain ⟨rfl, rfl⟩ := Prod.mk.inj hib
    simp [ih hb]

theorem between_eq_some {q : Char} {t inner behind : Text}
    (h : between q t = some (inner, behind)) : t = q :: (inner ++ q :: behind) := by
  cases t with
  | nil => simp [between] at h
  | cons c rest =>
    rw [between] at h
    split at h
    · next hc => rw [body_eq_some h, hc.1]
    · simp at h

theorem read_eq_some {q : Quote} {t inner behind : Text} (h : read q t = some (inner, behind)) :
    t = q.char :: (inner ++ q.char :: behind) :=
  between_eq_some h

theorem read_length_lt {q : Quote} {t inner behind : Text} (h : read q t = some (inner, behind)) :
    behind.length < t.length := by
  rw [read_eq_some h]
  simp only [List.length_cons, List.length_append]
  omega

theorem body_escapeChar (q : Quote) (c : Char) (t : Text) :
    body q.char (escapeChar q c ++ t) =
      (body q.char t).map fun (inner, behind) => (escapeChar q c ++ inner, behind) := by
  unfold escapeChar
  split
  · rfl
  split
  · rfl
  split
  · rfl
  split
  · rfl
  split
  · rfl
  · next h₁ h₂ h₃ h₄ h₅ =>
    obtain ⟨h₅, h₆⟩ := not_or.1 h₅
    simp only [List.cons_append, List.nil_append]
    rw [body]
    · simp [h₂, h₆]
    · intro d r h
      simp_all

theorem body_escape (q : Quote) (value rest : Text) :
    body q.char (escape q value ++ q.char :: rest) = some (escape q value, rest) := by
  induction value with
  | nil => cases q <;> simp [escape, body, Quote.char]
  | cons c value ih =>
    rw [escape, List.append_assoc, body_escapeChar, ih]
    simp

theorem read_render (q : Quote) (value rest : Text) :
    read q (render q value ++ rest) = some (escape q value, rest) := by
  simp [render, read, between, q.char_ne_backslash, body_escape]

theorem unescape_escapeChar (q : Quote) (c : Char) (t : Text) :
    unescape (escapeChar q c ++ t) = c :: unescape t := by
  unfold escapeChar
  split
  · next h => simp [unescape, unescapeChar, h]
  split
  · next h => simp [unescape, unescapeChar, h]
  split
  · next h => simp [unescape, unescapeChar, h]
  split
  · next h => simp [unescape, unescapeChar, h]
  split
  · next h =>
    rcases h with rfl | rfl
    · simp [unescape, unescapeChar]
    · cases q <;> simp [unescape, unescapeChar, Quote.char]
  · next h =>
    obtain ⟨h₅, _⟩ := not_or.1 h
    simp only [List.cons_append, List.nil_append]
    rw [unescape]
    intro d r h
    simp_all

@[simp] theorem unescape_escape (q : Quote) (value : Text) :
    unescape (escape q value) = value := by
  induction value with
  | nil => rfl
  | cons c value ih => rw [escape, unescape_escapeChar, ih]

end Quoted

end Dockerlint
