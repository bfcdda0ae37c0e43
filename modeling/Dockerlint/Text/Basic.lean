/-!
# Text

Everything that is read from a document (lines, arguments, fields) is a list of characters, so
that reading is recursion on it. Texts are ordered like words in a dictionary, by code points.

## Main definitions

* `Text`: a list of characters
* `Text.split`: the pieces between the occurrences of a separator
* `Text.cut`: the parts before and after the first occurrence of a separator
* `Text.after`: what follows a given beginning
* `Text.firstIndex`: where a word occurs first
* `Text.upTo`: the part of a text that stands before one of its tails
* `Text.precedes`: the order of texts

## Main results

* `Text.cut_eq_some`, `Text.after_eq_some_iff`: the parts make up the text
* `Text.precedes_irrefl`, `Text.precedes_trans`, `Text.precedes_of_not`: the order is strict and
  total
-/

namespace Dockerlint

/-- The text of a document or of a part of it, as its characters. -/
abbrev Text := List Char

namespace Text

/-- The text of a word of this library. -/
abbrev ofString (s : String) : Text := s.toList

/-- Puts a character in front of the first piece of a cut text. -/
def consHead (c : Char) : List Text → List Text
  | [] => [[c]]
  | piece :: pieces => (c :: piece) :: pieces

/-- The pieces of a text between the occurrences of `sep`, empty pieces included. -/
def split (sep : Char) : Text → List Text
  | [] => [[]]
  | c :: rest => if c = sep then [] :: split sep rest else consHead c (split sep rest)

/-- The parts of a text before and after the first occurrence of `sep`, if it occurs. -/
def cut (sep : Char) : Text → Option (Text × Text)
  | [] => none
  | c :: rest =>
    if c = sep then some ([], rest)
    else (cut sep rest).map fun (before, behind) => (c :: before, behind)

/-- What follows `word` in a text that begins with it. -/
def after : (word : Text) → Text → Option Text
  | [], t => some t
  | _ :: _, [] => none
  | w :: word, c :: t => if w = c then after word t else none

/-- What follows `word` in a text that begins with it, up to the case of ASCII letters. -/
def afterCaseless : (word : Text) → Text → Option Text
  | [], t => some t
  | _ :: _, [] => none
  | w :: word, c :: t => if w.toLower = c.toLower then afterCaseless word t else none

/-- Whether a text begins with `word`. -/
def startsWith (word t : Text) : Bool := (after word t).isSome

/-- The index of the first occurrence of `word`. -/
def firstIndex (word : Text) : Text → Option Nat
  | [] => if word = [] then some 0 else none
  | c :: rest =>
    if startsWith word (c :: rest) then some 0 else (firstIndex word rest).map (· + 1)

/-- Equality up to the case of ASCII letters. -/
def sameCaseless (s t : Text) : Bool := s.map Char.toLower == t.map Char.toLower

/-- Texts joined by a separator. -/
def join (sep : Text) (ts : List Text) : Text := List.intercalate sep ts

/-- The part of `t` that stands before its tail `rest`. -/
def upTo (t rest : Text) : Text := t.take (t.length - rest.length)

/-- Whether a text comes before another: the first characters that differ decide by their code
points, and the beginning of a text comes before it. -/
def precedes : Text → Text → Bool
  | _, [] => false
  | [], _ :: _ => true
  | a :: s, b :: t => decide (a.toNat < b.toNat) || (a == b && precedes s t)

@[simp] theorem upTo_append (s rest : Text) : upTo (s ++ rest) rest = s := by
  simp [upTo]

theorem split_ne_nil (sep : Char) (t : Text) : split sep t ≠ [] := by
  cases t with
  | nil => simp [split]
  | cons c rest =>
    rw [split]
    split
    · simp
    · cases split sep rest <;> simp [consHead]

theorem cut_eq_some {sep : Char} {t before behind : Text} (h : cut sep t = some (before, behind)) :
    t = before ++ sep :: behind ∧ sep ∉ before := by
  induction t generalizing before with
  | nil => simp [cut] at h
  | cons c rest ih =>
    rw [cut] at h
    split at h
    · simp_all
    · next hc =>
      obtain ⟨⟨b, a⟩, hb, hab⟩ := Option.map_eq_some_iff.1 h
      obtain ⟨rfl, rfl⟩ := Prod.mk.inj hab
      obtain ⟨rfl, hn⟩ := ih hb
      exact ⟨rfl, by simp [hn, Ne.symm hc]⟩

theorem after_eq_some_iff {word t rest : Text} : after word t = some rest ↔ t = word ++ rest := by
  induction word generalizing t with
  | nil => simp [after]
  | cons w word ih =>
    cases t with
    | nil => simp [after]
    | cons c t =>
      by_cases hc : w = c
      · simp [after, hc, ih]
      · simp [after, hc, Ne.symm hc]

@[simp] theorem after_append (word rest : Text) : after word (word ++ rest) = some rest :=
  after_eq_some_iff.2 rfl

theorem precedes_irrefl (t : Text) : precedes t t = false := by
  induction t with
  | nil => rfl
  | cons c t ih => simp [precedes, ih]

theorem precedes_trans {r s t : Text} (hrs : precedes r s) (hst : precedes s t) :
    precedes r t := by
  induction r generalizing s t with
  | nil =>
    cases s with
    | nil => simp [precedes] at hrs
    | cons b s =>
      cases t with
      | nil => simp [precedes] at hst
      | cons c t => rfl
  | cons a r ih =>
    cases s with
    | nil => simp [precedes] at hrs
    | cons b s =>
      cases t with
      | nil => simp [precedes] at hst
      | cons c t =>
        simp only [precedes, Bool.or_eq_true, decide_eq_true_eq, Bool.and_eq_true,
          beq_iff_eq] at hrs hst ⊢
        rcases hrs with hab | ⟨rfl, hrs⟩
        · rcases hst with hbc | ⟨rfl, -⟩
          · exact .inl (Nat.lt_trans hab hbc)
          · exact .inl hab
        · rcases hst with hbc | ⟨rfl, hst⟩
          · exact .inl hbc
          · exact .inr ⟨rfl, ih hrs hst⟩

theorem precedes_of_not {s t : Text} (h : precedes s t = false) (hne : s ≠ t) :
    precedes t s := by
  induction s generalizing t with
  | nil =>
    cases t with
    | nil => exact absurd rfl hne
    | cons b t => simp [precedes] at h
  | cons a s ih =>
    cases t with
    | nil => rfl
    | cons b t =>
      simp only [precedes, Bool.or_eq_false_iff, decide_eq_false_iff_not, Nat.not_lt,
        Bool.and_eq_false_imp, beq_iff_eq] at h
      simp only [precedes, Bool.or_eq_true, decide_eq_true_eq, Bool.and_eq_true, beq_iff_eq]
      rcases Nat.lt_or_eq_of_le h.1 with hlt | heq
      · exact .inl hlt
      · obtain rfl : b = a := Char.toNat_inj.1 heq
        exact .inr ⟨rfl, ih (h.2 rfl) fun hst => hne (by rw [hst])⟩

end Text

end Dockerlint
