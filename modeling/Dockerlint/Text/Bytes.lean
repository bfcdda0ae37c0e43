import Dockerlint.Text.Basic

/-!
# The bytes of a text

A place in a text can be given as the number of bytes before it, in UTF-8. Not every number is a
place: a text can only be cut between characters. Cutting is therefore partial, and each cut gives
nothing where a character would be split.

## Main definitions

* `Text.bytes`: the number of bytes of a text
* `Text.IsBoundary`: the numbers of bytes that stand before a place between characters
* `Text.splitByte`, `Text.fromByte`, `Text.toByte`, `Text.slice`: cuts at bytes
* `Text.offset`: the byte at which a tail of a text begins

## Main results

* `Text.isBoundary_iff_isValid`: the boundaries are the valid positions of the string
* `Text.splitByte_eq_some_iff`: a cut gives the two parts of a text
* `Text.offset_lt_iff`: tails begin the later, the shorter they are
* `Text.fromByte_offset`, `Text.slice_offset`: a text can be cut where a tail begins
-/

namespace Dockerlint.Text

/-- The number of bytes of a text. -/
def bytes : Text → Nat
  | [] => 0
  | c :: t => c.utf8Size + bytes t

/-- The numbers of bytes that stand before a place between characters, or at an end. -/
def IsBoundary (t : Text) (n : Nat) : Prop := ∃ before rest, t = before ++ rest ∧ n = bytes before

/-- The parts of a text before and behind its first `n` bytes, unless a character is cut there. -/
def splitByte : Text → (n : Nat) → Option (Text × Text)
  | t, 0 => some ([], t)
  | [], _ + 1 => none
  | c :: t, n + 1 =>
    if c.utf8Size ≤ n + 1 then
      (splitByte t (n + 1 - c.utf8Size)).map fun (before, rest) => (c :: before, rest)
    else none

/-- The text from a byte on. -/
def fromByte (t : Text) (start : Nat) : Option Text := (splitByte t start).map (·.2)

/-- The text up to a byte. -/
def toByte (t : Text) (stop : Nat) : Option Text := (splitByte t stop).map (·.1)

/-- The text between two bytes. -/
def slice (t : Text) (start stop : Nat) : Option Text :=
  if start ≤ stop then (fromByte t start).bind fun rest => toByte rest (stop - start) else none

/-- The byte of `t` at which its tail `rest` begins. -/
def offset (t rest : Text) : Nat := bytes t - bytes rest

@[simp] theorem bytes_nil : bytes [] = 0 := rfl

@[simp] theorem bytes_cons (c : Char) (t : Text) : bytes (c :: t) = c.utf8Size + bytes t := rfl

@[simp] theorem bytes_append (s t : Text) : bytes (s ++ t) = bytes s + bytes t := by
  induction s with
  | nil => rw [List.nil_append, bytes_nil, Nat.zero_add]
  | cons c s ih => rw [List.cons_append, bytes_cons, bytes_cons, ih, Nat.add_assoc]

theorem bytes_eq_zero_iff {t : Text} : bytes t = 0 ↔ t = [] := by
  cases t with
  | nil => simp
  | cons c t =>
    have := c.utf8Size_pos
    simp only [bytes_cons, reduceCtorEq, iff_false]
    omega

/-- The number of bytes is that of the string. -/
theorem utf8ByteSize_ofList (t : Text) : (String.ofList t).utf8ByteSize = bytes t := by
  induction t with
  | nil => rfl
  | cons c t ih =>
    have hsplit : String.ofList (c :: t) = String.singleton c ++ String.ofList t := by
      rw [String.singleton_eq_ofList, ← String.ofList_append]
      rfl
    rw [hsplit, String.utf8ByteSize_append, String.utf8ByteSize_singleton, ih, bytes_cons]

/-- The boundaries are the valid positions of the string. -/
theorem isBoundary_iff_isValid {t : Text} {n : Nat} :
    t.IsBoundary n ↔ (String.Pos.Raw.mk n).IsValid (String.ofList t) := by
  rw [String.Pos.Raw.isValid_iff_exists_append]
  constructor
  · rintro ⟨before, rest, rfl, rfl⟩
    refine ⟨String.ofList before, String.ofList rest, String.ofList_append, ?_⟩
    rw [String.Pos.Raw.ext_iff]
    exact (utf8ByteSize_ofList before).symm
  · rintro ⟨before, rest, ht, hn⟩
    refine ⟨before.toList, rest.toList, ?_, ?_⟩
    · have hlist := congrArg String.toList ht
      rwa [String.toList_ofList, String.toList_append] at hlist
    · have hbytes := utf8ByteSize_ofList before.toList
      rw [String.ofList_toList] at hbytes
      rw [← hbytes]
      exact congrArg String.Pos.Raw.byteIdx hn

theorem IsBoundary.le_bytes {t : Text} {n : Nat} (h : t.IsBoundary n) : n ≤ bytes t := by
  obtain ⟨before, rest, rfl, rfl⟩ := h
  simp

theorem splitByte_zero (t : Text) {before rest : Text} :
    splitByte t 0 = some (before, rest) ↔ t = before ++ rest ∧ 0 = bytes before := by
  rw [splitByte, eq_comm (a := 0), bytes_eq_zero_iff]
  constructor
  · rintro ⟨⟩
    exact ⟨rfl, rfl⟩
  · rintro ⟨rfl, rfl⟩
    rfl

/-- **A cut gives the two parts of a text.** -/
theorem splitByte_eq_some_iff {t before rest : Text} {n : Nat} :
    splitByte t n = some (before, rest) ↔ t = before ++ rest ∧ n = bytes before := by
  induction t generalizing n before with
  | nil =>
    cases n with
    | zero => exact splitByte_zero []
    | succ n =>
      rw [splitByte]
      refine ⟨nofun, ?_⟩
      rintro ⟨ht, hn⟩
      rw [(List.append_eq_nil_iff.1 ht.symm).1] at hn
      cases hn
  | cons c t ih =>
    cases n with
    | zero => exact splitByte_zero (c :: t)
    | succ n =>
      rw [splitByte]
      constructor
      · intro h
        split at h
        · next hle =>
          obtain ⟨⟨b, r⟩, hcut, hpair⟩ := Option.map_eq_some_iff.1 h
          obtain ⟨rfl, rfl⟩ := Prod.mk.inj hpair
          obtain ⟨rfl, hn⟩ := ih.1 hcut
          exact ⟨rfl, by rw [bytes_cons]; omega⟩
        · cases h
      · rintro ⟨ht, hn⟩
        cases before with
        | nil => cases hn
        | cons d before =>
          obtain ⟨rfl, rfl⟩ := List.cons.inj ht
          rw [bytes_cons] at hn
          rw [if_pos (by omega), ih.2 ⟨rfl, by omega⟩]
          rfl

@[simp] theorem fromByte_append (before rest : Text) :
    fromByte (before ++ rest) (bytes before) = some rest := by
  rw [fromByte, splitByte_eq_some_iff.2 ⟨rfl, rfl⟩]
  rfl

@[simp] theorem toByte_append (before rest : Text) :
    toByte (before ++ rest) (bytes before) = some before := by
  rw [toByte, splitByte_eq_some_iff.2 ⟨rfl, rfl⟩]
  rfl

/-! ## Where tails begin -/

section Tails

variable {t r s front behind : Text}

theorem bytes_le_of_suffix (h : r <:+ t) : bytes r ≤ bytes t := by
  obtain ⟨before, rfl⟩ := h
  simp

theorem offset_add_bytes (h : r <:+ t) : offset t r + bytes r = bytes t :=
  Nat.sub_add_cancel (bytes_le_of_suffix h)

@[simp] theorem offset_append (before rest : Text) :
    offset (before ++ rest) rest = bytes before := by
  simp [offset]

theorem offset_self (t : Text) : offset t t = 0 := Nat.sub_self _

/-- What is taken from a tail moves its place by as many bytes. -/
theorem offset_of_append (h : front ++ behind <:+ t) :
    offset t behind = offset t (front ++ behind) + bytes front := by
  have hwhole := offset_add_bytes h
  have hbehind := offset_add_bytes ((List.suffix_append front behind).trans h)
  rw [bytes_append] at hwhole
  omega

theorem isBoundary_offset (h : r <:+ t) : t.IsBoundary (offset t r) := by
  obtain ⟨before, rfl⟩ := h
  exact ⟨before, r, rfl, offset_append before r⟩

/-- **A text can be cut where a tail of it begins.** -/
theorem fromByte_offset (h : r <:+ t) : fromByte t (offset t r) = some r := by
  obtain ⟨before, rfl⟩ := h
  rw [offset_append, fromByte_append]

/-- What stands between the places of two tails is what the shorter one leaves of the longer one. -/
theorem slice_offset (hr : r <:+ t) (hs : s <:+ r) :
    slice t (offset t r) (offset t s) = some (upTo r s) := by
  obtain ⟨front, rfl⟩ := hs
  have hoffset := offset_of_append hr
  rw [slice, if_pos (by omega), fromByte_offset hr, Option.bind_some, hoffset,
    Nat.add_sub_cancel_left, toByte_append, upTo_append]

theorem upTo_append_of_suffix (h : r <:+ t) : upTo t r ++ r = t := by
  obtain ⟨before, rfl⟩ := h
  rw [upTo_append]

/-- Of two tails one is a tail of the other. -/
theorem suffix_of_length_le (hr : r <:+ t) (hs : s <:+ t) (h : s.length ≤ r.length) : s <:+ r :=
  List.suffix_of_suffix_length_le hs hr h

theorem offset_le_of_suffix (hr : r <:+ t) (hs : s <:+ r) : offset t r ≤ offset t s := by
  obtain ⟨front, rfl⟩ := hs
  exact Nat.le.intro (offset_of_append hr).symm

/-- **Tails begin the later, the shorter they are.** -/
theorem offset_lt_iff (hr : r <:+ t) (hs : s <:+ t) :
    offset t r < offset t s ↔ s.length < r.length := by
  constructor
  · intro hlt
    refine Nat.lt_of_not_le fun hle => ?_
    exact absurd (offset_le_of_suffix hs (suffix_of_length_le hs hr hle))
      (Nat.not_le_of_lt hlt)
  · intro hlt
    obtain ⟨front, rfl⟩ := suffix_of_length_le hr hs (Nat.le_of_lt hlt)
    have hpos : bytes front ≠ 0 := by
      rw [Ne, bytes_eq_zero_iff]
      rintro rfl
      exact absurd hlt (Nat.lt_irrefl _)
    rw [offset_of_append hr]
    omega

/-- A tail is known by where it begins. -/
theorem eq_of_offset_eq (hr : r <:+ t) (hs : s <:+ t) (h : offset t r = offset t s) : r = s := by
  have hfrom := fromByte_offset hr
  rw [h, fromByte_offset hs] at hfrom
  exact (Option.some.inj hfrom).symm

end Tails

end Dockerlint.Text
