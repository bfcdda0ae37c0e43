import Dockerlint.Proofs.Operand.Blanks
import Dockerlint.Proofs.Token

/-!
# Maintainers between commas

The reader of `MAINTAINER` goes from word to word, and a comma behind a word ends an entry. In a text
without quotes a comma is never part of a word, so the entries can be had without the reader: the
text is split at its commas, and an entry is made up of the tokens of its piece. An entry has at
least one word, so a text with a blank piece does not fit.

## Main results

* `Text.split_append`, `Text.split_induction`: the pieces of a text one by one
* `Maintainers.read_pieces`: each piece is an entry
* `Maintainers.read_ne_ok`: a blank piece is none
-/

namespace Dockerlint

namespace Text

/-! ## Pieces -/

theorem split_of_notMem {sep : Char} {piece : Text} (h : sep ∉ piece) : split sep piece = [piece] := by
  induction piece with
  | nil => rfl
  | cons c piece ih =>
    obtain ⟨hc, hpiece⟩ := List.ne_and_not_mem_of_not_mem_cons h
    rw [split, if_neg (Ne.symm hc), ih hpiece]
    rfl

/-- The first piece ends at the first separator. -/
theorem split_append {sep : Char} {piece : Text} (h : sep ∉ piece) (behind : Text) :
    split sep (piece ++ sep :: behind) = piece :: split sep behind := by
  induction piece with
  | nil => rw [List.nil_append, split, if_pos rfl]
  | cons c piece ih =>
    obtain ⟨hc, hpiece⟩ := List.ne_and_not_mem_of_not_mem_cons h
    rw [List.cons_append, split, if_neg (Ne.symm hc), ih hpiece]
    rfl

/-- **Induction over the pieces of a text.** -/
theorem split_induction (sep : Char) {P : Text → Prop} (last : ∀ piece, sep ∉ piece → P piece)
    (piece : ∀ piece behind, sep ∉ piece → P behind → P (piece ++ sep :: behind)) (t : Text) : P t := by
  induction hlength : t.length using Nat.strongRecOn generalizing t with
  | ind n ih =>
    subst hlength
    by_cases hmem : sep ∈ t
    · obtain ⟨front, behind, rfl, hfront⟩ := List.eq_append_cons_of_mem hmem
      refine piece front behind hfront (ih _ ?_ behind rfl)
      rw [List.length_append, List.length_cons]
      omega
    · exact last t hmem

end Text

namespace Maintainers

/-! ## Entries -/

/-- The entries of an argument by its words up to a comma. -/
theorem read_eq_readMany (t : Text) : read t =
    match Word.readMany [','] t with
    | ([], _) => .error (.expected (.word [',']) (Text.trimLeft t))
    | (w :: ws, left) =>
      match Text.after [','] (Text.trimLeft left) with
      | none => Reader.finish [Word.phrase (w :: ws)] left
      | some behind => (read behind).map (Word.phrase (w :: ws) :: ·) := by
  rw [read_eq, Word.readMany_eq]
  cases Word.read [','] (Text.trimLeft t) with
  | none => rfl
  | some found => rfl

section Piece

variable {piece : Text} (rest : Text) (hquote : '"' ∉ piece) (hcomma : ',' ∉ piece)
  (hrest : ∀ c, rest.head? = some c → c = ',')

include hquote hcomma hrest

/-- Up to a comma or the end the words are the tokens. -/
theorem readMany_piece :
    (Word.readMany [','] (piece ++ rest)).1 = (Text.tokens piece).map .bare ∧
      Text.trimLeft (Word.readMany [','] (piece ++ rest)).2 = rest := by
  apply Word.readMany_piece hquote
  · intro c hc
    rw [List.mem_singleton]
    rintro rfl
    exact hcomma hc
  · intro c hc
    rw [hrest c hc]
    decide

/-- A piece that is not blank is an entry, and the next one begins behind the comma. -/
theorem read_piece (hne : Text.tokens piece ≠ []) : read (piece ++ rest) =
    match Text.after [','] rest with
    | none => .ok [Text.join [' '] (Text.tokens piece)]
    | some behind => (read behind).map (Text.join [' '] (Text.tokens piece) :: ·) := by
  obtain ⟨w, ws, hwords⟩ := List.exists_cons_of_ne_nil hne
  obtain ⟨hmany, hleft⟩ := readMany_piece rest hquote hcomma hrest
  have hread : Word.readMany [','] (piece ++ rest) =
      (.bare w :: ws.map .bare, (Word.readMany [','] (piece ++ rest)).2) := by
    rw [hwords] at hmany
    exact Prod.ext hmany rfl
  rw [read_eq_readMany, hread]
  simp only [hleft]
  rw [← List.map_cons, Word.phrase_bare, hwords]
  cases hafter : Text.after [','] rest with
  | some behind => rfl
  | none =>
    -- what is left begins with a comma, or it is empty
    have hnil : rest = [] := by
      cases rest with
      | nil => rfl
      | cons c rest =>
        rw [hrest c rfl] at hafter
        cases hafter
    rw [Reader.finish, hleft, hnil]

/-- A blank piece is no entry. -/
theorem read_blank (hnil : Text.tokens piece = []) (entries : List Text) :
    read (piece ++ rest) ≠ .ok entries := by
  have hmany := (readMany_piece rest hquote hcomma hrest).1
  have hread : Word.readMany [','] (piece ++ rest) =
      ([], (Word.readMany [','] (piece ++ rest)).2) := by
    rw [hnil] at hmany
    exact Prod.ext hmany rfl
  rw [read_eq_readMany, hread]
  exact nofun

omit hrest in
theorem read_comma (hne : Text.tokens piece ≠ []) (behind : Text) : read (piece ++ ',' :: behind) =
    (read behind).map (Text.join [' '] (Text.tokens piece) :: ·) :=
  read_piece _ hquote hcomma (by simp) hne

end Piece

section Pieces

variable {t : Text} (hquote : '"' ∉ t)

include hquote

/-- **Each piece is an entry**: its tokens with single spaces between them. -/
theorem read_pieces (h : ∀ piece ∈ Text.split ',' t, Text.tokens piece ≠ []) :
    read t = .ok ((Text.split ',' t).map fun piece => Text.join [' '] (Text.tokens piece)) := by
  induction t using Text.split_induction ',' with
  | last piece hcomma =>
    rw [Text.split_of_notMem hcomma] at h ⊢
    have hread := read_piece [] hquote hcomma (by simp) (h piece (by simp))
    rwa [List.append_nil] at hread
  | piece piece behind hcomma ih =>
    rw [Text.split_append hcomma] at h ⊢
    rw [read_comma (fun hc => hquote (by simp [hc])) hcomma (h piece (by simp))]
    simp only [ih (fun hc => hquote (by simp [hc])) fun p hp => h p (List.mem_cons_of_mem _ hp)]
    rfl

/-- **A text with a blank piece does not fit.** -/
theorem read_ne_ok (h : ∃ piece ∈ Text.split ',' t, Text.tokens piece = []) (entries : List Text) :
    read t ≠ .ok entries := by
  induction t using Text.split_induction ',' generalizing entries with
  | last piece hcomma =>
    rw [Text.split_of_notMem hcomma] at h
    obtain ⟨p, hp, hblank⟩ := h
    rw [List.mem_singleton.1 hp] at hblank
    have hread := read_blank [] hquote hcomma (by simp) hblank entries
    rwa [List.append_nil] at hread
  | piece piece behind hcomma ih =>
    have hpiece : '"' ∉ piece := fun hc => hquote (by simp [hc])
    by_cases hblank : Text.tokens piece = []
    · exact read_blank _ hpiece hcomma (by simp) hblank entries
    · -- the blank piece stands behind the comma
      rw [Text.split_append hcomma] at h
      obtain ⟨p, hp, hnil⟩ := h
      have hmem : p ∈ Text.split ',' behind :=
        (List.mem_cons.1 hp).resolve_left fun heq => hblank (heq ▸ hnil)
      rw [read_comma hpiece hcomma hblank]
      intro hread
      obtain ⟨others, hothers, -⟩ := exists_of_map_eq_ok hread
      exact ih (fun hc => hquote (by simp [hc])) ⟨p, hmem, hnil⟩ others hothers

end Pieces

end Maintainers

end Dockerlint
