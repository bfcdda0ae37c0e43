import Dockerlint.Proofs.Text

/-!
# Tokens

The tokens of a text are its runs of characters that are not blank, each as long as it can be. They
are defined by cutting the text at every blank. A reader that skips blanks and then reads meets the
first token in front and the blanks and the other tokens behind it, and reading goes on there; this
is the induction over the tokens of a text.

## Main definitions

* `Text.tokens`: the tokens of a text
* `Text.IsToken`, `Text.EndsToken`: what a token is, and what can stand behind one
* `Text.TokenAt`: a token at its place in a text

## Main results

* `Text.tokens_append`: a token in front
* `Text.tokens_induction`: induction over the tokens of a text
* `Text.TokenAt.behind_first`: a token behind the first one
-/

namespace Dockerlint.Text

/-- The pieces of a text between its blanks, without the empty ones. -/
def tokens (t : Text) : List Text := (t.splitOnP isBlank).filter (· ≠ [])

example : tokens " a\tb//c  \n".toList = ["a".toList, "b//c".toList] := by decide

/-- A run of characters that are not blank. -/
structure IsToken (w : Text) : Prop where
  ne_nil : w ≠ []
  not_blank : ∀ c ∈ w, isBlank c = false

/-- The texts that end a token in front of them. -/
def EndsToken (rest : Text) : Prop := ∀ c, rest.head? = some c → isBlank c

theorem tokens_blank {c : Char} (hc : isBlank c) (t : Text) : tokens (c :: t) = tokens t := by
  rw [tokens, List.splitOnP_cons_eq_if_modifyHead, if_pos hc]
  rfl

theorem tokens_trimLeft (t : Text) : tokens (trimLeft t) = tokens t := by
  induction t with
  | nil => rfl
  | cons c t ih =>
    rw [trimLeft_cons]
    split
    · next hc => rw [tokens_blank hc, ih]
    · rfl

/-- The first token of a text that begins with it. -/
theorem tokens_append {w rest : Text} (hw : IsToken w) (hrest : EndsToken rest) :
    tokens (w ++ rest) = w :: tokens rest := by
  have hkeep : ∀ pieces, (w :: pieces).filter (· ≠ []) = w :: pieces.filter (· ≠ []) :=
    fun pieces => List.filter_cons_of_pos (by simpa using hw.ne_nil)
  cases rest with
  | nil =>
    rw [List.append_nil, tokens, List.splitOnP_eq_singleton hw.not_blank, hkeep]
    rfl
  | cons c rest =>
    have hc : isBlank c := hrest c rfl
    rw [tokens, List.splitOnP_append_cons_of_forall_mem hw.not_blank c hc, hkeep, tokens_blank hc]
    rfl

/-- A text that does not begin with a blank begins with a token. -/
theorem exists_token {t : Text} (hne : t ≠ []) (hstart : startsBlank t = false) :
    ∃ w rest, t = w ++ rest ∧ IsToken w ∧ EndsToken rest := by
  refine ⟨t.takeWhile (!isBlank ·), t.dropWhile (!isBlank ·),
    List.takeWhile_append_dropWhile.symm, ⟨?_, fun c hc => ?_⟩, fun c hc => ?_⟩
  · obtain ⟨c, rest, rfl⟩ := List.exists_cons_of_ne_nil hne
    have hc : isBlank c = false := hstart
    rw [List.takeWhile_cons_of_pos (by simp [hc])]
    exact List.cons_ne_nil c _
  · simpa using List.all_eq_true.1 List.all_takeWhile c hc
  · simpa using eq_false_of_head?_dropWhile hc

/-- **Induction over the tokens of a text.** A text is blank, or behind its outer blanks there is a
token with a text behind it that has the other tokens. -/
theorem tokens_induction {P : Text → Prop}
    (blank : ∀ t, trimLeft t = [] → tokens t = [] → P t)
    (token : ∀ t w rest, trimLeft t = w ++ rest → IsToken w → EndsToken rest →
      tokens t = w :: tokens rest → P rest → P t)
    (t : Text) : P t := by
  -- the rest is shorter than the text, because a token is not empty
  induction hlength : t.length using Nat.strongRecOn generalizing t with
  | ind n ih =>
    subst hlength
    by_cases hblank : trimLeft t = []
    · exact blank t hblank (by rw [← tokens_trimLeft, hblank]; rfl)
    · have hstart := trimLeft_eq_self_iff.1 (trimLeft_trimLeft t)
      obtain ⟨w, rest, hcut, hw, hrest⟩ := exists_token hblank hstart
      have hlt : rest.length < t.length := by
        have hle := trimLeft_length_le t
        have hpos := List.length_pos_iff.2 hw.ne_nil
        rw [hcut, List.length_append] at hle
        omega
      refine token t w rest hcut hw hrest ?_ (ih _ hlt rest rfl)
      rw [← tokens_trimLeft, hcut, tokens_append hw hrest]

/-- The characters of a token that is in front of a text belong to that text. -/
theorem mem_of_trimLeft_eq {t w rest : Text} (hcut : trimLeft t = w ++ rest) {c : Char}
    (hc : c ∈ w ++ rest) : c ∈ t := by
  rw [← hcut] at hc
  exact (trimLeft_suffix t).subset hc

/-- A text has no tokens exactly if it is blank. -/
theorem tokens_eq_nil_iff {t : Text} : tokens t = [] ↔ trimLeft t = [] := by
  induction t using tokens_induction with
  | blank t hblank htokens => exact iff_of_true htokens hblank
  | token t w rest hcut hw _ htokens _ =>
    refine iff_of_false (by rw [htokens]; exact List.cons_ne_nil w _) fun hblank => ?_
    rw [hcut] at hblank
    exact hw.ne_nil (List.append_eq_nil_iff.1 hblank).1

/-- Behind its outer blanks a text with tokens begins with the first of them. -/
theorem exists_of_tokens_eq_cons {t w : Text} {ws : List Text} (h : tokens t = w :: ws) :
    ∃ rest, trimLeft t = w ++ rest ∧ IsToken w ∧ EndsToken rest ∧ tokens rest = ws := by
  induction t using tokens_induction with
  | blank t _ htokens => exact absurd (htokens.symm.trans h) (List.cons_ne_nil w ws).symm
  | token t v rest hcut hv hrest htokens _ =>
    obtain ⟨rfl, rfl⟩ := List.cons.inj (htokens.symm.trans h)
    exact ⟨rest, hcut, hv, hrest, rfl⟩

theorem isToken_of_mem_tokens {t w : Text} : w ∈ tokens t → IsToken w := by
  induction t using tokens_induction with
  | blank t _ htokens => simp [htokens]
  | token t v rest _ hv _ htokens ih =>
    rw [htokens, List.mem_cons]
    rintro (rfl | hw)
    · exact hv
    · exact ih hw

/-! ## Where a token stands -/

/-- A token of a text, with what stands before it and behind it. -/
structure TokenAt (t before w behind : Text) : Prop where
  text : t = before ++ (w ++ behind)
  isToken : IsToken w
  starts : ∀ c, before.getLast? = some c → isBlank c
  ends : EndsToken behind

section Place

variable {t w rest : Text}

theorem takeWhile_append_token (hcut : trimLeft t = w ++ rest) :
    t = t.takeWhile isBlank ++ (w ++ rest) := by
  rw [← hcut, takeWhile_append_trimLeft]

/-- The first token of a text stands behind its outer blanks. -/
theorem tokenAt_first (hcut : trimLeft t = w ++ rest) (hw : IsToken w) (hrest : EndsToken rest) :
    TokenAt t (t.takeWhile isBlank) w rest where
  text := takeWhile_append_token hcut
  isToken := hw
  starts := fun c hc => List.all_eq_true.1 List.all_takeWhile c (List.mem_of_getLast? hc)
  ends := hrest

theorem tokens_takeWhile_isBlank (t : Text) : tokens (t.takeWhile isBlank) = [] :=
  tokens_eq_nil_iff.2 (trimLeft_eq_nil_iff.2 (List.all_eq_true.1 List.all_takeWhile))

/-- The first token and a token behind it: the first one stands before the other. -/
theorem TokenAt.behind_first {before v behind : Text} (h : TokenAt rest before v behind)
    (hcut : trimLeft t = w ++ rest) (hw : IsToken w) (hrest : EndsToken rest) :
    TokenAt t (t.takeWhile isBlank ++ (w ++ before)) v behind ∧
      tokens (t.takeWhile isBlank ++ (w ++ before)) = w :: tokens before := by
  -- the two tokens have a blank between them, with which the text before the other begins
  obtain ⟨d, front, rfl⟩ : ∃ d front, before = d :: front := by
    refine List.exists_cons_of_ne_nil ?_
    rintro rfl
    obtain ⟨c, v, rfl⟩ := List.exists_cons_of_ne_nil h.isToken.ne_nil
    have hblank : isBlank c := hrest c (by rw [h.text]; rfl)
    rw [h.isToken.not_blank c (List.mem_cons_self ..)] at hblank
    cases hblank
  have hends : EndsToken (d :: front) := fun c hc => hrest c (by rw [h.text]; exact hc)
  refine ⟨⟨?_, h.isToken, fun c hc => ?_, h.ends⟩, ?_⟩
  · rw [List.append_assoc, List.append_assoc, ← h.text]
    exact takeWhile_append_token hcut
  · rw [← List.append_assoc, List.getLast?_append, List.getLast?_cons, Option.some_or] at hc
    exact h.starts c (by rw [List.getLast?_cons, hc])
  · obtain ⟨c, u, rfl⟩ := List.exists_cons_of_ne_nil hw.ne_nil
    have htrim : trimLeft (t.takeWhile isBlank ++ (c :: u ++ d :: front)) = c :: u ++ d :: front := by
      rw [trimLeft, List.dropWhile_append_of_pos (List.all_eq_true.1 List.all_takeWhile)]
      exact trimLeft_eq_self (hw.not_blank c (List.mem_cons_self ..))
    rw [← tokens_trimLeft, htrim, tokens_append hw hends]

end Place

end Dockerlint.Text
