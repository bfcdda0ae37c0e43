import Dockerlint.Proofs.Line.Scan

/-!
# Scanning what was scanned

The scan of a line drops its comment, its continuation marker and the blanks behind a backslash, so
the text that it leaves is cut into quoted spans, escapes and other characters anew when it is
scanned again. The two cuts need not agree: a quote that was never closed on the line can be closed
in the text that is left, because dropping the blanks between two backslashes frees the character
behind them. Still the second scan changes nothing.

A text is settled if it consists of ordinary characters, escapes without a gap, closed spans and
quotes that nothing closes. Scanning copies settled texts, and it leaves nothing else behind. The
step that needs an argument is a quote that becomes closed. The search for its end runs through the
text that is left in step with the search that failed on the line, except behind a freed character;
so it can only end at a freed quote, and what stands behind that quote was scanned from there on.

## Main definitions

* `Segment.Settled`: the texts that are cut without a comment, a marker or a gap

## Main results

* `Segment.Settled.scan_eq`: scanning copies settled texts
* `Segment.Settled.append`, `Segment.Settled.of_append_gaps`: settled texts put together and trimmed
* `Segment.exists_scan_of_spanLength`: where a search ends that failed on the line
* `Segment.settled_scan`: the segment of a line is settled
-/

namespace Dockerlint.Segment

/-! ## A search that failed on the line

A search for the quote `q` that fails on a line steps over the second character of every escape,
and over blanks and other characters one by one. Where blanks stand between two backslashes, the
search takes the second backslash and the character behind it for an escape, and the scan does not:
it goes on with that character. So there are two states in which the search on the segment can be
compared with the one on the line: both go on here, or the one on the line goes on one character
further. In both, `q` is not found from there on. -/

section Failed

variable {q : Char}

/-- Neither from here nor from the next character on is the quote found. -/
def Fails (q : Char) (line : Text) : Prop :=
  spanLength q line = none ∨ spanLength q line.tail = none

theorem Fails.tail {c : Char} {rest : Text} (h : Fails q (c :: rest)) (hc : c ≠ '\\') :
    spanLength q rest = none := by
  rcases h with h | h
  · exact ((spanLength_cons_eq_none hc).1 h).2
  · exact h

/-- Behind a character that an escape keeps, the search has passed it or is freed of it. -/
theorem fails_of_next {next : Char} {behind : Text} (h : spanLength q (next :: behind) = none) :
    Fails q behind := by
  by_cases hnext : next = '\\'
  · subst hnext
    cases behind with
    | nil => exact .inl rfl
    | cons c behind =>
      rw [spanLength_escape, Option.map_eq_none_iff] at h
      exact .inr h
  · exact .inl ((spanLength_cons_eq_none hnext).1 h).2

theorem Fails.escape (hq : isGap q = false) {rest behind : Text} {next : Char}
    (hgap : rest.dropWhile isGap = next :: behind) (h : Fails q ('\\' :: rest)) :
    Fails q behind := by
  have hrest := List.takeWhile_append_dropWhile (p := isGap) (l := rest)
  rw [hgap] at hrest
  have hgaps : ∀ c ∈ rest.takeWhile isGap, isGap c := List.all_eq_true.1 List.all_takeWhile
  -- once the gap is passed, the search is at the character that the escape keeps
  have hpassed : ∀ {gaps : Text}, (∀ c ∈ gaps, isGap c) →
      spanLength q (gaps ++ next :: behind) = none → Fails q behind := by
    intro gaps hgaps hnone
    rw [spanLength_gaps hgaps hq, Option.map_eq_none_iff] at hnone
    exact fails_of_next hnone
  rcases h with h | h
  · rw [← hrest] at h
    cases hcut : rest.takeWhile isGap with
    | nil =>
      rw [hcut, List.nil_append, spanLength_escape, Option.map_eq_none_iff] at h
      exact .inl h
    | cons c gaps =>
      rw [hcut] at h hgaps
      rw [List.cons_append, spanLength_escape, Option.map_eq_none_iff] at h
      exact hpassed (fun d hd => hgaps d (List.mem_cons_of_mem c hd)) h
  · rw [List.tail_cons, ← hrest] at h
    exact hpassed hgaps h

/-- **Where a search ends that failed on the line**: what follows on the segment is the segment of
an end of the line. -/
theorem exists_scan_of_spanLength (hq : IsQuote q) {line : Text} (h : Fails q line) {n : Nat}
    (hn : spanLength q (scan line).text = some n) :
    ∃ rest : Text, rest.length ≤ line.length ∧ (scan line).text.drop n = (scan rest).text := by
  fun_induction scan line generalizing n with
  | case1 => cases hn
  | case2 => cases hn
  | case3 => cases hn
  | case4 rest next behind hgap _ ih =>
    have htext : spanLength q ((scan behind).prepend ['\\', next]).text =
        (spanLength q (scan behind).text).map (· + 2) := rfl
    obtain ⟨m, hm, rfl⟩ := Option.map_eq_some_iff.1 (htext.symm.trans hn)
    obtain ⟨rest', hlen, hdrop⟩ := ih (h.escape hq.not_gap hgap) hm
    have hbehind := (List.dropWhile_suffix isGap (l := rest)).length_le
    rw [hgap, List.length_cons] at hbehind
    exact ⟨rest', by simp only [List.length_cons]; omega, hdrop⟩
  | case5 c rest _ hb _ k hspan ih =>
    have hnone := h.tail hb
    have hcloses := closes_of_spanLength hspan
    -- the span is not in the quotes that are looked for, because it closes
    have hne : c ≠ q := by
      rintro rfl
      rw [hspan] at hnone
      cases hnone
    have htext : spanLength q ((scan (rest.drop k)).prepend (c :: rest.take k)).text =
        ((spanLength q (scan (rest.drop k)).text).map (· + k)).map (· + 1) := by
      rw [← hcloses.spanLength_skip hb hnone, ← spanLength_cons hb hne]
      rfl
    obtain ⟨m', hm', rfl⟩ := Option.map_eq_some_iff.1 (htext.symm.trans hn)
    obtain ⟨m, hm, rfl⟩ := Option.map_eq_some_iff.1 hm'
    obtain ⟨rest', hlen, hdrop⟩ := ih (.inl (hcloses.spanLength_drop hb hnone)) hm
    refine ⟨rest', ?_, ?_⟩
    · simp only [List.length_cons, List.length_drop] at hlen ⊢
      omega
    · rw [← hdrop, prepend, List.cons_append, List.drop_succ_cons, Nat.add_comm m k,
        ← List.drop_drop, hcloses.drop_take_append]
  | case6 c rest _ hb _ _ ih =>
    by_cases hne : c = q
    · -- the search ends at a freed quote, and the scan goes on behind it
      subst hne
      have htext : spanLength c ((scan rest).prepend [c]).text = some 1 := spanLength_self hb _
      obtain rfl := Option.some.inj (htext.symm.trans hn)
      exact ⟨rest, by simp, rfl⟩
    · have htext : spanLength q ((scan rest).prepend [c]).text =
          (spanLength q (scan rest).text).map (· + 1) := spanLength_cons hb hne _
      obtain ⟨m, hm, rfl⟩ := Option.map_eq_some_iff.1 (htext.symm.trans hn)
      obtain ⟨rest', hlen, hdrop⟩ := ih (.inl (h.tail hb)) hm
      exact ⟨rest', by simp only [List.length_cons]; omega, hdrop⟩
  | case7 c rest _ hb hc ih =>
    have hne : c ≠ q := by
      rintro rfl
      exact hc hq
    have htext : spanLength q ((scan rest).prepend [c]).text =
        (spanLength q (scan rest).text).map (· + 1) := spanLength_cons hb hne _
    obtain ⟨m, hm, rfl⟩ := Option.map_eq_some_iff.1 (htext.symm.trans hn)
    obtain ⟨rest', hlen, hdrop⟩ := ih (.inl (h.tail hb)) hm
    exact ⟨rest', by simp only [List.length_cons]; omega, hdrop⟩

end Failed

/-! ## Settled texts -/

/-- The texts that are cut without a comment, a continuation marker or a gap behind a backslash. -/
inductive Settled : Text → Prop where
  | nil : Settled []
  | ordinary {c : Char} {t : Text} (hc : isOrdinary c) (ht : Settled t) : Settled (c :: t)
  | escape {c : Char} {t : Text} (hc : isGap c = false) (ht : Settled t) : Settled ('\\' :: c :: t)
  | span {c : Char} {t : Text} {n : Nat} (hc : IsQuote c) (hn : spanLength c t = some n)
      (ht : Settled (t.drop n)) : Settled (c :: t)
  | unclosed {c : Char} {t : Text} (hc : IsQuote c) (hn : spanLength c t = none) (ht : Settled t) :
      Settled (c :: t)

namespace Settled

variable {t : Text}

/-- Scanning copies settled texts. -/
theorem scan_eq (h : Settled t) : scan t = ⟨t, false⟩ := by
  induction h with
  | nil => rw [scan]
  | ordinary hc _ ih => rw [scan_cons hc, ih]; rfl
  | escape hc _ ih =>
    rw [scan_escape (List.dropWhile_cons_of_neg (by simp [hc])), ih]
    rfl
  | span hc hn _ ih =>
    rw [scan_span hc hn, ih]
    simp [prepend]
  | unclosed hc hn _ ih => rw [scan_unclosed hc hn, ih]; rfl

theorem of_cons {c : Char} (hc : isOrdinary c) (h : Settled (c :: t)) : Settled t := by
  obtain ⟨-, hb, hq⟩ := isOrdinary_iff.1 hc
  cases h with
  | ordinary _ ht => exact ht
  | escape _ _ => exact absurd rfl hb
  | span hc' _ _ => exact absurd hc' hq
  | unclosed hc' _ _ => exact absurd hc' hq

theorem of_append {s : Text} (hs : ∀ c ∈ s, isOrdinary c) (h : Settled (s ++ t)) : Settled t := by
  induction s with
  | nil => exact h
  | cons c s ih =>
    exact ih (fun d hd => hs d (List.mem_cons_of_mem c hd)) (h.of_cons (hs c (by simp)))

theorem of_ordinary (ht : ∀ c ∈ t, isOrdinary c) : Settled t := by
  induction t with
  | nil => exact .nil
  | cons c t ih =>
    exact .ordinary (ht c (by simp)) (ih fun d hd => ht d (List.mem_cons_of_mem c hd))

/-- A text without comment signs and backslashes is settled, whatever quotes it has. -/
theorem of_plain (ht : ∀ c ∈ t, c ≠ '#' ∧ c ≠ '\\') : Settled t := by
  induction hlength : t.length using Nat.strongRecOn generalizing t with
  | ind n ih =>
    subst hlength
    cases t with
    | nil => exact .nil
    | cons c t =>
      have hsuffix : ∀ m, Settled (t.drop m) := fun m =>
        ih _ (by simp only [List.length_drop, List.length_cons]; omega)
          (fun d hd => ht d (List.mem_cons_of_mem c (List.mem_of_mem_drop hd))) rfl
      by_cases hc : IsQuote c
      · cases hspan : spanLength c t with
        | none => exact .unclosed hc hspan (hsuffix 0)
        | some m => exact .span hc hspan (hsuffix m)
      · obtain ⟨hsign, hbackslash⟩ := ht c (List.mem_cons_self ..)
        exact .ordinary (isOrdinary_iff.2 ⟨hsign, hbackslash, hc⟩) (hsuffix 0)

/-- A settled text without quotes can stand before every settled text. -/
theorem append {s : Text} (hs : Settled s) (hquotes : ∀ c ∈ s, ¬ IsQuote c) (ht : Settled t) :
    Settled (s ++ t) := by
  induction hs with
  | nil => exact ht
  | ordinary hc _ ih => exact .ordinary hc (ih fun d hd => hquotes d (List.mem_cons_of_mem _ hd))
  | escape hc _ ih => exact .escape hc (ih fun d hd => hquotes d (by simp [hd]))
  | span hc _ _ _ => exact absurd hc (hquotes _ (List.mem_cons_self ..))
  | unclosed hc _ _ _ => exact absurd hc (hquotes _ (List.mem_cons_self ..))

/-- A settled text can be trimmed at the left, whatever its blanks are. -/
theorem trimLeft (h : Settled t) : Settled (Text.trimLeft t) := by
  have hblanks : ∀ c ∈ t.takeWhile isBlank, isOrdinary c := fun c hc =>
    isOrdinary_of_isBlank (List.all_eq_true.1 List.all_takeWhile c hc)
  rw [← List.takeWhile_append_dropWhile (p := isBlank) (l := t)] at h
  exact h.of_append hblanks

/-- A settled text is still settled without the spaces and tabs that it ends with: no escape ends in
one of them, and no quote stands among them. -/
theorem of_append_gaps {gaps : Text} (hgaps : ∀ c ∈ gaps, isGap c) (h : Settled (t ++ gaps)) :
    Settled t := by
  generalize hs : t ++ gaps = s at h
  induction h generalizing t with
  | nil =>
    rw [(List.append_eq_nil_iff.1 hs).1]
    exact .nil
  | @ordinary c s hc _ ih =>
    cases t with
    | nil => exact .nil
    | cons d t =>
      rw [List.cons_append, List.cons.injEq] at hs
      rw [hs.1]
      exact .ordinary hc (ih hs.2)
  | @escape c s hc _ ih =>
    rcases t with _ | ⟨d, _ | ⟨e, t⟩⟩
    · exact .nil
    · -- the gap would begin with the character that the escape keeps
      rw [List.cons_append, List.nil_append, List.cons.injEq] at hs
      have hgap := hgaps c (by rw [hs.2]; exact List.mem_cons_self ..)
      rw [hc] at hgap
      cases hgap
    · rw [List.cons_append, List.cons_append, List.cons.injEq, List.cons.injEq] at hs
      rw [hs.1, hs.2.1]
      exact .escape hc (ih hs.2.2)
  | @span c s n hc hn _ ih =>
    cases t with
    | nil => exact .nil
    | cons d t =>
      rw [List.cons_append, List.cons.injEq] at hs
      rw [hs.1]
      rw [← hs.2, spanLength_append_gaps hgaps hc] at hn
      have hle := (closes_of_spanLength hn).le_length
      refine .span hc hn (ih ?_)
      rw [← hs.2, List.drop_append_of_le_length hle]
  | @unclosed c s hc hn _ ih =>
    cases t with
    | nil => exact .nil
    | cons d t =>
      rw [List.cons_append, List.cons.injEq] at hs
      rw [hs.1]
      rw [← hs.2, spanLength_append_gaps hgaps hc] at hn
      exact .unclosed hc hn (ih hs.2)

end Settled

/-- **The segment of a line is settled.** -/
theorem settled_scan (line : Text) : Settled (scan line).text := by
  -- a quote that becomes closed sends the argument to an end of the line that is not the next one
  induction hk : line.length using Nat.strongRecOn generalizing line with
  | ind k ih =>
    subst hk
    fun_cases scan line with
    | case1 => exact .nil
    | case2 => exact .nil
    | case3 => exact .nil
    | case4 rest next behind hgap =>
      have hbehind := (List.dropWhile_suffix isGap (l := rest)).length_le
      rw [hgap, List.length_cons] at hbehind
      have hnext : isGap next = false :=
        Text.eq_false_of_head?_dropWhile (t := rest) (by rw [hgap]; rfl)
      exact .escape hnext (ih behind.length (by simp only [List.length_cons]; omega) behind rfl)
    | case5 c rest _ hb hq n hspan =>
      have hcloses := closes_of_spanLength hspan
      have hdrop : Settled ((rest.take n ++ (scan (rest.drop n)).text).drop n) := by
        rw [hcloses.drop_take_append]
        exact ih _ (by simp only [List.length_cons, List.length_drop]; omega) _ rfl
      exact .span hq (hcloses.spanLength_take_append hb _) hdrop
    | case6 c rest _ _ hq hspan =>
      have hrest := ih rest.length (by simp) rest rfl
      cases hagain : spanLength c (scan rest).text with
      | none => exact .unclosed hq hagain hrest
      | some n =>
        obtain ⟨rest', hlen, hdrop⟩ := exists_scan_of_spanLength hq (.inl hspan) hagain
        have hsettled : Settled ((scan rest).text.drop n) := by
          rw [hdrop]
          exact ih rest'.length (by simp only [List.length_cons]; omega) rest' rfl
        exact .span hq hagain hsettled
    | case7 c rest hc hb hq =>
      exact .ordinary (isOrdinary_iff.2 ⟨hc, hb, hq⟩) (ih rest.length (by simp) rest rfl)

end Dockerlint.Segment
