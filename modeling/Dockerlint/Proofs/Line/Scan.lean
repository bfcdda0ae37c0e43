import Dockerlint.Proofs.Line

/-!
# The steps of a scan

What the scan of a line does at each kind of character, and where the search for the end of a quoted
span goes. The search takes an escape as a whole, so its result depends neither on what follows the
span nor on blanks at the end of the line. If it fails, it passes over every span in the other kind
of quotes.

## Main definitions

* `Segment.IsQuote`: the characters that open a quoted span
* `Segment.Closes`: the spans that a quote closes

## Main results

* `Segment.scan_cons_cases`: what a line begins with, its segment begins with
* `Segment.closes_of_spanLength`: the search for the end of a span finds one
* `Segment.Closes.spanLength_take_append`: the end of a span does not depend on what follows it
* `Segment.Closes.spanLength_skip`: a search that fails passes over other spans
-/

namespace Dockerlint.Segment

/-! ## The steps of a scan -/

/-- The characters that open a quoted span. -/
def IsQuote (c : Char) : Prop := c = '"' ∨ c = '\x27'

instance : DecidablePred IsQuote := fun c => inferInstanceAs (Decidable (c = '"' ∨ c = '\x27'))

theorem isOrdinary_iff {c : Char} : isOrdinary c ↔ c ≠ '#' ∧ c ≠ '\\' ∧ ¬ IsQuote c := by
  simp only [isOrdinary, IsQuote, Bool.and_eq_true, bne_iff_ne, not_or]
  constructor
  · rintro ⟨⟨⟨h₁, h₂⟩, h₃⟩, h₄⟩
    exact ⟨h₁, h₂, h₃, h₄⟩
  · rintro ⟨h₁, h₂, h₃, h₄⟩
    exact ⟨⟨⟨h₁, h₂⟩, h₃⟩, h₄⟩

theorem IsQuote.ne_backslash {c : Char} (h : IsQuote c) : c ≠ '\\' := by
  rcases h with rfl | rfl <;> decide

theorem IsQuote.not_gap {c : Char} (h : IsQuote c) : isGap c = false := by
  rcases h with rfl | rfl <;> decide

theorem isOrdinary_of_isBlank {c : Char} (h : isBlank c) : isOrdinary c := by
  rw [isOrdinary_iff]
  refine ⟨?_, ?_, ?_⟩
  · rintro rfl
    exact absurd h (by decide)
  · rintro rfl
    exact absurd h (by decide)
  · rintro (rfl | rfl)
    · exact absurd h (by decide)
    · exact absurd h (by decide)

theorem scan_escape {rest behind : Text} {next : Char}
    (h : rest.dropWhile isGap = next :: behind) :
    scan ('\\' :: rest) = (scan behind).prepend ['\\', next] := by
  rw [scan]
  simp only [Char.reduceEq, if_false, if_true]
  split
  · next hnil => rw [h] at hnil; cases hnil
  · next hcons =>
    obtain ⟨rfl, rfl⟩ := List.cons.inj (h.symm.trans hcons)
    rfl

theorem scan_marker {rest : Text} (h : rest.dropWhile isGap = []) :
    scan ('\\' :: rest) = ⟨[], true⟩ := by
  rw [scan]
  simp only [Char.reduceEq, if_false, if_true]
  split
  · rfl
  · next hcons => rw [h] at hcons; cases hcons

theorem scan_span {c : Char} (hc : IsQuote c) {rest : Text} {n : Nat}
    (h : spanLength c rest = some n) :
    scan (c :: rest) = (scan (rest.drop n)).prepend (c :: rest.take n) := by
  rcases hc with rfl | rfl
  · exact scan_quote .double h
  · exact scan_quote .single h

theorem scan_unclosed {c : Char} (hc : IsQuote c) {rest : Text} (h : spanLength c rest = none) :
    scan (c :: rest) = (scan rest).prepend [c] := by
  rw [scan]
  rcases hc with rfl | rfl
  · simp [h]
  · simp [h]

/-- A scan only leaves characters out. -/
theorem scan_sublist (line : Text) : (scan line).text.Sublist line := by
  fun_induction scan line with
  | case1 => exact .slnil
  | case2 => exact List.nil_sublist _
  | case3 => exact List.nil_sublist _
  | case4 rest next behind hgap _ ih =>
    refine List.Sublist.cons_cons _ ?_
    have hsuffix : (next :: behind).Sublist rest :=
      hgap ▸ (List.dropWhile_suffix isGap).sublist
    exact (List.Sublist.cons_cons next ih).trans hsuffix
  | case5 c rest _ _ _ n hspan ih =>
    refine List.Sublist.cons_cons _ ?_
    have hparts := (List.Sublist.refl (rest.take n)).append ih
    rwa [List.take_append_drop] at hparts
  | case6 c rest _ _ _ hspan ih => exact List.Sublist.cons_cons _ ih
  | case7 c rest _ _ _ ih => exact List.Sublist.cons_cons _ ih

/-- The first character of a line that opens no comment is the first of its segment, unless it is
the continuation marker. -/
theorem scan_cons_cases {c : Char} (hc : c ≠ '#') (rest : Text) :
    scan (c :: rest) = ⟨[], true⟩ ∨ ∃ t, (scan (c :: rest)).text = c :: t := by
  by_cases hb : c = '\\'
  · subst hb
    cases hgap : rest.dropWhile isGap with
    | nil => exact .inl (scan_marker hgap)
    | cons next behind => exact .inr ⟨_, by rw [scan_escape hgap]; rfl⟩
  · by_cases hq : IsQuote c
    · cases hspan : spanLength c rest with
      | some n => exact .inr ⟨_, by rw [scan_span hq hspan]; rfl⟩
      | none => exact .inr ⟨_, by rw [scan_unclosed hq hspan]; rfl⟩
    · exact .inr ⟨_, by rw [scan_cons (isOrdinary_iff.2 ⟨hc, hb, hq⟩)]; rfl⟩

/-! ## The search for the end of a span -/

section Search

variable {c q : Char} {t : Text}

theorem spanLength_escape (q c : Char) (t : Text) :
    spanLength q ('\\' :: c :: t) = (spanLength q t).map (· + 2) :=
  rfl

theorem spanLength_cons (hc : c ≠ '\\') (hq : c ≠ q) (t : Text) :
    spanLength q (c :: t) = (spanLength q t).map (· + 1) := by
  rw [spanLength, if_neg hq]
  rintro _ _ rfl
  exact absurd rfl hc

theorem spanLength_self (hq : q ≠ '\\') (t : Text) : spanLength q (q :: t) = some 1 := by
  rw [spanLength, if_pos rfl]
  rintro _ _ rfl
  exact absurd rfl hq

/-- The search goes on behind a character exactly if that character is not the quote. -/
theorem spanLength_cons_eq_none (hc : c ≠ '\\') :
    spanLength q (c :: t) = none ↔ c ≠ q ∧ spanLength q t = none := by
  by_cases hq : c = q
  · subst hq
    simp [spanLength_self hc]
  · simp [spanLength_cons hc hq, hq]

/-- A span of `n` characters ends in the quote `q`, and every other `q` in it is escaped. -/
inductive Closes (q : Char) : Text → Nat → Prop where
  | close (rest : Text) : Closes q (q :: rest) 1
  | escape (c : Char) {rest : Text} {n : Nat} (h : Closes q rest n) :
      Closes q ('\\' :: c :: rest) (n + 2)
  | plain {c : Char} {rest : Text} {n : Nat} (hb : c ≠ '\\') (hq : c ≠ q) (h : Closes q rest n) :
      Closes q (c :: rest) (n + 1)

theorem closes_of_spanLength {n : Nat} (h : spanLength q t = some n) : Closes q t n := by
  fun_induction spanLength q t generalizing n with
  | case1 => cases h
  | case2 c rest ih =>
    obtain ⟨m, hm, rfl⟩ := Option.map_eq_some_iff.1 h
    exact .escape c (ih hm)
  | case3 rest _ =>
    obtain rfl := Option.some.inj h
    exact .close rest
  | case4 c rest hesc hq ih =>
    obtain ⟨m, hm, rfl⟩ := Option.map_eq_some_iff.1 h
    refine .plain ?_ hq (ih hm)
    -- a backslash that escapes nothing is the last character, and no quote comes behind it
    rintro rfl
    cases rest with
    | nil => cases hm
    | cons d rest => exact hesc d rest rfl rfl

theorem Closes.le_length {n : Nat} (h : Closes q t n) : n ≤ t.length := by
  induction h with
  | close rest => simp
  | escape c h ih => simpa using ih
  | plain hb hq h ih => simpa using ih

theorem Closes.drop_take_append {n : Nat} (h : Closes q t n) (s : Text) :
    (t.take n ++ s).drop n = s :=
  List.drop_left' (List.length_take_of_le h.le_length)

/-- The end of a span does not depend on what follows it. -/
theorem Closes.spanLength_take_append {n : Nat} (h : Closes q t n) (hq : q ≠ '\\') (s : Text) :
    spanLength q (t.take n ++ s) = some n := by
  induction h with
  | close rest => exact spanLength_self hq s
  | escape c h ih =>
    rw [List.take_succ_cons, List.take_succ_cons, List.cons_append, List.cons_append,
      spanLength_escape, ih]
    rfl
  | plain hb hne h ih =>
    rw [List.take_succ_cons, List.cons_append, spanLength_cons hb hne, ih]
    rfl

/-- A search for `q` that fails passes over a span in other quotes as a whole. -/
theorem Closes.spanLength_skip {n : Nat} (h : Closes c t n) (hc : c ≠ '\\')
    (hnone : spanLength q t = none) (s : Text) :
    spanLength q (t.take n ++ s) = (spanLength q s).map (· + n) := by
  induction h with
  | close rest =>
    have hne := ((spanLength_cons_eq_none hc).1 hnone).1
    exact spanLength_cons hc hne s
  | escape d h ih =>
    rw [spanLength_escape, Option.map_eq_none_iff] at hnone
    rw [List.take_succ_cons, List.take_succ_cons, List.cons_append, List.cons_append,
      spanLength_escape, ih hnone, Option.map_map]
    rfl
  | plain hb hne h ih =>
    obtain ⟨hq, hnone⟩ := (spanLength_cons_eq_none hb).1 hnone
    rw [List.take_succ_cons, List.cons_append, spanLength_cons hb hq, ih hnone, Option.map_map]
    rfl

theorem Closes.spanLength_drop {n : Nat} (h : Closes c t n) (hc : c ≠ '\\')
    (hnone : spanLength q t = none) : spanLength q (t.drop n) = none := by
  have hskip := h.spanLength_skip hc hnone (t.drop n)
  rw [List.take_append_drop, hnone] at hskip
  exact Option.map_eq_none_iff.1 hskip.symm

/-- Spaces and tabs hold no quote, so a search passes over them. -/
theorem spanLength_gaps {gaps : Text} (hgaps : ∀ c ∈ gaps, isGap c) (hq : isGap q = false)
    (s : Text) : spanLength q (gaps ++ s) = (spanLength q s).map (· + gaps.length) := by
  induction gaps with
  | nil => simp
  | cons c gaps ih =>
    have hc := hgaps c (by simp)
    have hb : c ≠ '\\' := by
      rintro rfl
      exact absurd hc (by decide)
    have hne : c ≠ q := by
      rintro rfl
      rw [hq] at hc
      cases hc
    rw [List.cons_append, spanLength_cons hb hne,
      ih fun d hd => hgaps d (List.mem_cons_of_mem c hd), Option.map_map]
    rfl

/-- Spaces and tabs at the end of a text close nothing. -/
theorem spanLength_append_gaps {gaps : Text} (hgaps : ∀ c ∈ gaps, isGap c) (hq : IsQuote q) :
    spanLength q (t ++ gaps) = spanLength q t := by
  have hnone : ∀ {blanks : Text}, (∀ c ∈ blanks, isGap c) → spanLength q blanks = none := by
    intro blanks hblanks
    have h := spanLength_gaps hblanks hq.not_gap []
    rwa [List.append_nil] at h
  fun_induction spanLength q t with
  | case1 => exact hnone hgaps
  | case2 c rest ih =>
    rw [List.cons_append, List.cons_append, spanLength_escape, ih]
  | case3 rest _ => exact spanLength_self hq.ne_backslash _
  | case4 c rest hesc hne ih =>
    by_cases hc : c = '\\'
    · -- a backslash at the end of the text: it takes a blank with it, if there is one
      subst hc
      cases rest with
      | cons d rest => exact absurd rfl (hesc d rest rfl)
      | nil =>
        cases gaps with
        | nil => simp [spanLength, hne]
        | cons d gaps =>
          rw [List.cons_append, List.nil_append, spanLength_escape,
            hnone fun e he => hgaps e (List.mem_cons_of_mem d he)]
          rfl
    · rw [List.cons_append, spanLength_cons hc hne, ih]

end Search

end Dockerlint.Segment
