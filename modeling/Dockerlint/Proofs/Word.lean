import Dockerlint.Proofs.Token
import Dockerlint.Reader

/-!
# What counts as a word

The readers of quoted strings and of words take as much as they can. Here their results are
described without them: a body is a run of escapes and ordinary characters, a word is a body in
double quotes or a run of characters between stops, and a word is read exactly where the text
behind it cannot continue it.

## Main definitions

* `Quoted.IsBody`: the bodies of quoted strings
* `Word.Fits`: the words that end at given stops
* `Word.Ends`: the texts that end a word in front of them

## Main results

* `Quoted.body_eq_some_iff`: the reader of bodies finds exactly the bodies
* `Word.read_eq_some_iff`: the reader of words finds exactly the words
* `Word.readMany_piece`, `Word.readMany_tokens`: the words of a text without quotes are its tokens
* `Reader.finish_eq_ok_iff`: an argument ends in blanks
-/

namespace Dockerlint

/-! ## Bodies of quoted strings -/

namespace Quoted

/-- The bodies of strings in the quotes `q`: escapes, and characters that are neither a backslash,
a line feed nor the quote. -/
inductive IsBody (q : Char) : Text → Prop where
  | nil : IsBody q []
  | escape {t : Text} (c : Char) (ht : IsBody q t) : IsBody q ('\\' :: c :: t)
  | plain {c : Char} {t : Text} (hb : c ≠ '\\') (hn : c ≠ '\n') (hq : c ≠ q) (ht : IsBody q t) :
      IsBody q (c :: t)

theorem isBody_of_body {q : Char} {t inner behind : Text}
    (h : body q t = some (inner, behind)) : IsBody q inner := by
  fun_induction body q t generalizing inner with
  | case1 => simp at h
  | case2 c rest ih =>
    obtain ⟨⟨i, b⟩, hb, hib⟩ := Option.map_eq_some_iff.1 h
    obtain ⟨rfl, rfl⟩ := Prod.mk.inj hib
    exact .escape c (ih hb)
  | case3 => simp at h
  | case4 rest hesc hnl =>
    obtain ⟨rfl, rfl⟩ := Prod.mk.inj (Option.some.inj h)
    exact .nil
  | case5 c rest hesc hnl hq ih =>
    obtain ⟨⟨i, b⟩, hb, hib⟩ := Option.map_eq_some_iff.1 h
    obtain ⟨rfl, rfl⟩ := Prod.mk.inj hib
    refine .plain ?_ hnl hq (ih hb)
    -- a backslash is not alone, because the closing quote comes behind it
    rintro rfl
    obtain ⟨d, r, hr⟩ := List.exists_cons_of_ne_nil (l := rest) (by rintro rfl; simp [body] at hb)
    exact hesc d r rfl hr

theorem IsBody.body_append {q : Char} (hq : q ≠ '\\') (hn : q ≠ '\n') {inner : Text}
    (h : IsBody q inner) (behind : Text) : body q (inner ++ q :: behind) = some (inner, behind) := by
  induction h with
  | nil =>
    rw [List.nil_append, body]
    · simp [hn]
    · -- the quote does not begin an escape
      rintro d r rfl
      exact absurd rfl hq
  | escape c ht ih => simp [body, ih]
  | plain hb hnl hc ht ih =>
    rw [List.cons_append, body]
    · simp [hnl, hc, ih]
    · rintro d r rfl
      exact absurd rfl hb

/-- **The reader of bodies finds exactly the bodies.** -/
theorem body_eq_some_iff {q : Char} (hq : q ≠ '\\') (hn : q ≠ '\n') {t inner behind : Text} :
    body q t = some (inner, behind) ↔ t = inner ++ q :: behind ∧ IsBody q inner := by
  constructor
  · intro h
    exact ⟨body_eq_some h, isBody_of_body h⟩
  · rintro ⟨rfl, h⟩
    exact h.body_append hq hn behind

/-- A text without the quote, backslashes and line feeds is a body. -/
theorem isBody_of_plain {q : Char} {t : Text} (h : ∀ c ∈ t, c ≠ '\\' ∧ c ≠ '\n' ∧ c ≠ q) :
    IsBody q t := by
  induction t with
  | nil => exact .nil
  | cons c t ih =>
    obtain ⟨hb, hn, hq⟩ := h c (List.mem_cons_self ..)
    exact .plain hb hn hq (ih fun d hd => h d (List.mem_cons_of_mem c hd))

/-- A body without backslashes is its own value. -/
theorem unescape_of_notMem {t : Text} (h : '\\' ∉ t) : unescape t = t := by
  induction t with
  | nil => rfl
  | cons c t ih =>
    obtain ⟨hc, ht⟩ := List.ne_and_not_mem_of_not_mem_cons h
    rw [unescape, ih ht]
    rintro d rest rfl
    exact absurd rfl hc

end Quoted

/-! ## Words -/

namespace Word

/-- The runs that are words: not empty, without blanks and stops, and not begun by a quote. -/
structure IsBare (stops : List Char) (run : Text) : Prop where
  ne_nil : run ≠ []
  head : run.head? ≠ some '"'
  inRun : ∀ c ∈ run, inRun stops c

/-- The words that end at `stops`. -/
def Fits (stops : List Char) : Word → Prop
  | .quoted inner => Quoted.IsBody '"' inner
  | .bare run => IsBare stops run

/-- The texts that end a word in front of them. A quoted word ends by itself. -/
def Ends (stops : List Char) : Word → Text → Prop
  | .quoted _, _ => True
  | .bare _, rest => ∀ c, rest.head? = some c → inRun stops c = false

theorem IsBare.mono {stops stops' : List Char} {run : Text} (h : IsBare stops run)
    (hstops : ∀ c ∈ stops', c ∈ stops) : IsBare stops' run where
  ne_nil := h.ne_nil
  head := h.head
  inRun := by
    intro c hc
    have hin := h.inRun c hc
    simp only [Word.inRun, Bool.and_eq_true, Bool.not_eq_true', List.contains_eq_mem,
      decide_eq_false_iff_not] at hin ⊢
    exact ⟨hin.1, fun hmem => hin.2 (hstops c hmem)⟩

/-- A word ends where blanks follow it. -/
theorem ends_of_blank (w : Word) {stops : List Char} {rest : Text}
    (h : ∀ c, rest.head? = some c → isBlank c) : w.Ends stops rest := by
  cases w with
  | quoted inner => trivial
  | bare run =>
    intro c hc
    simp [inRun, h c hc]

theorem readBare_eq_some_iff {stops : List Char} {t : Text} (ht : t.head? ≠ some '"') {w : Word}
    {rest : Text} : readBare stops t = some (w, rest) ↔
      ∃ run, w = .bare run ∧ t = run ++ rest ∧ IsBare stops run ∧ Ends stops (.bare run) rest := by
  constructor
  · intro h
    unfold readBare at h
    split at h
    · simp at h
    · next hne =>
      obtain ⟨rfl, rfl⟩ := Prod.mk.inj (Option.some.inj h)
      refine ⟨_, rfl, by simp, ⟨hne, ?_, List.all_eq_true.1 List.all_takeWhile⟩,
        fun c hc => Text.eq_false_of_head?_dropWhile hc⟩
      -- a quote at the head of the run would be at the head of the text
      intro hhead
      refine ht ?_
      rw [← List.takeWhile_append_dropWhile (p := inRun stops) (l := t), List.head?_append, hhead]
      rfl
  · rintro ⟨run, rfl, rfl, hbare, hends⟩
    rw [readBare, Text.takeWhile_run hbare.inRun hends, Text.dropWhile_run hbare.inRun hends,
      if_neg hbare.ne_nil]

theorem head?_written_bare {stops : List Char} {run : Text} (h : IsBare stops run) (rest : Text) :
    (run ++ rest).head? ≠ some '"' := by
  obtain ⟨c, run, rfl⟩ := List.exists_cons_of_ne_nil h.ne_nil
  exact h.head

theorem read_quote_eq_some_iff {stops : List Char} {t : Text} {w : Word} {rest : Text} :
    read stops ('"' :: t) = some (w, rest) ↔
      ∃ inner, w = .quoted inner ∧ t = inner ++ '"' :: rest ∧ Quoted.IsBody '"' inner := by
  have hread : read stops ('"' :: t) =
      (Quoted.body '"' t).map fun body => (.quoted body.1, body.2) := rfl
  rw [hread, Option.map_eq_some_iff]
  constructor
  · rintro ⟨⟨inner, behind⟩, hb, hw⟩
    obtain ⟨rfl, rfl⟩ := Prod.mk.inj hw
    exact ⟨inner, rfl, (Quoted.body_eq_some_iff (by decide) (by decide)).1 hb⟩
  · rintro ⟨inner, rfl, hb⟩
    exact ⟨(inner, rest), (Quoted.body_eq_some_iff (by decide) (by decide)).2 hb, rfl⟩

/-- **The reader of words finds exactly the words**, as far as they go. -/
theorem read_eq_some_iff {stops : List Char} {t : Text} {w : Word} {rest : Text} :
    read stops t = some (w, rest) ↔ t = w.written ++ rest ∧ w.Fits stops ∧ w.Ends stops rest := by
  -- the first character decides which kind of word is tried, and the other is not tried then
  by_cases ht : t.head? = some '"'
  · obtain ⟨t, rfl⟩ := List.head?_eq_some_iff.1 ht
    rw [read_quote_eq_some_iff]
    constructor
    · rintro ⟨inner, rfl, rfl, hbody⟩
      exact ⟨by simp [written], hbody, trivial⟩
    · rintro ⟨hw, hfits, -⟩
      cases w with
      | quoted inner => exact ⟨inner, rfl, by simpa [written] using hw, hfits⟩
      | bare run => exact absurd (hw ▸ ht) (head?_written_bare hfits rest)
  · rw [read, if_neg ht, readBare_eq_some_iff ht]
    constructor
    · rintro ⟨run, rfl, rfl, hbare, hends⟩
      exact ⟨rfl, hbare, hends⟩
    · rintro ⟨rfl, hfits, hends⟩
      cases w with
      | quoted inner => exact absurd rfl ht
      | bare run => exact ⟨run, rfl, rfl, hfits, hends⟩

theorem inRun_iff {stops : List Char} {c : Char} :
    inRun stops c ↔ isBlank c = false ∧ c ∉ stops := by
  simp [inRun]

theorem inRun_eq_false_iff {stops : List Char} {c : Char} :
    inRun stops c = false ↔ isBlank c ∨ c ∈ stops := by
  rw [← Bool.not_eq_true, inRun_iff, Decidable.not_and_iff_not_or_not,
    Bool.not_eq_false, Decidable.not_not]

/-- A run without quotes is a word up to the next stop or blank. -/
theorem read_run {stops : List Char} {run rest : Text} (hne : run ≠ []) (hquote : '"' ∉ run)
    (hrun : ∀ c ∈ run, isBlank c = false ∧ c ∉ stops)
    (hrest : ∀ c, rest.head? = some c → isBlank c ∨ c ∈ stops) :
    read stops (run ++ rest) = some (.bare run, rest) := by
  refine read_eq_some_iff.2 ⟨rfl, ⟨hne, fun hhead => hquote (List.mem_of_head? hhead), ?_⟩, ?_⟩
  · exact fun c hc => inRun_iff.2 (hrun c hc)
  · exact fun c hc => inRun_eq_false_iff.2 (hrest c hc)

/-- There is no word before a blank, before a stop that is no quote, or at the end. -/
theorem read_eq_none {stops : List Char} {t : Text}
    (h : ∀ c, t.head? = some c → c ≠ '"' ∧ (isBlank c ∨ c ∈ stops)) : read stops t = none := by
  cases hread : read stops t with
  | none => rfl
  | some found =>
    obtain ⟨w, rest⟩ := found
    obtain ⟨rfl, hfits, -⟩ := read_eq_some_iff.1 hread
    cases w with
    | quoted inner => exact absurd rfl (h '"' rfl).1
    | bare run =>
      obtain ⟨c, run, rfl⟩ := List.exists_cons_of_ne_nil hfits.ne_nil
      have hc := hfits.inRun c (List.mem_cons_self ..)
      rw [inRun_eq_false_iff.2 (h c rfl).2] at hc
      cases hc

/-- A word does not begin with a blank. -/
theorem Fits.trimLeft {stops : List Char} {w : Word} (h : w.Fits stops) (rest : Text) :
    Text.trimLeft (w.written ++ rest) = w.written ++ rest := by
  cases w with
  | quoted inner => exact Text.trimLeft_eq_self rfl
  | bare run =>
    obtain ⟨c, run, rfl⟩ := List.exists_cons_of_ne_nil h.ne_nil
    have hc := h.inRun c (by simp)
    simp only [Word.inRun, Bool.and_eq_true, Bool.not_eq_true'] at hc
    exact Text.trimLeft_eq_self hc.1

/-! ## Words and tokens -/

section Token

variable {w rest : Text}

/-- Behind a token there is no word. -/
theorem read_eq_none_of_endsToken (stops : List Char) (hrest : Text.EndsToken rest) :
    read stops rest = none := by
  refine read_eq_none fun c hc => ⟨?_, .inl (hrest c hc)⟩
  rintro rfl
  exact absurd (hrest '"' hc) (by decide)

/-- A bare word is read up to the next blank. -/
theorem read_of_isBare (hw : IsBare [] w) (hrest : Text.EndsToken rest) :
    read [] (w ++ rest) = some (.bare w, rest) :=
  read_eq_some_iff.2 ⟨rfl, hw, ends_of_blank (.bare w) hrest⟩

theorem isBare_of_isToken (hw : Text.IsToken w) (hhead : w.head? ≠ some '"') : IsBare [] w where
  ne_nil := hw.ne_nil
  head := hhead
  inRun := fun c hc => inRun_iff.2 ⟨hw.not_blank c hc, List.not_mem_nil⟩

/-- A token without quotes is a word. -/
theorem read_token (hw : Text.IsToken w) (hquote : '"' ∉ w) (hrest : Text.EndsToken rest) :
    read [] (w ++ rest) = some (.bare w, rest) :=
  read_of_isBare (isBare_of_isToken hw fun hhead => hquote (List.mem_of_head? hhead)) hrest

end Token

/-- The words of a text, one at a time. -/
theorem readMany_eq (stops : List Char) (t : Text) : readMany stops t =
    match read stops (Text.trimLeft t) with
    | none => ([], t)
    | some (w, rest) => (w :: (readMany stops rest).1, (readMany stops rest).2) := by
  rw [readMany]
  split
  · next h => simp only [h]
  · next w rest h => simp only [h]

section Piece

variable {stops : List Char} {piece rest : Text}

/-- **The words in front of a stop are the tokens** of a piece without quotes and stops, and the stop
is what is left. -/
theorem readMany_piece (hquote : '"' ∉ piece) (hpiece : ∀ c ∈ piece, c ∉ stops)
    (hrest : ∀ c, rest.head? = some c → c ∈ stops ∧ isBlank c = false ∧ c ≠ '"') :
    (readMany stops (piece ++ rest)).1 = (Text.tokens piece).map .bare ∧
      Text.trimLeft (readMany stops (piece ++ rest)).2 = rest := by
  have hstop : Text.trimLeft rest = rest := by
    cases rest with
    | nil => rfl
    | cons c rest => exact Text.trimLeft_eq_self (hrest c rfl).2.1
  induction piece using Text.tokens_induction with
  | blank piece hblank htokens =>
    have htrim : Text.trimLeft (piece ++ rest) = rest := by
      rw [Text.trimLeft_append, hblank, if_pos rfl, hstop]
    have hnone : read stops rest = none :=
      read_eq_none fun c hc => ⟨(hrest c hc).2.2, .inr (hrest c hc).1⟩
    rw [readMany_eq, htrim, hnone, htokens]
    exact ⟨rfl, htrim⟩
  | token piece w behind hcut hw hbehind htokens ih =>
    have hmem : ∀ {c}, c ∈ w ++ behind → c ∈ piece := Text.mem_of_trimLeft_eq hcut
    have htrim : Text.trimLeft (piece ++ rest) = w ++ (behind ++ rest) := by
      have hne : w ++ behind ≠ [] := fun hnil => hw.ne_nil (List.append_eq_nil_iff.1 hnil).1
      rw [Text.trimLeft_append, hcut, if_neg hne, List.append_assoc]
    have hword : read stops (w ++ (behind ++ rest)) = some (.bare w, behind ++ rest) := by
      apply read_run hw.ne_nil fun hc => hquote (hmem (List.mem_append_left _ hc))
      · intro c hc
        exact ⟨hw.not_blank c hc, hpiece c (hmem (List.mem_append_left _ hc))⟩
      · intro c hc
        rw [List.head?_append] at hc
        rcases Option.or_eq_some_iff.1 hc with hc | ⟨-, hc⟩
        · exact .inl (hbehind c hc)
        · exact .inr (hrest c hc).1
    obtain ⟨hmany, hleft⟩ := ih (fun hc => hquote (hmem (List.mem_append_right _ hc)))
      fun c hc => hpiece c (hmem (List.mem_append_right _ hc))
    rw [readMany_eq, htrim, hword, htokens, List.map_cons]
    exact ⟨congrArg (Word.bare w :: ·) hmany, hleft⟩

/-- **The words of a text without quotes are its tokens**, and nothing is left behind them. -/
theorem readMany_tokens {t : Text} (hquote : '"' ∉ t) :
    (readMany [] t).1 = (Text.tokens t).map .bare ∧ Text.trimLeft (readMany [] t).2 = [] := by
  have hread : (readMany [] (t ++ [])).1 = (Text.tokens t).map .bare ∧
      Text.trimLeft (readMany [] (t ++ [])).2 = [] := readMany_piece hquote (by simp) (by simp)
  rwa [List.append_nil] at hread

/-- The words that are tokens, with single spaces between them. -/
theorem phrase_bare (ws : List Text) : phrase (ws.map .bare) = Text.join [' '] ws := by
  rw [phrase, List.map_map]
  exact congrArg _ (List.map_id _)

end Piece

/-! ## Rendered words -/

theorem read_render (stops : List Char) (value rest : Text) :
    read stops (Quoted.render .double value ++ rest) =
      some (.quoted (Quoted.escape .double value), rest) := by
  have hhead : (Quoted.render .double value ++ rest).head? = some '"' := rfl
  rw [read, if_pos hhead, Quoted.read_render]
  rfl

@[simp] theorem value_quoted_escape (value : Text) :
    (Word.quoted (Quoted.escape .double value)).value = value :=
  Quoted.unescape_escape .double value

end Word

/-! ## The end of an argument -/

theorem Reader.finish_eq_ok_iff {α : Type} {a b : α} {t : Text} :
    Reader.finish a t = .ok b ↔ a = b ∧ Text.trimLeft t = [] := by
  unfold Reader.finish
  cases Text.trimLeft t with
  | nil => simp
  | cons c rest => simp

end Dockerlint
