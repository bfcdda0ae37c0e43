import Dockerlint.Args
import Dockerlint.Proofs.Operand.Blanks

/-!
# The pairs of an argument

The argument of `ARG` and of `USER` is a word, or two words with a separator between them. The first
word ends at the separator unless it is quoted; the second goes on to the next blank. The reader tries
the second word and gives the separator back where there is none, so that it is left over and the
argument does not fit. Here the arguments that fit are described as the pairs that can be written, and
each of them is written in one way.

## Main definitions

* `Pair.Fits`: the pairs that can be written
* `Args.ReadsPairs`: the keywords whose arguments are the written pairs

## Main results

* `Pair.read_render`, `Pair.read_eq_ok_iff`: an argument fits exactly if it is a written pair
* `Pair.exists_error_of_separator`: a separator with nothing behind it does not fit
* `Args.readsPairs`: the arguments of `ARG` and of `USER`
-/

namespace Dockerlint

namespace Pair

variable {sep : Char} {t : Text} {p : Pair}

/-- The pairs that can be written with a separator: the first part is a word that ends at the
separator, the second, if there is one, any word. The words keep their quotes. -/
structure Fits (sep : Char) (p : Pair) : Prop where
  first : ∃ w : Word, w.Fits [sep] ∧ w.written = p.first
  second : ∀ s ∈ p.second, ∃ w : Word, w.Fits [] ∧ w.written = s

theorem Fits.second_ne_nil (h : p.Fits sep) : p.second ≠ some [] := by
  intro hsecond
  obtain ⟨w, hw, hwritten⟩ := h.second [] hsecond
  exact hw.written_ne_nil hwritten

/-! ## Written pairs -/

/-- The separator ends the word in front of it, and so does the end of the text. -/
theorem ends_elim (w : Word) (second : Option Text) :
    w.Ends [sep] (second.elim [] (sep :: ·)) := by
  cases w with
  | quoted inner => trivial
  | bare run =>
    intro c hc
    cases second with
    | none => cases hc
    | some s =>
      obtain rfl : sep = c := Option.some.inj hc
      exact Word.inRun_eq_false_iff.2 (.inr (List.mem_singleton_self sep))

/-- **A written pair is read back.** -/
theorem read_render (h : p.Fits sep) : Pair.read sep (p.render sep) = .ok p := by
  obtain ⟨first, second⟩ := p
  obtain ⟨⟨w, hw, hfirst⟩, hsecond⟩ := h
  obtain rfl : w.written = first := hfirst
  have hword : Reader.word [sep] (w.written ++ second.elim [] (sep :: ·)) =
      .ok (w, second.elim [] (sep :: ·)) :=
    Expectation.require_eq_ok_iff.2 (Word.read_eq_some_iff.2 ⟨rfl, hw, ends_elim w second⟩)
  rw [Pair.read, render, hw.trimLeft, hword]
  cases second with
  | none => rfl
  | some s =>
    obtain ⟨v, hv, rfl⟩ := hsecond s rfl
    have hends : v.Ends [] [] := v.ends_of_blank (by simp)
    have hread : readSecond sep (sep :: v.written) = some (v, []) := by
      rw [readSecond, Text.after, if_pos rfl, Text.after, Option.bind_some]
      exact Word.read_eq_some_iff.2 ⟨(List.append_nil _).symm, hv, hends⟩
    simp only [Option.elim_some, hread]
    rfl

/-- Each pair is written in one way. -/
theorem render_inj {q : Pair} (hp : p.Fits sep) (hq : q.Fits sep)
    (h : p.render sep = q.render sep) : p = q := by
  have hread := read_render hp
  rw [h, read_render hq] at hread
  exact (Except.ok.inj hread).symm

/-- What is read is a pair that is written, with blanks behind it. -/
theorem exists_blanks_of_read (h : Pair.read sep t = .ok p) :
    p.Fits sep ∧ ∃ blanks, Text.trimLeft t = p.render sep ++ blanks ∧ Text.trimLeft blanks = [] := by
  rw [Pair.read] at h
  split at h
  · cases h
  · next w rest hw =>
    obtain ⟨htext, hfits, -⟩ := Word.read_eq_some_iff.1 (Expectation.require_eq_ok_iff.1 hw)
    split at h
    · next v behind hv =>
      obtain ⟨rfl, hblank⟩ := Reader.finish_eq_ok_iff.1 h
      obtain ⟨left, hsep, hread⟩ := Option.bind_eq_some_iff.1 hv
      obtain ⟨hleft, hsecond, -⟩ := Word.read_eq_some_iff.1 hread
      refine ⟨⟨⟨w, hfits, rfl⟩, ?_⟩, behind, ?_, hblank⟩
      · rintro s ⟨⟩
        exact ⟨v, hsecond, rfl⟩
      · rw [htext, Text.after_eq_some_iff.1 hsep, hleft, render]
        simp
    · obtain ⟨rfl, hblank⟩ := Reader.finish_eq_ok_iff.1 h
      refine ⟨⟨⟨w, hfits, rfl⟩, by simp⟩, rest, ?_, hblank⟩
      rw [htext, render, Option.elim_none, List.append_nil]

/-- **An argument fits exactly if it is a written pair**, up to its outer blanks. -/
theorem read_eq_ok_iff (hsep : isBlank sep = false) :
    Pair.read sep t = .ok p ↔ p.Fits sep ∧ Text.trim t = p.render sep := by
  rw [(ignoresBlanks_read hsep).read_trim]
  constructor
  · intro h
    obtain ⟨hfits, blanks, htext, hblank⟩ := exists_blanks_of_read h
    rw [Text.trimLeft_trim] at htext
    -- the trimmed argument does not end in blanks
    have hnil : blanks = [] :=
      Text.eq_nil_of_suffix ⟨p.render sep, htext.symm⟩ (Text.trimRight_trim t) hblank
    rw [htext, hnil, List.append_nil]
    exact ⟨hfits, rfl⟩
  · rintro ⟨hfits, htext⟩
    rw [htext]
    exact read_render hfits

/-- **A separator with nothing behind it** is left over. -/
theorem exists_error_of_separator (hsep : isBlank sep = false) {w : Word} (hw : w.Fits [sep])
    (htext : Text.trim t = w.written ++ [sep]) :
    ∃ blanks, Pair.read sep t = .error (.expected .endOfText (sep :: blanks)) := by
  obtain ⟨blanks, hcut, hblank⟩ := Text.exists_trimRight_append (Text.trimLeft t)
  have hstart : Text.trimLeft t = w.written ++ sep :: blanks := by
    rw [hcut, ← Text.trim, htext, List.append_assoc, List.singleton_append]
  have hword : Word.read [sep] (Text.trimLeft t) = some (w, sep :: blanks) :=
    Word.read_eq_some_iff.2 ⟨hstart, hw, ends_elim w (some blanks)⟩
  -- no word begins with a blank
  have hsecond : readSecond sep (sep :: blanks) = none := by
    rw [readSecond, Text.after, if_pos rfl, Text.after, Option.bind_some]
    exact Word.read_eq_none_of_endsToken [] fun c hc => hblank c (List.mem_of_head? hc)
  refine ⟨blanks, ?_⟩
  rw [Pair.read, Reader.word, hword]
  simp only [Expectation.require, hsecond]
  rw [Reader.finish, Text.trimLeft_eq_self hsep]

end Pair

/-! ## The arguments of the keywords -/

namespace Args

/-- The keywords whose arguments are the pairs that are written with a separator, and `fill` the
attributes of both parts. -/
structure ReadsPairs (k : Keyword) (sep : Char) (fill : Text → Option Text → Args) : Prop where
  /-- An argument fits exactly if it is a written pair, which is kept as it is written. -/
  read_iff : ∀ argument args, Args.read k argument = .ok args ↔ ∃ p : Pair, p.Fits sep ∧
    Text.trim argument = p.render sep ∧ args = fill p.first p.second
  /-- No two pairs are written alike. -/
  unique : ∀ p q : Pair, p.Fits sep → q.Fits sep → p.render sep = q.render sep → p = q
  /-- The pair of an argument, written again, is read as the same pair. -/
  again : ∀ argument (p : Pair), Args.read k argument = .ok (fill p.first p.second) →
    Args.read k (p.render sep) = .ok (fill p.first p.second)
  /-- A separator with nothing behind it does not fit. -/
  lone : ∀ argument (w : Word), w.Fits [sep] → Text.trim argument = w.written ++ [sep] →
    ∃ m, Args.read k argument = .error m
  /-- Nothing is ever read as an empty second part. -/
  nonempty : ∀ argument first, Args.read k argument ≠ .ok (fill first (some []))

theorem readsPairs_of_read {k : Keyword} {sep : Char} {fill : Text → Option Text → Args}
    (hsep : isBlank sep = false) (hinj : Function.Injective2 fill)
    (hread : ∀ argument, Args.read k argument =
      (Pair.read sep argument).map fun p => fill p.first p.second) :
    ReadsPairs k sep fill := by
  have hiff : ∀ argument args, Args.read k argument = .ok args ↔ ∃ p : Pair, p.Fits sep ∧
      Text.trim argument = p.render sep ∧ args = fill p.first p.second := by
    intro argument args
    rw [hread]
    constructor
    · intro h
      obtain ⟨p, hp, rfl⟩ := exists_of_map_eq_ok h
      obtain ⟨hfits, htext⟩ := (Pair.read_eq_ok_iff hsep).1 hp
      exact ⟨p, hfits, htext, rfl⟩
    · rintro ⟨p, hfits, htext, rfl⟩
      rw [(Pair.read_eq_ok_iff hsep).2 ⟨hfits, htext⟩]
      rfl
  -- what is read fits, so that it can be written again and has no empty second part
  have hfits : ∀ argument n d, Args.read k argument = .ok (fill n d) → (Pair.mk n d).Fits sep := by
    intro argument n d h
    obtain ⟨p, hp, -, hargs⟩ := (hiff argument _).1 h
    obtain ⟨rfl, rfl⟩ := hinj hargs
    exact hp
  constructor
  · exact hiff
  · intro p q hp hq
    exact Pair.render_inj hp hq
  · intro argument p h
    rw [hread, Pair.read_render (hfits argument p.first p.second h)]
    rfl
  · intro argument w hw htext
    obtain ⟨blanks, herror⟩ := Pair.exists_error_of_separator hsep hw htext
    rw [hread, herror]
    exact ⟨_, rfl⟩
  · intro argument first h
    exact (hfits argument first (some []) h).second_ne_nil rfl

/-- **The arguments of `ARG` and of `USER`** are the written pairs: a name and perhaps a default behind
an equals sign, a user and perhaps a group behind a colon. -/
theorem readsPairs :
    ReadsPairs .arg '=' (fun name default => .arg { name := some name, default }) ∧
      ReadsPairs .user ':' (fun name group => .user { name := some name, group }) := by
  constructor
  · refine readsPairs_of_read rfl ?_ fun _ =>
      read_eq_map rfl (fun p : Pair => .parameter p.first p.second) rfl
    intro name name' default default' h
    simpa using h
  · refine readsPairs_of_read rfl ?_ fun _ =>
      read_eq_map rfl (fun p : Pair => .user p.first p.second) rfl
    intro name name' group group' h
    simpa using h

end Args

end Dockerlint
