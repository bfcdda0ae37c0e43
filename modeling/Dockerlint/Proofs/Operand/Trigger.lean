import Dockerlint.Proofs.Operand.Blanks
import Dockerlint.Proofs.Operand.Located

/-!
# Wrapped instructions

The argument of `ONBUILD` is another instruction: blanks, a keyword, blanks and an argument. It is
read exactly as that instruction would be read on its own. What is accepted is the same, and a
mismatch is the same too; only its column counts from the beginning of the longer text. Keywords
are in upper case and blanks are not, so the text of a keyword that cannot be wrapped is found only
where that keyword stands, and never at the beginning of another one.

The reader of a wrapped instruction is that of its keyword. A reader that calls itself for it, as
often as it likes, never goes deeper than one level.

## Main definitions

* `Args.Wraps`: a text that wraps an instruction
* `Args.wrapped`: the keyword and the argument that a text hands on
* `Args.readNested`: reading that calls itself, with a bound on how deep it may go

## Main results

* `Args.readTrigger_of_wraps`, `Args.readTrigger_unwanted`: what is read from such a text
* `Args.exists_wraps_of_readTrigger`: what is accepted wraps an instruction
* `Args.readNested_one`: one level is enough
* `Args.read_onbuild`: reading a wrapped instruction is reading the instruction, moved
-/

namespace Dockerlint

/-! ## Keywords in front of blanks -/

namespace Keyword

theorem isUpper_text (k : Keyword) : ∀ c ∈ k.text, c.isUpper := by
  have hall : k.text.all Char.isUpper = true := by cases k <;> decide
  exact List.all_eq_true.1 hall

/-- No keyword that cannot be wrapped begins another keyword. -/
theorem eq_of_prefix {k k' : Keyword} (hk' : k' ∈ Args.unwrappable) (h : k'.text <+: k.text) :
    k' = k := by
  have hall : ∀ k' ∈ Args.unwrappable, ∀ k ∈ all, k'.text <+: k.text → k' = k := by decide
  exact hall k' hk' k (mem_all k) h

end Keyword

theorem isUpper_eq_false_of_isBlank {c : Char} (h : isBlank c) : c.isUpper = false := by
  by_contra hupper
  rw [Bool.not_eq_false, Char.isUpper, decide_eq_true_eq] at hupper
  have hlow : 65 ≤ c.toNat := hupper.1
  have hhigh : c.toNat ≤ 90 := hupper.2
  rw [isBlank_eq_false_of_le hlow (by omega)] at h
  cases h

namespace Args

/-- A text that wraps an instruction: blanks, the keyword, blanks, and the argument of the keyword
from its first character on. -/
structure Wraps (t before : Text) (k : Keyword) (between argument : Text) : Prop where
  text : t = before ++ (k.text ++ (between ++ argument))
  blank_before : ∀ c ∈ before, isBlank c
  between_ne_nil : between ≠ []
  blank_between : ∀ c ∈ between, isBlank c
  argument : Text.startsBlank argument = false

/-- A text that begins with a keyword begins with no blank. -/
theorem trimLeft_keyword {before : Text} (hbefore : ∀ c ∈ before, isBlank c) (k : Keyword)
    (rest : Text) : Text.trimLeft (before ++ (k.text ++ rest)) = k.text ++ rest := by
  obtain ⟨c, cs, hk⟩ := List.exists_cons_of_ne_nil (Line.keyword_ne_nil k)
  have hc : isBlank c = false := Line.keyword_not_blank k c (by simp [hk])
  rw [Text.trimLeft_blanks_append hbefore, hk]
  exact Text.trimLeft_eq_self hc

/-- A keyword that cannot be wrapped is refused, whatever follows it. -/
theorem readTrigger_unwanted {k : Keyword} (hk : k ∈ unwrappable) {before : Text}
    (hbefore : ∀ c ∈ before, isBlank c) (rest : Text) :
    readTrigger (before ++ (k.text ++ rest)) = .error (.unwanted k (k.text ++ rest)) := by
  -- the three keywords begin with different letters
  have hfind : unwrappable.find? (fun k' => Text.startsWith k'.text (k.text ++ rest)) = some k := by
    simp only [unwrappable, List.mem_cons, List.not_mem_nil, or_false] at hk
    rcases hk with rfl | rfl | rfl
    · rfl
    · rfl
    · rfl
  rw [readTrigger, trimLeft_keyword hbefore]
  simp only [hfind]

namespace Wraps

variable {t before between argument : Text} {k : Keyword}

theorem trimLeft_text (h : Wraps t before k between argument) :
    Text.trimLeft t = k.text ++ (between ++ argument) := by
  rw [h.text, trimLeft_keyword h.blank_before]

theorem trimLeft_behind (h : Wraps t before k between argument) :
    Text.trimLeft (between ++ argument) = argument := by
  rw [Text.trimLeft_blanks_append h.blank_between]
  exact Text.trimLeft_eq_self_iff.2 h.argument

theorem startsBlank_behind (h : Wraps t before k between argument) :
    Text.startsBlank (between ++ argument) := by
  obtain ⟨c, cs, rfl⟩ := List.exists_cons_of_ne_nil h.between_ne_nil
  exact h.blank_between c (List.mem_cons_self ..)

/-- The blank behind the keyword ends the run of letters. -/
theorem not_isUpper_behind (h : Wraps t before k between argument) :
    ∀ c, (between ++ argument).head? = some c → c.isUpper = false := by
  intro c hc
  obtain ⟨d, ds, rfl⟩ := List.exists_cons_of_ne_nil h.between_ne_nil
  obtain rfl := Option.some.inj hc
  exact isUpper_eq_false_of_isBlank (h.blank_between d (List.mem_cons_self ..))

theorem takeWhile_isUpper (h : Wraps t before k between argument) :
    (k.text ++ (between ++ argument)).takeWhile Char.isUpper = k.text :=
  Text.takeWhile_run k.isUpper_text h.not_isUpper_behind

theorem dropWhile_isUpper (h : Wraps t before k between argument) :
    (k.text ++ (between ++ argument)).dropWhile Char.isUpper = between ++ argument :=
  Text.dropWhile_run k.isUpper_text h.not_isUpper_behind

/-- A keyword that can be wrapped is not taken for one that cannot. -/
theorem find?_unwrappable (h : Wraps t before k between argument) (hk : k ∉ unwrappable) :
    unwrappable.find? (fun k' => Text.startsWith k'.text (k.text ++ (between ++ argument))) =
      none := by
  rw [List.find?_eq_none]
  intro k' hk' hstarts
  obtain ⟨rest, hrest⟩ := Option.isSome_iff_exists.1 hstarts
  have hstart : k.text ++ (between ++ argument) = k'.text ++ rest :=
    Text.after_eq_some_iff.1 hrest
  -- all letters of the other keyword are among the letters of this one
  have hprefix : k'.text <+: k.text := by
    rw [← h.takeWhile_isUpper, hstart, List.takeWhile_append_of_pos k'.isUpper_text]
    exact List.prefix_append ..
  exact hk (Keyword.eq_of_prefix hk' hprefix ▸ hk')

end Wraps

/-! ## Handing on -/

/-- The keyword and the argument that a text hands on to the reader of a wrapped instruction. -/
def wrapped (t : Text) : Except Mismatch (Keyword × Text) :=
  let start := Text.trimLeft t
  match unwrappable.find? fun k => Text.startsWith k.text start with
  | some k => .error (.unwanted k start)
  | none =>
    let word := start.takeWhile Char.isUpper
    let rest := start.dropWhile Char.isUpper
    if word = [] then .error (.expected .keyword start)
    else if Text.startsBlank rest then
      match Keyword.ofText? word with
      | none => .error (.unknownKeyword word)
      | some k => .ok (k, Text.trimLeft rest)
    else .error (.expected .whitespace rest)

theorem wrapped_of_wraps {t before between argument : Text} {k : Keyword}
    (h : Wraps t before k between argument) (hk : k ∉ unwrappable) :
    wrapped t = .ok (k, argument) := by
  rw [wrapped, h.trimLeft_text]
  simp only [h.find?_unwrappable hk, h.takeWhile_isUpper, h.dropWhile_isUpper,
    if_neg (Line.keyword_ne_nil k), if_pos h.startsBlank_behind, Keyword.ofText?_text,
    h.trimLeft_behind]

/-- **What is handed on was wrapped**, by a keyword that can be. -/
theorem exists_wraps_of_wrapped {t argument : Text} {k : Keyword}
    (h : wrapped t = .ok (k, argument)) :
    k ∉ unwrappable ∧ ∃ before between, Wraps t before k between argument := by
  rw [wrapped] at h
  split at h
  · cases h
  · next hfind =>
    dsimp only at h
    split at h
    · cases h
    · split at h
      · next hblank =>
        split at h
        · cases h
        · next k' hk' =>
          obtain ⟨rfl, rfl⟩ := Prod.mk.inj (Except.ok.inj h)
          have hword := Keyword.text_of_ofText? hk'
          refine ⟨not_mem_unwrappable (hword ▸ List.takeWhile_prefix _) hfind, ?_⟩
          -- the text is cut at its first letter, behind its letters and behind the blanks there
          refine ⟨t.takeWhile isBlank, ((Text.trimLeft t).dropWhile Char.isUpper).takeWhile isBlank,
            ?_, ?_, ?_, ?_, ?_⟩
          · rw [hword, Text.takeWhile_append_trimLeft, List.takeWhile_append_dropWhile,
              Text.takeWhile_append_trimLeft]
          · exact List.all_eq_true.1 List.all_takeWhile
          · cases hrest : (Text.trimLeft t).dropWhile Char.isUpper with
            | nil =>
              rw [hrest] at hblank
              cases hblank
            | cons c cs =>
              rw [hrest] at hblank
              have hc : isBlank c := hblank
              rw [List.takeWhile_cons_of_pos hc]
              exact List.cons_ne_nil _ _
          · exact List.all_eq_true.1 List.all_takeWhile
          · exact Text.trimLeft_eq_self_iff.1 (Text.trimLeft_trimLeft _)
      · cases h

/-- The reader of `ONBUILD` is that of the keyword that the text hands on. -/
theorem readTrigger_eq (t : Text) : readTrigger t =
    match wrapped t with
    | .error m => .error m
    | .ok (k, argument) =>
      match k.form? with
      | none => .error (.unwanted k (Text.trimLeft t))
      | some f =>
        (f.read argument).map fun operand =>
          .onbuild (some k.text) (some (.ofOperand k operand)) := by
  rw [readTrigger, wrapped]
  dsimp only
  cases unwrappable.find? fun k => Text.startsWith k.text (Text.trimLeft t) with
  | some k => rfl
  | none =>
    dsimp only
    split
    · rfl
    · split
      · cases hk : Keyword.ofText? ((Text.trimLeft t).takeWhile Char.isUpper) with
        | none => rfl
        | some k =>
          cases hf : k.form? with
          | none => simp only [hf]
          | some f => simp only [hf, Keyword.text_of_ofText? hk]
      · rfl

theorem readTrigger_of_wrapped {t argument : Text} {k : Keyword} {f : Form}
    (h : wrapped t = .ok (k, argument)) (hf : k.form? = some f) :
    readTrigger t = (read k argument).map fun args => .onbuild (some k.text) (some args) := by
  rw [readTrigger_eq, h, read_eq_of_form hf]
  simp only [hf]
  cases f.read argument <;> rfl

/-- A keyword that can be wrapped has a form of its own. -/
theorem exists_form_of_wrapped {t argument : Text} {k : Keyword}
    (h : wrapped t = .ok (k, argument)) : ∃ f, k.form? = some f := by
  refine Keyword.exists_form ?_
  rintro rfl
  exact (exists_wraps_of_wrapped h).1 (List.mem_cons_self ..)

/-! ## Levels -/

/-- Reads the arguments of a keyword and calls itself for a wrapped instruction, but goes only
`levels` deep: nothing is returned if it had to go deeper. -/
def readNested (levels : Nat) (k : Keyword) (t : Text) : Option (Except Mismatch Args) :=
  match k.form? with
  | some f => some ((f.read t).map (.ofOperand k))
  | none =>
    match wrapped t with
    | .error m => some (.error m)
    | .ok (inner, argument) =>
      match levels with
      | 0 => none
      | levels + 1 =>
        (readNested levels inner argument).map fun outcome =>
          outcome.map fun args => .onbuild (some inner.text) (some args)

theorem readNested_of_form {k : Keyword} {f : Form} (hf : k.form? = some f) (levels : Nat)
    (t : Text) : readNested levels k t = some ((f.read t).map (.ofOperand k)) := by
  unfold readNested
  simp only [hf]

/-- **One level is enough.** -/
theorem readNested_one (k : Keyword) (t : Text) : readNested 1 k t = some (read k t) := by
  unfold readNested read
  cases k.form? with
  | some f => rfl
  | none =>
    cases hwrapped : wrapped t with
    | error m => simp only [readTrigger_eq, hwrapped]
    | ok found =>
      obtain ⟨inner, argument⟩ := found
      obtain ⟨f, hf⟩ := exists_form_of_wrapped hwrapped
      -- the wrapped keyword has its own form, so it calls no further
      simp only [readNested_of_form hf, readTrigger_of_wrapped hwrapped hf, read_eq_of_form hf,
        Option.map_some]

/-! ## Reading a wrapped instruction -/

variable {t before between argument : Text} {k : Keyword}

theorem read_onbuild_eq (t : Text) : read .onbuild t = readTrigger t := rfl

/-- A wrapped instruction that can be read is read. -/
theorem read_onbuild_of_ok (h : wrapped t = .ok (k, argument)) {args : Args}
    (hread : read k argument = .ok args) :
    read .onbuild t = .ok (.onbuild (some k.text) (some args)) := by
  obtain ⟨f, hf⟩ := exists_form_of_wrapped h
  rw [read_onbuild_eq, readTrigger_of_wrapped h hf, hread]
  rfl

/-- A mismatch in a wrapped instruction is one of the whole argument. -/
theorem read_onbuild_of_error (h : wrapped t = .ok (k, argument)) {m : Mismatch}
    (hread : read k argument = .error m) : read .onbuild t = .error m ∧ m.Within argument := by
  obtain ⟨f, hf⟩ := exists_form_of_wrapped h
  constructor
  · rw [read_onbuild_eq, readTrigger_of_wrapped h hf, hread]
    rfl
  · rw [read_eq_of_form hf] at hread
    exact f.located_read (eq_error_of_map_eq_error hread)

/-- What is accepted was wrapped, and its own reader accepts it. -/
theorem exists_wrapped_of_read_onbuild {args : Args} (h : read .onbuild t = .ok args) :
    ∃ k argument inner, wrapped t = .ok (k, argument) ∧ read k argument = .ok inner ∧
      args = .onbuild (some k.text) (some inner) := by
  cases hwrapped : wrapped t with
  | error m =>
    rw [read_onbuild_eq, readTrigger_eq, hwrapped] at h
    cases h
  | ok found =>
    obtain ⟨k, argument⟩ := found
    obtain ⟨f, hf⟩ := exists_form_of_wrapped hwrapped
    rw [read_onbuild_eq, readTrigger_of_wrapped hwrapped hf] at h
    obtain ⟨inner, hread, rfl⟩ := exists_of_map_eq_ok h
    exact ⟨k, argument, inner, rfl, hread, rfl⟩

/-- **Reading a wrapped instruction is reading the instruction, moved.** Where a text wraps an
instruction whose keyword can be wrapped, it is accepted if the instruction is, with its keyword and
its arguments, and otherwise it has the mismatch of the instruction, at a column that is moved by
what stands in front of its argument. Whatever is accepted is such a text. A keyword that cannot be
wrapped is refused where it stands. So a reader that calls itself for a wrapped instruction does so
at most once. -/
theorem read_onbuild :
    (∀ t before k between argument, Wraps t before k between argument → k ∉ unwrappable →
      (∀ args, read k argument = .ok args →
        read .onbuild t = .ok (.onbuild (some k.text) (some args))) ∧
      ∀ m, read k argument = .error m → read .onbuild t = .error m ∧
        ∃ c, m.column argument = some c ∧
          m.column t = some (c + (before ++ (k.text ++ between)).length)) ∧
    (∀ t args, read .onbuild t = .ok args →
      ∃ before k between argument inner, Wraps t before k between argument ∧ k ∉ unwrappable ∧
        read k argument = .ok inner ∧ args = .onbuild (some k.text) (some inner)) ∧
    (∀ t before k between argument, Wraps t before k between argument → k ∈ unwrappable →
      ∃ m, read .onbuild t = .error m ∧
        m.message = "Found unwanted token, " ++ inDoubleQuotes k.name ∧
        m.column t = some (before.length + 1)) ∧
    ∀ k t, readNested 1 k t = some (read k t) := by
  refine ⟨?_, ?_, ?_, readNested_one⟩
  · intro t before k between argument h hk
    have hwrapped := wrapped_of_wraps h hk
    refine ⟨fun args hargs => read_onbuild_of_ok hwrapped hargs, fun m hm => ?_⟩
    obtain ⟨hread, hwithin⟩ := read_onbuild_of_error hwrapped hm
    refine ⟨hread, ?_⟩
    have htext : t = (before ++ (k.text ++ between)) ++ argument := by
      rw [h.text, List.append_assoc, List.append_assoc]
    rw [htext]
    exact hwithin.column_append _
  · intro t args h
    obtain ⟨k, argument, inner, hwrapped, hread, rfl⟩ := exists_wrapped_of_read_onbuild h
    obtain ⟨hk, before, between, hwraps⟩ := exists_wraps_of_wrapped hwrapped
    exact ⟨before, k, between, argument, inner, hwraps, hk, hread, rfl⟩
  · intro t before k between argument h hk
    refine ⟨.unwanted k (k.text ++ (between ++ argument)), ?_, ?_, ?_⟩
    · rw [h.text]
      exact readTrigger_unwanted hk h.blank_before _
    · simp [Mismatch.message, String.join]
    · rw [h.text, Mismatch.column, Mismatch.rest?, Option.map_some, List.length_append]
      congr 1
      omega

/-- An ideographic space is one column, however many bytes it has. -/
theorem read_onbuild_moved :
    ∃ m, read .arg "A = 1".toList = .error m ∧ m.message = "Expected end of text" ∧
      m.column "A = 1".toList = some 3 ∧
      read .onbuild (Char.ofNat 0x3000 :: "ARG \tA = 1".toList) = .error m ∧
      m.column (Char.ofNat 0x3000 :: "ARG \tA = 1".toList) = some 9 := by
  have hread : read .arg "A = 1".toList = .error (.expected .endOfText "= 1".toList) := by
    cbv
  have hwraps : Wraps (Char.ofNat 0x3000 :: "ARG \tA = 1".toList) [Char.ofNat 0x3000] .arg
      [' ', '\t'] "A = 1".toList :=
    ⟨rfl, by simp [isBlank], List.cons_ne_nil _ _, by simp [isBlank], rfl⟩
  obtain ⟨honbuild, c, hc, hmoved⟩ := (read_onbuild.1 _ _ _ _ _ hwraps (by decide)).2 _ hread
  obtain rfl := Option.some.inj hc
  exact ⟨_, hread, rfl, rfl, honbuild, hmoved⟩

end Args

end Dockerlint
