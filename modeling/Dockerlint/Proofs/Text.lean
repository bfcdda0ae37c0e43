import Dockerlint.Text.Blank
import Dockerlint.Text.Lines
import Dockerlint.Text.Quoted

/-!
# The edges of texts

How the operations on texts act where two texts meet: a line and its ending, the pieces of a
join, a run and what follows it, the blanks at an end, and the characters that a rendered string
can contain.

## Main results

* `Text.afterCaseless_eq_some_iff`: the beginning of a text up to case
* `Text.cut_eq_some_iff`: a text is cut at the first separator
* `Text.lines_append_newline`: a text without line feeds and its ending are one line
* `Text.lines_append`: behind a line feed the lines begin anew
* `Text.takeWhile_run`, `Text.dropWhile_run`: a run ends where its characters do
* `Text.trimRight_append`: trimming at the right reaches only the last text
* `Text.trimRight_trimLeft`: a text is trimmed at its two ends in any order
* `Quoted.newline_notMem_escape`: a rendered string stays on one line
-/

namespace Dockerlint

namespace Text

/-! ## Joins -/

@[simp] theorem join_singleton (sep t : Text) : join sep [t] = t := by
  simp [join, List.intercalate]

theorem join_cons_cons (sep s t : Text) (ts : List Text) :
    join sep (s :: t :: ts) = s ++ (sep ++ join sep (t :: ts)) := by
  simp [join, List.intercalate]

theorem notMem_join {c : Char} {sep : Text} (hsep : c ∉ sep) {ts : List Text}
    (hts : ∀ t ∈ ts, c ∉ t) : c ∉ join sep ts := by
  induction ts with
  | nil => simp [join]
  | cons t ts ih =>
    have ht := hts t (by simp)
    have htail := ih fun s hs => hts s (List.mem_cons_of_mem t hs)
    cases ts with
    | nil => rwa [join_singleton]
    | cons s ts =>
      rw [join_cons_cons, List.mem_append, List.mem_append]
      rintro (h | h | h)
      · exact ht h
      · exact hsep h
      · exact htail h

/-! ## Beginnings -/

/-- A capital letter is 32 places before its small one, and no other character has one. -/
theorem toLower_cases (c : Char) :
    (65 ≤ c.toNat ∧ c.toNat ≤ 90 ∧ c.toLower.toNat = c.toNat + 32) ∨ c.toLower = c := by
  by_cases h : c.val ≥ 'A'.val ∧ c.val ≤ 'Z'.val
  · have hlow : 65 ≤ c.toNat := h.1
    have hhigh : c.toNat ≤ 90 := h.2
    refine .inl ⟨hlow, hhigh, ?_⟩
    have hlower : c.toLower = ⟨c.val + ('a'.val - 'A'.val), _⟩ := dif_pos h
    rw [hlower]
    change (c.val + ('a'.val - 'A'.val)).toNat = c.toNat + 32
    rw [UInt32.toNat_add]
    exact Nat.mod_eq_of_lt (by change c.toNat + 32 < 2 ^ 32; omega)
  · exact .inr (dif_neg h)

/-- The beginning of a text up to case: as many letters as the word has, each of them one of its
letters in either case. -/
theorem afterCaseless_eq_some_iff {word t rest : Text} :
    afterCaseless word t = some rest ↔
      ∃ letters, t = letters ++ rest ∧ letters.map Char.toLower = word.map Char.toLower := by
  induction word generalizing t with
  | nil =>
    constructor
    · intro h
      exact ⟨[], Option.some.inj h, rfl⟩
    · rintro ⟨letters, rfl, hletters⟩
      obtain rfl := List.map_eq_nil_iff.1 hletters
      rfl
  | cons w word ih =>
    cases t with
    | nil =>
      refine iff_of_false nofun ?_
      rintro ⟨letters, hnil, hletters⟩
      obtain rfl := (List.append_eq_nil_iff.1 hnil.symm).1
      cases hletters
    | cons c t =>
      rw [afterCaseless]
      constructor
      · intro h
        split at h
        · next hc =>
          obtain ⟨letters, rfl, hletters⟩ := ih.1 h
          exact ⟨c :: letters, rfl, by rw [List.map_cons, List.map_cons, hletters, hc]⟩
        · cases h
      · rintro ⟨letters, htext, hletters⟩
        cases letters with
        | nil => cases hletters
        | cons d letters =>
          rw [List.map_cons, List.map_cons, List.cons.injEq] at hletters
          obtain ⟨rfl, rfl⟩ := List.cons.inj htext
          rw [if_pos hletters.1.symm]
          exact ih.2 ⟨letters, rfl, hletters.2⟩

/-- Nothing follows a word that the text does not begin with. -/
theorem after_eq_none_iff {word t : Text} : after word t = none ↔ ¬ word <+: t := by
  rw [Option.eq_none_iff_forall_ne_some]
  constructor
  · rintro h ⟨rest, rfl⟩
    exact h rest (after_append word rest)
  · intro h rest hrest
    exact h ⟨rest, (after_eq_some_iff.1 hrest).symm⟩

/-! ## Cuts -/

/-- A text is cut at the first occurrence of the separator. -/
theorem cut_eq_some_iff {sep : Char} {t before behind : Text} :
    cut sep t = some (before, behind) ↔ t = before ++ sep :: behind ∧ sep ∉ before := by
  refine ⟨cut_eq_some, ?_⟩
  rintro ⟨rfl, hbefore⟩
  induction before with
  | nil => simp [cut]
  | cons c before ih =>
    obtain ⟨hc, hrest⟩ := List.ne_and_not_mem_of_not_mem_cons hbefore
    rw [List.cons_append, cut, if_neg (Ne.symm hc), ih hrest]
    rfl

/-- A text without the separator is not cut. -/
theorem cut_eq_none {sep : Char} {t : Text} (h : sep ∉ t) : cut sep t = none := by
  rw [Option.eq_none_iff_forall_ne_some]
  rintro ⟨before, behind⟩ hcut
  obtain ⟨rfl, -⟩ := cut_eq_some hcut
  exact h (List.mem_append_right _ (List.mem_cons_self ..))

/-! ## Lines -/

theorem lines_cons {c : Char} (t : Text) (hn : c ≠ '\n') (hr : c = '\r' → t.head? ≠ some '\n') :
    lines (c :: t) = consHead c (lines t) := by
  rw [lines]
  · exact hn
  · rintro rest rfl rfl
    exact hr rfl rfl

/-- A text without line feeds makes up one line with the ending behind it. A carriage return at
its end would belong to the ending. -/
theorem lines_append_newline {t : Text} (hn : '\n' ∉ t) (hr : t.getLast? ≠ some '\r')
    (rest : Text) : lines (t ++ '\n' :: rest) = t :: lines rest := by
  induction t with
  | nil => rfl
  | cons c t ih =>
    -- only the last character has the line feed behind it, and that is not a carriage return
    obtain ⟨hc, ht⟩ := List.ne_and_not_mem_of_not_mem_cons hn
    have hlast : t.getLast? ≠ some '\r' := by
      intro h
      exact hr (by rw [List.getLast?_cons, h]; rfl)
    rw [List.cons_append, lines_cons _ (Ne.symm hc), ih ht hlast]
    · rfl
    · rintro rfl
      cases t with
      | nil => exact absurd rfl hr
      | cons d t =>
        rw [List.cons_append, List.head?_cons]
        intro h
        exact ht (by simp [Option.some.inj h])

/-- The carriage return that is the last character before a line feed belongs to the ending. -/
theorem lines_append_return {t : Text} (hn : '\n' ∉ t) (rest : Text) :
    lines (t ++ '\r' :: '\n' :: rest) = t :: lines rest := by
  induction t with
  | nil => rfl
  | cons c t ih =>
    obtain ⟨hc, ht⟩ := List.ne_and_not_mem_of_not_mem_cons hn
    rw [List.cons_append, lines_cons _ (Ne.symm hc), ih ht]
    · rfl
    · -- what follows a carriage return of the text is a character of the text or the other return
      rintro -
      cases t with
      | nil => exact nofun
      | cons d t =>
        rw [List.cons_append, List.head?_cons]
        intro h
        exact ht (by simp [Option.some.inj h])

/-- A text without line feeds makes up one line with a line feed behind it, but for a carriage
return at its end. -/
theorem exists_lines_append_newline {t : Text} (hn : '\n' ∉ t) (rest : Text) :
    ∃ line, lines (t ++ '\n' :: rest) = line :: lines rest ∧ (t = line ∨ t = line ++ ['\r']) := by
  by_cases hr : t.getLast? = some '\r'
  · obtain ⟨line, rfl⟩ := List.getLast?_eq_some_iff.1 hr
    refine ⟨line, ?_, .inr rfl⟩
    rw [List.append_assoc]
    exact lines_append_return (fun hline => hn (List.mem_append_left _ hline)) rest
  · exact ⟨t, lines_append_newline hn hr rest, .inl rfl⟩

/-- A text without line feeds is one line. -/
theorem lines_eq_singleton {t : Text} (hne : t ≠ []) (hn : '\n' ∉ t) : lines t = [t] := by
  induction t with
  | nil => exact absurd rfl hne
  | cons c t ih =>
    obtain ⟨hc, ht⟩ := List.ne_and_not_mem_of_not_mem_cons hn
    have hhead : t.head? ≠ some '\n' := fun h => ht (List.mem_of_head? h)
    rw [lines_cons t (Ne.symm hc) fun _ => hhead]
    cases t with
    | nil => rfl
    | cons d t =>
      rw [ih (List.cons_ne_nil d t) ht]
      rfl

theorem lines_ne_nil {t : Text} (h : t ≠ []) : lines t ≠ [] := by
  fun_cases lines t with
  | case1 => exact absurd rfl h
  | case2 => exact List.cons_ne_nil _ _
  | case3 => exact List.cons_ne_nil _ _
  | case4 c rest =>
    cases lines rest with
    | nil => exact List.cons_ne_nil _ _
    | cons piece pieces => exact List.cons_ne_nil _ _

theorem consHead_append {c : Char} {ls : List Text} (h : ls ≠ []) (ms : List Text) :
    consHead c (ls ++ ms) = consHead c ls ++ ms := by
  obtain ⟨piece, ls, rfl⟩ := List.exists_cons_of_ne_nil h
  rfl

/-- What follows a character is empty, or it ends as the whole text does. -/
theorem getLast?_of_cons {c d : Char} {t : Text} (h : c :: t = [] ∨ (c :: t).getLast? = some d) :
    t = [] ∨ t.getLast? = some d := by
  cases t with
  | nil => exact .inl rfl
  | cons e t => exact h.imp nofun id

/-- Behind a line feed the lines begin anew. -/
theorem lines_append {s : Text} (hs : s = [] ∨ s.getLast? = some '\n') (t : Text) :
    lines (s ++ t) = lines s ++ lines t := by
  fun_induction lines s with
  | case1 => rfl
  | case2 rest ih =>
    rw [List.cons_append, lines, ih (getLast?_of_cons hs)]
    rfl
  | case3 rest ih =>
    have hrest := getLast?_of_cons (getLast?_of_cons hs)
    rw [List.cons_append, List.cons_append, lines, ih hrest]
    rfl
  | case4 c rest hn hr ih =>
    -- the text ends in a line feed, so it does not end here
    have hne : rest ≠ [] := by
      rintro rfl
      rcases hs with hs | hs
      · cases hs
      · exact hn (Option.some.inj hs)
    obtain ⟨d, rest, rfl⟩ := List.exists_cons_of_ne_nil hne
    rw [List.cons_append, lines_cons _ hn, ih (getLast?_of_cons hs),
      consHead_append (lines_ne_nil hne)]
    rintro rfl hhead
    exact hr rest rfl (by rw [Option.some.inj hhead])

theorem mem_consHead {c : Char} {ls : List Text} {l : Text} (h : l ∈ consHead c ls) :
    l = [c] ∨ (∃ piece ∈ ls, l = c :: piece) ∨ l ∈ ls := by
  cases ls with
  | nil => exact .inl (List.mem_singleton.1 h)
  | cons piece ls =>
    rcases List.mem_cons.1 h with rfl | h
    · exact .inr (.inl ⟨piece, List.mem_cons_self .., rfl⟩)
    · exact .inr (.inr (List.mem_cons_of_mem piece h))

/-- Texts that are joined by line feeds are the lines of what they make. -/
theorem lines_join {ts : List Text} (hne : ∀ t ∈ ts, t ≠ []) (hn : ∀ t ∈ ts, '\n' ∉ t)
    (hr : ∀ t ∈ ts, t.getLast? ≠ some '\r') : lines (join ['\n'] ts) = ts := by
  induction ts with
  | nil => rfl
  | cons t ts ih =>
    have hrest := ih (fun s hs => hne s (List.mem_cons_of_mem t hs))
      (fun s hs => hn s (List.mem_cons_of_mem t hs)) fun s hs => hr s (List.mem_cons_of_mem t hs)
    have ht : t ∈ t :: ts := List.mem_cons_self ..
    cases ts with
    | nil => rw [join_singleton, lines_eq_singleton (hne t ht) (hn t ht)]
    | cons s ts =>
      rw [join_cons_cons, List.singleton_append, lines_append_newline (hn t ht) (hr t ht), hrest]

/-- The characters of a line are characters of the text, and none of them is a line feed. -/
theorem mem_of_mem_lines {t l : Text} (h : l ∈ lines t) {c : Char} (hc : c ∈ l) :
    c ∈ t ∧ c ≠ '\n' := by
  fun_induction lines t generalizing l c with
  | case1 => cases h
  | case2 rest ih =>
    rcases List.mem_cons.1 h with rfl | h
    · cases hc
    · exact ⟨List.mem_cons_of_mem _ (ih h hc).1, (ih h hc).2⟩
  | case3 rest ih =>
    rcases List.mem_cons.1 h with rfl | h
    · cases hc
    · exact ⟨by simp [(ih h hc).1], (ih h hc).2⟩
  | case4 d rest hn hr ih =>
    have hd : d ≠ '\n' := fun hd => hn hd
    rcases mem_consHead h with rfl | ⟨piece, hpiece, rfl⟩ | h
    · rw [List.mem_singleton.1 hc]
      exact ⟨List.mem_cons_self .., hd⟩
    · rcases List.mem_cons.1 hc with rfl | hc
      · exact ⟨List.mem_cons_self .., hd⟩
      · exact ⟨List.mem_cons_of_mem _ (ih hpiece hc).1, (ih hpiece hc).2⟩
    · exact ⟨List.mem_cons_of_mem _ (ih h hc).1, (ih h hc).2⟩

/-! ## Runs of characters -/

section Run

variable {p : Char → Bool} {run rest : Text}

theorem takeWhile_run (hrun : ∀ c ∈ run, p c) (hrest : ∀ c, rest.head? = some c → p c = false) :
    (run ++ rest).takeWhile p = run := by
  have hnil : rest.takeWhile p = [] := by
    cases rest with
    | nil => rfl
    | cons c rest => exact List.takeWhile_cons_of_neg (by simp [hrest c rfl])
  rw [List.takeWhile_append_of_pos hrun, hnil, List.append_nil]

theorem dropWhile_run (hrun : ∀ c ∈ run, p c) (hrest : ∀ c, rest.head? = some c → p c = false) :
    (run ++ rest).dropWhile p = rest := by
  have hcut := List.takeWhile_append_dropWhile (p := p) (l := run ++ rest)
  rw [takeWhile_run hrun hrest] at hcut
  exact List.append_cancel_left hcut

/-- What follows a run does not continue it. -/
theorem eq_false_of_head?_dropWhile {t : Text} {c : Char}
    (h : (t.dropWhile p).head? = some c) : p c = false := by
  have hnot := List.head?_dropWhile_not p t
  rw [h] at hnot
  simpa using hnot

end Run

/-! ## Blanks at the ends -/

/-- The blanks at the beginning of a text and the rest make up the text. -/
theorem takeWhile_append_trimLeft (t : Text) : t.takeWhile isBlank ++ trimLeft t = t :=
  List.takeWhile_append_dropWhile

theorem trimLeft_eq_nil_iff {t : Text} : trimLeft t = [] ↔ ∀ c ∈ t, isBlank c := by
  induction t with
  | nil => simp
  | cons c t ih =>
    rw [trimLeft_cons, List.forall_mem_cons, ← ih]
    split
    · next hc => simp [hc]
    · next hc => simp [hc]

/-- Trimming at the left goes on behind a blank text. -/
theorem trimLeft_append (s t : Text) :
    trimLeft (s ++ t) = if trimLeft s = [] then trimLeft t else trimLeft s ++ t := by
  rw [trimLeft, List.dropWhile_append, ← trimLeft, ← trimLeft]
  cases trimLeft s with
  | nil => rfl
  | cons c rest => rfl

theorem trimLeft_eq_self {c : Char} {t : Text} (hc : isBlank c = false) :
    trimLeft (c :: t) = c :: t := by
  simp [trimLeft_cons, hc]

theorem trimRight_append (s : Text) {t : Text} (ht : trimRight t ≠ []) :
    trimRight (s ++ t) = s ++ trimRight t := by
  -- from the right, a character of `t` stops the trimming before `s` is reached
  have hne : (t.reverse.dropWhile isBlank).isEmpty = false := by
    rw [List.isEmpty_eq_false_iff]
    intro h
    exact ht (by rw [trimRight, h]; rfl)
  rw [trimRight, List.reverse_append, List.dropWhile_append, hne]
  simp [trimRight]

theorem trimRight_singleton {c : Char} (hc : isBlank c = false) : trimRight [c] = [c] := by
  simp [trimRight, hc]

theorem trimRight_concat (t : Text) {c : Char} (hc : isBlank c = false) :
    trimRight (t ++ [c]) = t ++ [c] := by
  rw [trimRight_append t (by rw [trimRight_singleton hc]; simp), trimRight_singleton hc]

/-- A join is trimmed at the right if its pieces are, whatever the separator. -/
theorem trimRight_join (sep : Text) {ts : List Text} (hts : ∀ t ∈ ts, t ≠ [] ∧ trimRight t = t) :
    trimRight (join sep ts) = join sep ts := by
  induction ts with
  | nil => rfl
  | cons t ts ih =>
    obtain ⟨hne, ht⟩ := hts t (by simp)
    cases ts with
    | nil => rwa [join_singleton]
    | cons s ts =>
      have htail := ih fun r hr => hts r (List.mem_cons_of_mem t hr)
      -- the pieces behind the separator are not empty, so trimming does not reach it
      have hjoin : trimRight (join sep (s :: ts)) ≠ [] := by
        rw [htail]
        cases ts with
        | nil => simpa using (hts s (by simp)).1
        | cons r ts => simp [join_cons_cons, (hts s (by simp)).1]
      rw [join_cons_cons, ← List.append_assoc, trimRight_append _ hjoin, htail]

/-- A trimmed text does not end in a blank. -/
theorem getLast?_ne_of_trimRight_eq_self {t : Text} (ht : trimRight t = t) {c : Char}
    (hc : isBlank c = true) : t.getLast? ≠ some c := by
  intro h
  obtain ⟨s, rfl⟩ := List.getLast?_eq_some_iff.1 h
  -- trimming would take the blank away, and the text would be shorter
  have hlen : (trimRight (s ++ [c])).length ≤ s.length := by
    simp only [trimRight, List.reverse_append, List.reverse_singleton, List.singleton_append,
      List.dropWhile_cons_of_pos hc, List.length_reverse]
    simpa using (List.dropWhile_suffix isBlank (l := s.reverse)).length_le
  rw [ht, List.length_append, List.length_singleton] at hlen
  omega

/-- Trimming at the right stops at a character that is not blank. -/
theorem trimRight_cons {c : Char} (hc : isBlank c = false) (t : Text) :
    trimRight (c :: t) = c :: trimRight t := by
  rw [trimRight, trimRight, List.reverse_cons, List.dropWhile_append]
  split
  · next hnil =>
    rw [List.isEmpty_iff.1 hnil]
    simp [hc]
  · simp

theorem isBlank_of_getLast?_trimRight {t : Text} {c : Char} (h : (trimRight t).getLast? = some c) :
    isBlank c = false := by
  rw [trimRight, List.getLast?_reverse] at h
  exact eq_false_of_head?_dropWhile h

theorem trimLeft_trimLeft (t : Text) : trimLeft (trimLeft t) = trimLeft t := by
  rw [trimLeft_eq_self_iff]
  cases h : trimLeft t with
  | nil => rfl
  | cons c rest =>
    exact eq_false_of_head?_dropWhile (t := t) (by rw [← trimLeft, h]; rfl)

theorem trimRight_eq_self_iff {t : Text} :
    trimRight t = t ↔ ∀ c, t.getLast? = some c → isBlank c = false := by
  constructor
  · intro h c hc
    rw [← h] at hc
    exact isBlank_of_getLast?_trimRight hc
  · intro h
    rcases List.eq_nil_or_concat t with rfl | ⟨s, c, rfl⟩
    · rfl
    · rw [List.concat_eq_append] at h ⊢
      exact trimRight_concat s (h c List.getLast?_concat)

/-- A text that ends a trimmed text is trimmed at the right. -/
theorem trimRight_eq_self_of_suffix {s t : Text} (hst : s <:+ t) (ht : trimRight t = t) :
    trimRight s = s := by
  rw [trimRight_eq_self_iff] at ht ⊢
  intro c hc
  obtain ⟨front, rfl⟩ := hst
  refine ht c ?_
  rw [List.getLast?_append]
  exact Option.or_eq_some_iff.2 (.inl hc)

/-- What trimming at the right takes away is blank. -/
theorem exists_trimRight_append (t : Text) :
    ∃ blanks : Text, t = trimRight t ++ blanks ∧ ∀ c ∈ blanks, isBlank c := by
  refine ⟨(t.reverse.takeWhile isBlank).reverse, ?_, ?_⟩
  · rw [trimRight, ← List.reverse_append, List.takeWhile_append_dropWhile, List.reverse_reverse]
  · intro c hc
    exact List.all_eq_true.1 List.all_takeWhile c (List.mem_reverse.1 hc)

/-- Trimming leaves nothing exactly of the blank texts. -/
theorem trim_eq_nil_iff {t : Text} : trim t = [] ↔ ∀ c ∈ t, isBlank c := by
  rw [← trimLeft_eq_nil_iff]
  constructor
  · intro h
    obtain ⟨blanks, hcut, hblanks⟩ := exists_trimRight_append (trimLeft t)
    rw [← trim, h, List.nil_append] at hcut
    rw [← trimLeft_trimLeft, trimLeft_eq_nil_iff, hcut]
    exact hblanks
  · intro h
    rw [trim, h]
    rfl

theorem trimRight_sublist (t : Text) : (trimRight t).Sublist t := by
  have h := (List.dropWhile_suffix isBlank (l := t.reverse)).sublist.reverse
  rwa [List.reverse_reverse] at h

theorem trim_sublist (t : Text) : (trim t).Sublist t :=
  (trimRight_sublist _).trans (trimLeft_suffix t).sublist

/-! ## Trimming at both ends -/

theorem trimLeft_blanks_append {u : Text} (hu : ∀ c ∈ u, isBlank c) (t : Text) :
    trimLeft (u ++ t) = trimLeft t :=
  List.dropWhile_append_of_pos hu

theorem trimRight_append_blanks (t : Text) {w : Text} (hw : ∀ c ∈ w, isBlank c) :
    trimRight (t ++ w) = trimRight t := by
  rw [trimRight, trimRight, List.reverse_append]
  refine congrArg List.reverse (List.dropWhile_append_of_pos fun c hc => ?_)
  exact hw c (List.mem_reverse.1 hc)

/-- Nothing is taken from a part that does not end in a blank. -/
theorem trimRight_append_of_eq_self {x : Text} (hx : trimRight x = x) (r : Text) :
    trimRight (x ++ r) = x ++ trimRight r := by
  by_cases hr : trimRight r = []
  · obtain ⟨blanks, heq, hblanks⟩ := exists_trimRight_append r
    rw [hr, List.nil_append] at heq
    rw [hr, heq, trimRight_append_blanks x hblanks, hx, List.append_nil]
  · exact trimRight_append x hr

theorem trimRight_trimLeft (t : Text) : trimRight (trimLeft t) = trimLeft (trimRight t) := by
  induction t with
  | nil => rfl
  | cons c t ih =>
    by_cases hc : isBlank c
    · rw [trimLeft_cons, if_pos hc, ih]
      by_cases ht : trimRight t = []
      · -- then the whole text is blank
        obtain ⟨blanks, heq, hblanks⟩ := exists_trimRight_append t
        rw [ht, List.nil_append] at heq
        have hall : ∀ d ∈ c :: t, isBlank d :=
          List.forall_mem_cons.2 ⟨hc, by rwa [heq]⟩
        have hnil : trimRight (c :: t) = [] := trimRight_append_blanks [] hall
        rw [ht, hnil]
      · have hcons : trimRight (c :: t) = c :: trimRight t := trimRight_append [c] ht
        rw [hcons, trimLeft_cons, if_pos hc]
    · have hc : isBlank c = false := Bool.eq_false_iff.2 hc
      rw [trimLeft_eq_self hc, trimRight_cons hc, trimLeft_eq_self hc]

theorem trimRight_trimRight (t : Text) : trimRight (trimRight t) = trimRight t :=
  trimRight_eq_self_iff.2 fun _ => isBlank_of_getLast?_trimRight

theorem trimRight_trim (t : Text) : trimRight (trim t) = trim t := trimRight_trimRight (trimLeft t)

theorem trimLeft_trim (t : Text) : trimLeft (trim t) = trim t := by
  rw [trim, ← trimRight_trimLeft, trimLeft_trimLeft]

theorem trim_trim (t : Text) : trim (trim t) = trim t := by
  rw [trim, trimLeft_trim, trimRight_trim]

/-- Nothing that is blank ends a trimmed text. -/
theorem eq_nil_of_suffix {s t : Text} (hst : s <:+ t) (ht : trimRight t = t)
    (hs : trimLeft s = []) : s = [] := by
  rcases List.eq_nil_or_concat s with rfl | ⟨u, c, rfl⟩
  · rfl
  · have hblank : isBlank c := trimLeft_eq_nil_iff.1 hs c (by simp)
    have hlast := trimRight_eq_self_iff.1 (trimRight_eq_self_of_suffix hst ht) c (by simp)
    rw [hblank] at hlast
    cases hlast

end Text

/-! ## Rendered strings -/

namespace Quoted

theorem newline_notMem_escapeChar (q : Quote) (c : Char) : '\n' ∉ escapeChar q c := by
  by_cases hc : c = '\n'
  · -- a line feed is written as an escape
    simp [escapeChar, hc]
  · grind [escapeChar]

theorem newline_notMem_escape (q : Quote) (value : Text) : '\n' ∉ escape q value := by
  induction value with
  | nil => simp [escape]
  | cons c value ih =>
    rw [escape, List.mem_append, not_or]
    exact ⟨newline_notMem_escapeChar q c, ih⟩

theorem newline_notMem_render (q : Quote) (value : Text) : '\n' ∉ render q value := by
  have hq : '\n' ≠ q.char := by cases q <;> decide
  simp [render, newline_notMem_escape, hq]

end Quoted

end Dockerlint
