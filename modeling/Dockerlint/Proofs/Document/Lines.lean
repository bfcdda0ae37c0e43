import Mathlib.Data.List.Forall2
import Dockerlint.Proofs.Document.Append
import Dockerlint.Proofs.Line.Runs

/-!
# Instructions and logical lines

Reading a document can fail in two ways, and the first goes before the second: a continuation that
is open at the end of the text, and a line whose first word is no keyword. Of several such lines the
first is reported. Otherwise each logical line is one instruction, and nothing of its text is lost
but the blanks between the keyword and the argument.

Nothing in the reading of an instruction checks that there is a first word, or that an argument is
left where there are blanks. Both rest on logical lines: they begin and end with a character that is
not blank, however they are continued.

## Main definitions

* `LogicalLine.IsKnown`: the lines whose first word is a keyword
* `LogicalLine.Spells`: the texts that a keyword and an argument make up
* `LogicalLine.Reads`: a line and its instruction

## Main results

* `LogicalLine.spells_divide`: a trimmed text is its keyword and its argument
* `LogicalLine.instructions_of_first_unknown`: reading stops at the first line without a keyword
* `LogicalLine.forall₂_reads`: lines and their instructions correspond
* `Document.increasing_lines`: no two instructions stand on one line
* `Document.parse_lines`: what a document is, or why there is none, said by its logical lines
-/

namespace Dockerlint

namespace LogicalLine

/-! ## Texts of lines -/

/-- The text of a line up to its first blank. -/
def firstWord (l : LogicalLine) : Text := l.text.takeWhile (!isBlank ·)

/-- The lines whose first word is a keyword. -/
def IsKnown (l : LogicalLine) : Prop := ∃ k : Keyword, k.text = l.firstWord

/-- The texts that a keyword and an argument make up: the keyword alone, with nothing for an
argument, or the keyword, one or more blanks, and an argument without outer blanks. -/
inductive Spells (k : Keyword) : (argument text : Text) → Prop where
  | alone : Spells k [] k.text
  | followed {blanks argument : Text} (blanks_ne : blanks ≠ []) (blank : ∀ c ∈ blanks, isBlank c)
      (argument_ne : argument ≠ []) (head : ∀ c, argument.head? = some c → isBlank c = false)
      (last : ∀ c, argument.getLast? = some c → isBlank c = false) :
      Spells k argument (k.text ++ (blanks ++ argument))

/-- Every logical line begins with a character that is not blank, and is trimmed at the right. -/
theorem trimmed_of_extract {content : Text} {ls : List LogicalLine} (h : extract content = .ok ls) :
    ∀ l ∈ ls, (∃ c t, l.text = c :: t ∧ isBlank c = false) ∧ Text.trimRight l.text = l.text := by
  obtain ⟨runs, -, rfl⟩ := exists_runs_of_extract h
  intro l hl
  obtain ⟨r, -, rfl⟩ := List.mem_map.1 hl
  refine ⟨r.exists_text, Text.trimRight_eq_self_iff.2 ?_⟩
  intro c hc
  exact Text.isBlank_of_getLast?_trimRight hc

theorem firstWord_ne_nil {l : LogicalLine} (h : ∃ c t, l.text = c :: t ∧ isBlank c = false) :
    l.firstWord ≠ [] := by
  obtain ⟨c, t, htext, hc⟩ := h
  rw [firstWord, htext, List.takeWhile_cons_of_pos (by simp [hc])]
  exact List.cons_ne_nil c _

/-- Behind the first word of a trimmed text there is nothing, or there are blanks and something
behind them. -/
theorem trimLeft_ne_nil_of_trimRight (front : Text) {rest : Text}
    (h : Text.trimRight (front ++ rest) = front ++ rest) (hrest : rest ≠ []) :
    Text.trimLeft rest ≠ [] := by
  intro hnil
  -- all of the rest would be blank, its last character too
  have hblank := List.dropWhile_eq_nil_iff.1 hnil
  obtain ⟨init, c, rfl⟩ := List.eq_nil_or_concat rest |>.resolve_left hrest
  rw [List.concat_eq_append, ← List.append_assoc] at h
  have hc := Text.trimRight_eq_self_iff.1 h c List.getLast?_concat
  rw [hblank c (by simp)] at hc
  cases hc

/-- **A trimmed text is its first word and its argument**, with blanks between them if there is an
argument. -/
theorem spells_divide {text : Text} (h : Text.trimRight text = text) {k : Keyword}
    (hk : k.text = text.takeWhile (!isBlank ·)) : Spells k (divide text).2 text := by
  have hcut := List.takeWhile_append_dropWhile (p := (!isBlank ·)) (l := text)
  rw [← hk] at hcut
  cases hrest : text.dropWhile (!isBlank ·) with
  | nil =>
    rw [hrest, List.append_nil] at hcut
    have hargument : (divide text).2 = [] := by rw [divide, hrest, Text.trimLeft_nil]
    rw [hargument, ← hcut]
    exact .alone
  | cons d rest =>
    have hd : isBlank d := by
      have hstop := Text.eq_false_of_head?_dropWhile (p := (!isBlank ·)) (t := text) (c := d)
        (by rw [hrest]; rfl)
      simpa using hstop
    have hargument : (divide text).2 = Text.trimLeft (d :: rest) := by rw [divide, hrest]
    have hne : Text.trimLeft (d :: rest) ≠ [] := by
      refine trimLeft_ne_nil_of_trimRight k.text ?_ (List.cons_ne_nil d rest)
      rw [← hrest, hcut, h]
    have hright : Text.trimRight (Text.trimLeft (d :: rest)) = Text.trimLeft (d :: rest) := by
      refine Text.trimRight_eq_self_of_suffix ((Text.trimLeft_suffix _).trans ?_) h
      rw [← hrest]
      exact List.dropWhile_suffix _
    have htext : text =
        k.text ++ ((d :: rest).takeWhile isBlank ++ Text.trimLeft (d :: rest)) := by
      rw [Text.trimLeft, List.takeWhile_append_dropWhile, ← hrest, hcut]
    rw [hargument]
    refine htext.symm ▸ .followed ?_ (List.all_eq_true.1 List.all_takeWhile) hne ?_ ?_
    · rw [List.takeWhile_cons_of_pos hd]
      exact List.cons_ne_nil d _
    · intro c hc
      exact Text.eq_false_of_head?_dropWhile hc
    · exact Text.trimRight_eq_self_iff.1 hright

/-! ## Instructions of lines -/

/-- A line and its instruction. -/
structure Reads (l : LogicalLine) (i : Instruction) : Prop where
  line : i.line = l.line
  spells : Spells i.keyword i.argument l.text
  /-- The arguments and the syntax errors are those that the argument is read with. -/
  parsed : i.Parsed

theorem instruction_eq (l : LogicalLine) : l.instruction =
    match Keyword.ofText? l.firstWord with
    | some k => .ok (Instruction.parse k (divide l.text).2 l.line)
    | none => .error (.unknownInstruction l.firstWord l.line) :=
  rfl

theorem instruction_of_isKnown {l : LogicalLine} (h : l.IsKnown) :
    ∃ i, l.instruction = .ok i := by
  obtain ⟨k, hk⟩ := h
  rw [instruction_eq, ← hk, Keyword.ofText?_text]
  exact ⟨_, rfl⟩

theorem instruction_of_not_isKnown {l : LogicalLine} (h : ¬ l.IsKnown) :
    l.instruction = .error (.unknownInstruction l.firstWord l.line) := by
  rw [instruction_eq]
  split
  · next k hk => exact absurd ⟨k, Keyword.text_of_ofText? hk⟩ h
  · rfl

theorem reads_of_instruction {l : LogicalLine} (hl : Text.trimRight l.text = l.text)
    {i : Instruction} (h : l.instruction = .ok i) : Reads l i := by
  rw [instruction_eq] at h
  split at h
  · next k hk =>
    obtain rfl := Except.ok.inj h
    exact ⟨rfl, spells_divide hl (Keyword.text_of_ofText? hk), rfl⟩
  · cases h

theorem exists_instructions {ls : List LogicalLine} (h : ∀ l ∈ ls, l.IsKnown) :
    ∃ is, instructions ls = .ok is := by
  induction ls with
  | nil => exact ⟨[], rfl⟩
  | cons l ls ih =>
    obtain ⟨i, hi⟩ := instruction_of_isKnown (h l (List.mem_cons_self ..))
    obtain ⟨is, his⟩ := ih fun m hm => h m (List.mem_cons_of_mem l hm)
    refine ⟨i :: is, ?_⟩
    rw [instructions, hi]
    simp only [his]
    rfl

/-- **Reading stops at the first line without a keyword**, whatever comes behind it. -/
theorem instructions_of_first_unknown {before behind : List LogicalLine} {l : LogicalLine}
    (hbefore : ∀ m ∈ before, m.IsKnown) (hl : ¬ l.IsKnown) :
    instructions (before ++ l :: behind) =
      .error (.unknownInstruction l.firstWord l.line) := by
  obtain ⟨is, his⟩ := exists_instructions hbefore
  rw [instructions_append his, instructions, instruction_of_not_isKnown hl]
  rfl

/-- **Lines and their instructions correspond** one to one and in order. -/
theorem forall₂_reads {ls : List LogicalLine} (hls : ∀ l ∈ ls, Text.trimRight l.text = l.text)
    {is : List Instruction} (h : instructions ls = .ok is) : List.Forall₂ Reads ls is := by
  induction ls generalizing is with
  | nil =>
    obtain rfl := Except.ok.inj h
    exact .nil
  | cons l ls ih =>
    rw [instructions] at h
    split at h
    · cases h
    · next i hi =>
      obtain ⟨js, hjs, rfl⟩ := exists_of_map_eq_ok h
      exact .cons (reads_of_instruction (hls l (List.mem_cons_self ..)) hi)
        (ih (fun m hm => hls m (List.mem_cons_of_mem l hm)) hjs)

/-- A line reads as its instruction in whatever stage. -/
theorem forall₂_reads_assign {ls : List LogicalLine} {is : List Instruction}
    (h : List.Forall₂ Reads ls is) (ordinal : Nat) (current : Stage) :
    List.Forall₂ Reads ls (Stage.assign ordinal current is).1 := by
  induction h generalizing ordinal current with
  | nil => exact .nil
  | @cons l i ls is hread _ ih =>
    have hstaged : ∀ stage, Reads l { i with stage } := fun stage =>
      ⟨hread.line, hread.spells, hread.parsed.staged stage⟩
    by_cases hi : i.keyword = .fromImage
    · rw [Stage.assign_cons_of_image _ _ _ hi]
      exact .cons (hstaged _) (ih ..)
    · rw [Stage.assign_cons_of_ne _ _ _ hi]
      exact .cons (hstaged _) (ih ..)

theorem map_line_of_reads {ls : List LogicalLine} {is : List Instruction}
    (h : List.Forall₂ Reads ls is) : is.map (·.line) = ls.map (·.line) := by
  induction h with
  | nil => rfl
  | cons hread _ ih => rw [List.map_cons, List.map_cons, hread.line, ih]

end LogicalLine

namespace Document

/-! ## Documents -/

/-- Instructions stand on increasing lines. -/
theorem increasing_lines {content : Text} {d : Document} (h : parse content = .ok d) :
    (d.instructions.map (·.line)).Pairwise (· < ·) := by
  obtain ⟨ls, is, hls, his, rfl⟩ := parse_eq_ok_iff.1 h
  have htrimmed := LogicalLine.trimmed_of_extract hls
  have hreads := LogicalLine.forall₂_reads_assign
    (LogicalLine.forall₂_reads (fun l hl => (htrimmed l hl).2) his) 0 .beforeFirst
  rw [LogicalLine.map_line_of_reads hreads]
  obtain ⟨runs, hruns, rfl⟩ := LogicalLine.exists_runs_of_extract hls
  exact (LogicalLine.exact_of_runs hruns).increasing

/-- No two instructions stand on one line. -/
theorem eq_of_line_eq {content : Text} {d : Document} (h : parse content = .ok d)
    {i j : Instruction} (hi : i ∈ d.instructions) (hj : j ∈ d.instructions)
    (hline : i.line = j.line) : i = j :=
  List.inj_on_of_nodup_map ((increasing_lines h).imp Nat.ne_of_lt) hi hj hline

/-- **A document is read line by line.** An open continuation is the error of the whole text,
whatever words its lines begin with. Otherwise, if there is a line whose first word is no keyword,
the first such line is the error, with its word, which is not empty. Otherwise there is a document,
with one instruction for each logical line, in order and on its line; the text of a line is the
keyword alone, or the keyword, blanks, and an argument without outer blanks. -/
theorem parse_lines (content : Text) :
    (∀ e, LogicalLine.extract content = .error e → parse content = .error e) ∧
    ∀ ls, LogicalLine.extract content = .ok ls →
      (∀ before l behind, ls = before ++ l :: behind → (∀ m ∈ before, m.IsKnown) → ¬ l.IsKnown →
        l.firstWord ≠ [] ∧ parse content = .error (.unknownInstruction l.firstWord l.line)) ∧
      ((∀ l ∈ ls, l.IsKnown) → ∃ d, parse content = .ok d ∧ d.logicalLines = ls ∧
        List.Forall₂ LogicalLine.Reads ls d.instructions) := by
  refine ⟨fun e he => by rw [parse, he], fun ls hls => ?_⟩
  have htrimmed := LogicalLine.trimmed_of_extract hls
  constructor
  · rintro before l behind rfl hbefore hl
    refine ⟨LogicalLine.firstWord_ne_nil (htrimmed l (by simp)).1, ?_⟩
    rw [parse, hls]
    simp only [LogicalLine.instructions_of_first_unknown hbefore hl]
    rfl
  · intro hknown
    obtain ⟨is, his⟩ := LogicalLine.exists_instructions hknown
    refine ⟨_, parse_eq_ok_iff.2 ⟨ls, is, hls, his, rfl⟩, rfl, ?_⟩
    exact LogicalLine.forall₂_reads_assign
      (LogicalLine.forall₂_reads (fun l hl => (htrimmed l hl).2) his) 0 .beforeFirst

end Document

end Dockerlint
