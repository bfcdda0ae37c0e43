import Dockerlint.Document.Basic
import Dockerlint.Proofs.Text

/-!
# Texts that stand on a line as they are

Extraction removes comments, continuation markers and outer blanks. A text is verbatim if
scanning copies it whatever follows, and verbatim texts can be put together. Rendered strings are
verbatim, because the search for the end of a quoted span takes the same steps as the reading of a
quoted string. A whole line is a logical line by itself, so that a keyword with a verbatim argument
behind it is a document of one instruction.

## Main definitions

* `Segment.Verbatim`: the texts that scanning copies
* `Line.Whole`: the lines that are logical lines as they are
* `Line.Argument`: the arguments that can stand on one line as they are

## Main results

* `Segment.spanLength_of_body`: a quoted string is a quoted span
* `Segment.Verbatim.render`: rendered strings are copied
* `LogicalLine.assemble_whole`: extraction keeps a whole line and its number
* `Document.parse_line`, `Document.parse_operand`: the document of one keyword and its argument
-/

namespace Dockerlint

namespace Segment

/-! ## Verbatim texts -/

theorem prepend_append (front back : Text) (s : Segment) :
    prepend (front ++ back) s = prepend front (prepend back s) := by
  simp [prepend]

/-- The texts that scanning copies, whatever follows them. -/
def Verbatim (t : Text) : Prop := ∀ rest, scan (t ++ rest) = (scan rest).prepend t

/-- The characters that mean nothing to the scan of a line. -/
def isOrdinary (c : Char) : Bool := c != '#' && c != '\\' && c != '"' && c != '\x27'

theorem scan_cons {c : Char} (hc : isOrdinary c) (rest : Text) :
    scan (c :: rest) = (scan rest).prepend [c] := by
  simp only [isOrdinary, Bool.and_eq_true, bne_iff_ne] at hc
  obtain ⟨⟨⟨h₁, h₂⟩, h₃⟩, h₄⟩ := hc
  rw [scan]
  simp [h₁, h₂, h₃, h₄]

theorem Verbatim.nil : Verbatim [] := fun _ => rfl

theorem Verbatim.append {s t : Text} (hs : Verbatim s) (ht : Verbatim t) : Verbatim (s ++ t) := by
  intro rest
  rw [List.append_assoc, hs, ht, prepend_append]

theorem Verbatim.cons {c : Char} {t : Text} (hc : isOrdinary c) (ht : Verbatim t) :
    Verbatim (c :: t) := by
  intro rest
  rw [List.cons_append, scan_cons hc, ht, ← prepend_append]
  rfl

theorem Verbatim.of_ordinary {t : Text} (ht : ∀ c ∈ t, isOrdinary c) : Verbatim t := by
  induction t with
  | nil => exact .nil
  | cons c t ih =>
    refine .cons (ht c (by simp)) (ih ?_)
    intro d hd
    exact ht d (List.mem_cons_of_mem c hd)

theorem Verbatim.join {sep : Text} (hsep : Verbatim sep) {ts : List Text}
    (hts : ∀ t ∈ ts, Verbatim t) : Verbatim (Text.join sep ts) := by
  induction ts with
  | nil => exact .nil
  | cons t ts ih =>
    have ht := hts t (by simp)
    have htail := ih fun s hs => hts s (List.mem_cons_of_mem t hs)
    cases ts with
    | nil => rwa [Text.join_singleton]
    | cons s ts =>
      rw [Text.join_cons_cons]
      exact ht.append (hsep.append htail)

/-! ## Quoted spans -/

/-- A quoted string is a quoted span: both searches for the closing quote step over escapes alike,
and a string that closes has no line feed to stop the reading of it. -/
theorem spanLength_of_body {q : Char} {t inner behind : Text}
    (h : Quoted.body q t = some (inner, behind)) : spanLength q t = some (inner.length + 1) := by
  fun_induction Quoted.body q t generalizing inner with
  | case1 => simp at h
  | case2 c rest ih =>
    -- an escape: both searches step over two characters
    obtain ⟨⟨i, b⟩, hb, hib⟩ := Option.map_eq_some_iff.1 h
    obtain ⟨rfl, rfl⟩ := Prod.mk.inj hib
    rw [spanLength, ih hb]
    rfl
  | case3 => simp at h
  | case4 rest hesc hnl =>
    -- the closing quote ends both
    obtain ⟨rfl, rfl⟩ := Prod.mk.inj (Option.some.inj h)
    rw [spanLength]
    · simp
    · exact hesc
  | case5 c rest hesc hnl hq ih =>
    obtain ⟨⟨i, b⟩, hb, hib⟩ := Option.map_eq_some_iff.1 h
    obtain ⟨rfl, rfl⟩ := Prod.mk.inj hib
    rw [spanLength, if_neg hq, ih hb]
    · rfl
    · exact hesc

theorem scan_quote (q : Quote) {rest : Text} {n : Nat} (h : spanLength q.char rest = some n) :
    scan (q.char :: rest) = (scan (rest.drop n)).prepend (q.char :: rest.take n) := by
  rw [scan]
  cases q with
  | single => simp [Quote.char] at h ⊢; rw [h]
  | double => simp [Quote.char] at h ⊢; rw [h]

/-- **Rendered strings are copied**, whatever their value: no character of it opens a comment or
a continuation, because the span is closed by its own quote. -/
theorem Verbatim.render (q : Quote) (value : Text) : Verbatim (Quoted.render q value) := by
  intro rest
  have hspan := spanLength_of_body (Quoted.body_escape q value rest)
  have htext : Quoted.render q value ++ rest
      = q.char :: (Quoted.escape q value ++ q.char :: rest) := by
    simp [Quoted.render]
  -- the span is the escaped value with its closing quote, and `rest` is behind it
  have htake : (Quoted.escape q value ++ q.char :: rest).take ((Quoted.escape q value).length + 1)
      = Quoted.escape q value ++ [q.char] := by
    simp [List.take_append, List.take_of_length_le]
  have hdrop : (Quoted.escape q value ++ q.char :: rest).drop ((Quoted.escape q value).length + 1)
      = rest := by
    simp [List.drop_append, List.drop_of_length_le]
  rw [htext, scan_quote q hspan, htake, hdrop]
  rfl

end Segment

/-! ## Whole lines -/

namespace Line

/-- The lines that are logical lines as they are. -/
structure Whole (line : Text) : Prop where
  scan : Segment.scan line = ⟨line, false⟩
  kept : isDiscarded line = false
  left : Text.trimLeft line = line
  right : Text.trimRight line = line

theorem Whole.ne_nil {line : Text} (h : Whole line) : line ≠ [] := by
  rintro rfl
  exact absurd h.kept (by decide)

/-- The arguments that can stand on one line as they are. -/
structure Argument (argument : Text) : Prop where
  verbatim : Segment.Verbatim argument
  newline : '\n' ∉ argument
  left : Text.trimLeft argument = argument
  right : Text.trimRight argument = argument
  ne_nil : argument ≠ []

/-- The line with a keyword and its argument. -/
def written (k : Keyword) (argument : Text) : Text := k.text ++ ' ' :: argument

theorem keyword_ordinary (k : Keyword) : ∀ c ∈ k.text, Segment.isOrdinary c := by
  have hall : k.text.all Segment.isOrdinary = true := by cases k <;> decide
  exact List.all_eq_true.1 hall

theorem keyword_not_blank (k : Keyword) : ∀ c ∈ k.text, isBlank c = false := by
  have hany : k.text.any isBlank = false := by cases k <;> decide
  intro c hc
  simpa using List.any_eq_false.1 hany c hc

theorem keyword_ne_nil (k : Keyword) : k.text ≠ [] := by
  cases k <;> decide

/-- The first character of a written line is that of the keyword, neither a blank nor a comment
sign. -/
theorem exists_written (k : Keyword) (argument : Text) :
    ∃ c rest, written k argument = c :: rest ∧ isBlank c = false ∧ Segment.isOrdinary c := by
  obtain ⟨c, rest, hk⟩ := List.exists_cons_of_ne_nil (keyword_ne_nil k)
  refine ⟨c, rest ++ ' ' :: argument, by rw [written, hk]; rfl, ?_, ?_⟩
  · exact keyword_not_blank k c (by simp [hk])
  · exact keyword_ordinary k c (by simp [hk])

/-- No character of a keyword is blank, so the line ends where the argument does. -/
theorem newline_notMem_written (k : Keyword) {argument : Text} (h : '\n' ∉ argument) :
    '\n' ∉ written k argument := by
  have hk : '\n' ∉ k.text := by
    intro hmem
    exact absurd (keyword_not_blank k _ hmem) (by decide)
  simp [written, hk, h]

theorem trimLeft_written (k : Keyword) (argument : Text) :
    Text.trimLeft (written k argument) = written k argument := by
  obtain ⟨c, rest, hcons, hc, -⟩ := exists_written k argument
  rw [hcons, Text.trimLeft_eq_self hc]

theorem isDiscarded_written (k : Keyword) (argument : Text) :
    isDiscarded (written k argument) = false := by
  obtain ⟨c, rest, hcons, -, hord⟩ := exists_written k argument
  simp only [Segment.isOrdinary, Bool.and_eq_true, bne_iff_ne] at hord
  rw [isDiscarded, trimLeft_written, hcons]
  simp [hord.1.1.1]

theorem Argument.whole {argument : Text} (h : Argument argument) (k : Keyword) :
    Whole (written k argument) := by
  have hv : Segment.Verbatim (written k argument) :=
    .append (.of_ordinary (keyword_ordinary k)) (.cons (by decide) h.verbatim)
  refine ⟨?_, isDiscarded_written k argument, trimLeft_written k argument, ?_⟩
  · have hs := hv []
    rwa [List.append_nil, Segment.scan, Segment.prepend, List.append_nil] at hs
  · -- the last character is that of the argument
    have hne : Text.trimRight argument ≠ [] := by rw [h.right]; exact h.ne_nil
    rw [written, ← List.singleton_append, ← List.append_assoc, Text.trimRight_append _ hne, h.right]

end Line

namespace LogicalLine

/-- Extraction keeps a whole line with its number when no continuation is open. -/
theorem assemble_whole {line : Text} (h : Line.Whole line) (n : Nat) (rest : List Text) :
    assemble none n (line :: rest) = (assemble none (n + 1) rest).map (⟨line, n⟩ :: ·) := by
  rw [assemble, h.kept, h.scan]
  simp only [Option.elim, List.nil_append, h.left, h.right, if_neg h.ne_nil]
  rfl

theorem extract_line {line : Text} (h : Line.Whole line) (hn : '\n' ∉ line) :
    extract (line ++ ['\n']) = .ok [⟨line, 1⟩] := by
  have hr := Text.getLast?_ne_of_trimRight_eq_self h.right (c := '\r') rfl
  rw [extract, Text.lines_append_newline hn hr, assemble_whole h]
  rfl

/-- A keyword is the first word in front of a blank, or of nothing. -/
theorem divide_append (k : Keyword) {rest : Text} (hrest : ∀ c, rest.head? = some c → isBlank c) :
    divide (k.text ++ rest) = (k.text, Text.trimLeft rest) := by
  have hk : ∀ c ∈ k.text, (!isBlank c) = true := by
    intro c hc
    rw [Line.keyword_not_blank k c hc]
    rfl
  have hend : ∀ c, rest.head? = some c → (!isBlank c) = false := by
    intro c hc
    rw [hrest c hc]
    rfl
  rw [divide, Text.takeWhile_run hk hend, Text.dropWhile_run hk hend]

theorem divide_written (k : Keyword) (argument : Text) :
    divide (Line.written k argument) = (k.text, Text.trimLeft argument) := by
  have hspace : ∀ c, (' ' :: argument).head? = some c → isBlank c := by
    intro c hc
    rw [← Option.some.inj hc]
    rfl
  rw [Line.written, divide_append k hspace, Text.trimLeft_cons, if_pos (by rfl)]

/-- The blanks at the end of a written line are not a part of the argument. -/
theorem divide_trimRight_written (k : Keyword) (argument : Text) :
    divide (Text.trimRight (Line.written k argument)) = (k.text, Text.trim argument) := by
  have hkeyword : Text.trimRight k.text = k.text :=
    Text.trimRight_eq_self_iff.2 fun c hc => Line.keyword_not_blank k c (List.mem_of_getLast? hc)
  have hspace : ∀ c, (Text.trimRight (' ' :: argument)).head? = some c → isBlank c := by
    intro c hc
    obtain ⟨blanks, hcut, -⟩ := Text.exists_trimRight_append (' ' :: argument)
    have hhead := congrArg List.head? hcut
    rw [List.head?_append, hc, Option.some_or] at hhead
    rw [← Option.some.inj hhead]
    rfl
  rw [Line.written, Text.trimRight_append_of_eq_self hkeyword, divide_append k hspace,
    ← Text.trimRight_trimLeft, Text.trimLeft_cons, if_pos (by rfl), ← Text.trim]

theorem instruction_trimRight_written (k : Keyword) (argument : Text) (n : Nat) :
    instruction ⟨Text.trimRight (Line.written k argument), n⟩ =
      .ok (Instruction.parse k (Text.trim argument) n) := by
  rw [instruction, divide_trimRight_written]
  simp only [Keyword.ofText?_text]

theorem instruction_written (k : Keyword) {argument : Text}
    (h : Text.trimLeft argument = argument) (n : Nat) :
    instruction ⟨Line.written k argument, n⟩ = .ok (Instruction.parse k argument n) := by
  rw [instruction, divide_written, h]
  simp only [Keyword.ofText?_text]

end LogicalLine

theorem Stage.exists_assign_singleton (ordinal : Nat) (current : Stage) (i : Instruction) :
    ∃ stage, (assign ordinal current [i]).1 = [{ i with stage }] := by
  rw [assign]
  split
  · exact ⟨_, rfl⟩
  · exact ⟨_, rfl⟩

/-- **A keyword and an argument that stands on one line are a document of one instruction**, which
has that keyword and is read from exactly that argument. -/
theorem Document.parse_line (k : Keyword) {argument : Text} (h : Line.Argument argument) :
    ∃ d i, Document.parse (k.text ++ ' ' :: (argument ++ ['\n'])) = .ok d ∧ d.instructions = [i] ∧
      i.keyword = k ∧ i.argument = argument ∧ i.Parsed := by
  have hn : '\n' ∉ Line.written k argument := Line.newline_notMem_written k h.newline
  have htext : k.text ++ ' ' :: (argument ++ ['\n']) = Line.written k argument ++ ['\n'] := by
    simp [Line.written]
  rw [Document.parse, htext, LogicalLine.extract_line (h.whole k) hn]
  simp only [LogicalLine.instructions, LogicalLine.instruction_written k h.left]
  obtain ⟨stage, hstage⟩ :=
    Stage.exists_assign_singleton 0 .beforeFirst (Instruction.parse k argument 1)
  exact ⟨_, _, rfl, hstage, rfl, rfl, Instruction.parsed_parse k argument 1 stage⟩

/-- If the form of the keyword reads the argument, the instruction is valid and has its operand. -/
theorem Document.parse_operand {k : Keyword} {argument : Text} (h : Line.Argument argument)
    {f : Form} (hform : k.form? = some f) {operand : Operand}
    (hread : f.read argument = .ok operand) :
    ∃ d i, Document.parse (k.text ++ ' ' :: (argument ++ ['\n'])) = .ok d ∧ d.instructions = [i] ∧
      i.keyword = k ∧ i.isValid ∧ i.argument = argument ∧ i.args = .ofOperand k operand := by
  obtain ⟨d, i, hd, hi, rfl, rfl, hparsed⟩ := Document.parse_line k h
  have hargs : Args.read i.keyword i.argument = .ok (.ofOperand i.keyword operand) := by
    rw [Args.read_eq_of_form hform, hread]
    rfl
  obtain ⟨hoperand, hvalid⟩ := hparsed.read_eq_iff.1 hargs
  exact ⟨d, i, hd, hi, rfl, hvalid, rfl, hoperand⟩

end Dockerlint
