import Mathlib
import Dockerlint.Proofs.Document.Append
import Dockerlint.Proofs.Line.Runs
import Dockerlint.Proofs.Line.Settled

/-!
# Reading the display of a document

A document is displayed with one line for each instruction: its keyword, a space and its argument.
Comments, continuations and the gaps behind backslashes are gone from the arguments, and none of
what is left is taken for one of them when the display is read. The instructions are the same, on
the lines 1, 2 and so on.

An argument is the end of a logical line, and a logical line is settled. For a line that stands
alone that is what scanning leaves. Lines that continue are put together with what follows, so a
quote on one of them could be closed by a quote on another; they must not have quotes. The line that
ends a continuation may. Only spaces and tabs can be trimmed from the end of a settled text, because
an escape can end in any other blank; so no line may have other blanks.

## Main definitions

* `Line.Closing`: the arguments that can end a line as they are

## Main results

* `Line.Run.settled_text`: the text of a logical line is settled
* `LogicalLine.assemble_written`: a displayed instruction is a logical line
* `Document.parse_display`: the display of a document is read as its instructions
-/

namespace Dockerlint

namespace Line

/-! ## Settled lines -/

theorem settled_piece (line : Text) : Segment.Settled (piece line) :=
  (Segment.settled_scan line).trimLeft

theorem settled_joined {ls : List (Text × Nat)}
    (h : ∀ l ∈ ls, ∀ c ∈ l.1, ¬ Segment.IsQuote c) {t : Text} (ht : Segment.Settled t) :
    Segment.Settled (joined ls ++ t) := by
  induction ls with
  | nil => exact ht
  | cons l ls ih =>
    have hquotes : ∀ c ∈ piece l.1, ¬ Segment.IsQuote c := fun c hc =>
      h l (List.mem_cons_self ..) c (mem_of_mem_piece hc)
    rw [joined, List.flatMap_cons, List.append_assoc]
    exact (settled_piece l.1).append hquotes (ih fun k hk => h k (List.mem_cons_of_mem l hk))

/-- **The text of a logical line is settled** if the lines that continue have no quotes, and all
lines no other blanks than spaces and tabs. -/
theorem Run.settled_text (r : Run) (hquotes : ∀ l ∈ r.continued, ∀ c ∈ l.1, ¬ Segment.IsQuote c)
    (hblanks : ∀ l ∈ r.lines, ∀ c ∈ l.1, isBlank c → Segment.isGap c) :
    Segment.Settled r.logical.text := by
  have hjoined : Segment.Settled (joined r.lines) := by
    have hlast := settled_joined hquotes (settled_piece r.last.1)
    simpa [joined, lines] using hlast
  obtain ⟨blanks, hcut, hblank⟩ := Text.exists_trimRight_append (joined r.lines)
  -- the blanks that are trimmed stand on one of the lines
  have hgaps : ∀ c ∈ blanks, Segment.isGap c := by
    intro c hc
    have hmem : c ∈ joined r.lines := hcut ▸ List.mem_append_right _ hc
    obtain ⟨l, hl, hpiece⟩ := List.mem_flatMap.1 hmem
    exact hblanks l hl c (mem_of_mem_piece hpiece) (hblank c hc)
  rw [hcut] at hjoined
  exact hjoined.of_append_gaps hgaps

/-! ## Arguments -/

theorem settled_written {argument : Text} (h : Segment.Settled argument) (k : Keyword) :
    Segment.Settled (written k argument) := by
  have hkeyword : ∀ c ∈ k.text, ¬ Segment.IsQuote c := fun c hc =>
    (Segment.isOrdinary_iff.1 (keyword_ordinary k c hc)).2.2
  exact (Segment.Settled.of_ordinary (keyword_ordinary k)).append hkeyword
    (.ordinary (by decide) h)

/-- No carriage return at the end of the line can become a part of its ending. -/
theorem getLast?_written_ne {argument : Text} (h : argument.getLast? ≠ some '\r') (k : Keyword) :
    (written k argument).getLast? ≠ some '\r' := by
  rw [written, List.getLast?_append, List.getLast?_cons, Option.some_or]
  intro hlast
  cases hcases : argument.getLast? with
  | none =>
    rw [hcases] at hlast
    exact absurd hlast (by decide)
  | some c =>
    rw [hcases] at hlast
    exact h (hcases.trans hlast)

/-- The arguments that can end a line as they are. -/
structure Closing (argument : Text) : Prop where
  settled : Segment.Settled argument
  newline : '\n' ∉ argument
  left : Text.trimLeft argument = argument
  right : Text.trimRight argument = argument

namespace Closing

variable {argument : Text}

/-- An argument ends its logical line, so it is settled and trimmed if the line is. -/
theorem of_instruction {l : LogicalLine} {i : Instruction} (h : l.instruction = .ok i)
    (hsettled : Segment.Settled l.text) (hnewline : '\n' ∉ l.text)
    (hright : Text.trimRight l.text = l.text) : Closing i.argument := by
  unfold LogicalLine.instruction at h
  simp only at h
  split at h
  · next k hk =>
    rw [← Except.ok.inj h]
    have hsuffix : (LogicalLine.divide l.text).2 <:+ l.text :=
      (Text.trimLeft_suffix _).trans (List.dropWhile_suffix _)
    refine ⟨?_, fun hmem => hnewline (hsuffix.subset hmem), Text.trimLeft_trimLeft _, ?_⟩
    · -- the word in front is a keyword, and no character of it means anything to a scan
      have hword : k.text = l.text.takeWhile (!isBlank ·) := Keyword.text_of_ofText? hk
      rw [← List.takeWhile_append_dropWhile (p := (!isBlank ·)) (l := l.text), ← hword] at hsettled
      exact (hsettled.of_append (keyword_ordinary k)).trimLeft
    · exact Text.trimRight_eq_self_of_suffix hsuffix hright
  · cases h

theorem trim_eq_self (h : Closing argument) : Text.trim argument = argument := by
  rw [Text.trim, h.left, h.right]

end Closing

end Line

namespace LogicalLine

/-- A keyword and a settled argument are a logical line without the blanks at their end; if there is
no argument, the space behind the keyword is trimmed. -/
theorem assemble_written {argument : Text} (h : Segment.Settled argument) (k : Keyword) (n : Nat)
    (rest : List Text) :
    assemble none n (Line.written k argument :: rest) =
      (assemble none (n + 1) rest).map (⟨Text.trimRight (Line.written k argument), n⟩ :: ·) := by
  have hne : Text.trimRight (Line.written k argument) ≠ [] := by
    obtain ⟨c, rest, hcons, hc, -⟩ := Line.exists_written k argument
    rw [hcons, Text.trimRight_cons hc]
    exact List.cons_ne_nil c _
  rw [assemble, Line.isDiscarded_written, (Line.settled_written h k).scan_eq]
  simp only [Option.elim, List.nil_append, Line.trimLeft_written, if_neg hne]
  rfl

/-- The lines of a display are logical lines, and their instructions are those that are displayed,
on the lines from `n` on. -/
theorem exists_assemble_display {is : List Instruction} (h : ∀ i ∈ is, Line.Closing i.argument)
    (n : Nat) : ∃ ls, assemble none n (is.map Instruction.display) = .ok ls ∧
      instructions ls = .ok ((is.zipIdx n).map fun p =>
        Instruction.parse p.1.keyword p.1.argument p.2) := by
  induction is generalizing n with
  | nil => exact ⟨[], rfl, rfl⟩
  | cons i is ih =>
    have hi := h i (List.mem_cons_self ..)
    obtain ⟨ls, hls, hread⟩ := ih (fun j hj => h j (List.mem_cons_of_mem i hj)) (n + 1)
    refine ⟨⟨Text.trimRight (Line.written i.keyword i.argument), n⟩ :: ls, ?_, ?_⟩
    · rw [List.map_cons, Instruction.display, ← Line.written, assemble_written hi.settled, hls]
      rfl
    · rw [instructions, instruction_trimRight_written, hi.trim_eq_self]
      simp only [hread]
      rfl

end LogicalLine

/-- Instructions that were read on different lines are in the same stages. -/
theorem Stage.map_assign_of_relined {α : Type} {g : Instruction → α}
    (hg : ∀ i, i.Parsed → g (i.relined fun _ => 0) = g i) {is js : List Instruction}
    (his : ∀ i ∈ is, i = Instruction.parse i.keyword i.argument i.line)
    (hjs : ∀ j ∈ js, j = Instruction.parse j.keyword j.argument j.line)
    (h : is.map (Instruction.relined fun _ => 0) = js.map (Instruction.relined fun _ => 0))
    (ordinal : Nat) (current : Stage) :
    (assign ordinal current is).1.map g = (assign ordinal current js).1.map g := by
  have hrelined : ∀ ks : List Instruction,
      (∀ k ∈ ks, k = Instruction.parse k.keyword k.argument k.line) →
        (assign ordinal current (ks.map (Instruction.relined fun _ => 0))).1.map g =
          (assign ordinal current ks).1.map g := by
    intro ks hks
    rw [assign_relined, List.map_map]
    exact List.map_congr_left fun k hk => hg k (parsed_of_mem_assign hks k hk)
  rw [← hrelined is his, h, hrelined js hjs]

namespace Document

/-! ## Documents -/

theorem relined_zipIdx {is : List Instruction}
    (h : ∀ i ∈ is, i = Instruction.parse i.keyword i.argument i.line) (n : Nat) :
    ((is.zipIdx n).map fun p => Instruction.parse p.1.keyword p.1.argument p.2).map
      (Instruction.relined fun _ => 0) = is.map (Instruction.relined fun _ => 0) := by
  have hparse : ∀ i ∈ is,
      Instruction.parse i.keyword i.argument 0 = i.relined fun _ => 0 := by
    intro i hi
    have hrelined := Instruction.relined_parse (fun _ => 0) i.keyword i.argument i.line
    rw [← h i hi] at hrelined
    exact hrelined.symm
  calc ((is.zipIdx n).map fun p => Instruction.parse p.1.keyword p.1.argument p.2).map
        (Instruction.relined fun _ => 0)
      = ((is.zipIdx n).map Prod.fst).map fun i => Instruction.parse i.keyword i.argument 0 := by
        rw [List.map_map, List.map_map]
        exact List.map_congr_left fun p _ => Instruction.relined_parse ..
    _ = is.map fun i => Instruction.parse i.keyword i.argument 0 := by rw [List.zipIdx_map_fst]
    _ = is.map (Instruction.relined fun _ => 0) := List.map_congr_left hparse

/-- Every argument of such a document can end a line as it is. -/
theorem closing_of_instructions {content : Text} {ls : List LogicalLine} {is : List Instruction}
    (hls : LogicalLine.extract content = .ok ls) (his : LogicalLine.instructions ls = .ok is)
    (hblanks : ∀ c ∈ content, isBlank c → c = ' ' ∨ c = '\t' ∨ c = '\n')
    (hquotes : ∀ k ∈ Line.kept 1 (Text.lines content), Line.continues k.1 →
      ∀ c ∈ k.1, ¬ Segment.IsQuote c) :
    ∀ i ∈ is, Line.Closing i.argument := by
  intro i hi
  obtain ⟨l, hl, hread⟩ := LogicalLine.exists_of_mem_instructions his i hi
  obtain ⟨runs, hcut, rfl⟩ := LogicalLine.exists_runs_of_extract hls
  obtain ⟨r, hr, rfl⟩ := List.mem_map.1 hl
  have hkept : ∀ k ∈ r.lines, k ∈ Line.kept 1 (Text.lines content) := by
    intro k hk
    rw [hcut]
    exact List.mem_flatMap.2 ⟨r, hr, hk⟩
  have hmem : ∀ k ∈ r.lines, ∀ c ∈ k.1, c ∈ content ∧ c ≠ '\n' := fun k hk c hc =>
    Text.mem_of_mem_lines (Line.mem_kept (hkept k hk)).1 hc
  refine .of_instruction hread (r.settled_text ?_ ?_) ?_ ?_
  · -- the line that ends a run may have quotes, and those before it continue
    intro k hk
    exact hquotes k (hkept k (List.mem_append_left _ hk)) (r.continues_continued k hk)
  · intro k hk c hc hblank
    obtain ⟨hcontent, hne⟩ := hmem k hk c hc
    rcases hblanks c hcontent hblank with rfl | rfl | rfl
    · rfl
    · rfl
    · exact absurd rfl hne
  · intro hnewline
    obtain ⟨k, hk, hc⟩ := Line.Run.mem_text hnewline
    exact (hmem k hk '\n' hc).2 rfl
  · exact Text.trimRight_eq_self_iff.2 fun c hc => Text.isBlank_of_getLast?_trimRight hc

theorem lines_display {is : List Instruction} (h : ∀ i ∈ is, Line.Closing i.argument) :
    Text.lines (Text.join ['\n'] (is.map Instruction.display)) = is.map Instruction.display := by
  refine Text.lines_join ?_ ?_ ?_
  · intro t ht
    obtain ⟨i, -, rfl⟩ := List.mem_map.1 ht
    obtain ⟨c, rest, hcons, -⟩ := Line.exists_written i.keyword i.argument
    exact fun hnil => List.cons_ne_nil c rest (hcons.symm.trans hnil)
  · intro t ht
    obtain ⟨i, hi, rfl⟩ := List.mem_map.1 ht
    exact Line.newline_notMem_written i.keyword (h i hi).newline
  · intro t ht
    obtain ⟨i, hi, rfl⟩ := List.mem_map.1 ht
    apply Line.getLast?_written_ne
    exact Text.getLast?_ne_of_trimRight_eq_self (h i hi).right rfl

/-- **The display of a document is read as its instructions.** Let a document have no other blanks
than spaces, tabs and line feeds, and no quotes on lines that continue; all other lines may have any
quotes, escapes and comments. Then its display can be read, and gives the same keywords, arguments,
stages and attributes in the same order, on the lines from 1 on. -/
theorem parse_display {content : Text} {d : Document} (h : parse content = .ok d)
    (hblanks : ∀ c ∈ content, isBlank c → c = ' ' ∨ c = '\t' ∨ c = '\n')
    (hquotes : ∀ k ∈ Line.kept 1 (Text.lines content), Line.continues k.1 →
      ∀ c ∈ k.1, ¬ Segment.IsQuote c) :
    ∃ d', parse (Text.join ['\n'] (d.instructions.map Instruction.display)) = .ok d' ∧
      d'.instructions.map (fun i => (i.keyword, i.argument, i.stage, i.args, i.isValid)) =
        d.instructions.map (fun i => (i.keyword, i.argument, i.stage, i.args, i.isValid)) ∧
      d'.instructions.map (·.line) = List.range' 1 d.instructions.length := by
  obtain ⟨ls, is, hls, his, rfl⟩ := parse_eq_ok_iff.1 h
  have hclosing := closing_of_instructions hls his hblanks hquotes
  have hparse := LogicalLine.eq_parse_of_instructions his
  obtain ⟨ms, hms, hread⟩ := LogicalLine.exists_assemble_display hclosing 1
  have hdisplay : (Stage.assign 0 .beforeFirst is).1.map Instruction.display =
      is.map Instruction.display := Stage.map_assign (fun _ _ => rfl) 0 .beforeFirst is
  rw [hdisplay]
  refine ⟨_, parse_eq_ok_iff.2 ⟨ms, _, ?_, hread, rfl⟩, ?_, ?_⟩
  · rw [LogicalLine.extract, lines_display hclosing, hms]
  · refine Stage.map_assign_of_relined (fun i hi => ?_)
      (LogicalLine.eq_parse_of_instructions hread) hparse (relined_zipIdx hparse 1) 0 .beforeFirst
    rw [hi.isValid_relined]
    rfl
  · have hlength : (Stage.assign 0 .beforeFirst is).1.length = is.length := by
      rw [← List.length_map, hdisplay, List.length_map]
    rw [Stage.map_assign fun _ _ => rfl, List.map_map, hlength, ← List.zipIdx_map_snd 1 is]
    rfl

/-- The quote behind `RUN` is closed in the display only; there are a comment, a continuation and an
instruction without an argument behind it. -/
theorem parse_display_freed_quote :
    ∃ content d, content = "RUN ' \\ \\' # c\nENV x \\\n# d\n y\nCMD\n".toList ∧
      parse content = .ok d ∧
      (∀ c ∈ content, isBlank c → c = ' ' ∨ c = '\t' ∨ c = '\n') ∧
      (∀ k ∈ Line.kept 1 (Text.lines content), Line.continues k.1 →
        ∀ c ∈ k.1, ¬ Segment.IsQuote c) ∧
      ∃ d', parse (Text.join ['\n'] (d.instructions.map Instruction.display)) = .ok d' ∧
        d'.instructions.map (·.argument) = ["' \\\\'".toList, "x y".toList, []] ∧
        d'.instructions.map (·.line) = [1, 2, 3] := by
  obtain ⟨content, hcontent⟩ :
      ∃ t, t = "RUN ' \\ \\' # c\nENV x \\\n# d\n y\nCMD\n".toList := ⟨_, rfl⟩
  have hparse : (parse content).map (fun d => d.instructions.map (·.argument)) =
      .ok ["' \\\\'".toList, "x y".toList, []] := by
    rw [hcontent]
    cbv
  have hall : content.all (fun c => !isBlank c || c == ' ' || c == '\t' || c == '\n') = true := by
    rw [hcontent]
    cbv
  have hblanks : ∀ c ∈ content, isBlank c → c = ' ' ∨ c = '\t' ∨ c = '\n' := by
    intro c hc hblank
    simpa [hblank, or_assoc] using List.all_eq_true.1 hall c hc
  have hcontinued : (Line.kept 1 (Text.lines content)).filter (fun k => Line.continues k.1) =
      [("ENV x \\".toList, 2)] := by
    rw [hcontent]
    cbv
  have hquotes : ∀ k ∈ Line.kept 1 (Text.lines content), Line.continues k.1 →
      ∀ c ∈ k.1, ¬ Segment.IsQuote c := by
    intro k hk hcontinues
    have hmem : k ∈ [("ENV x \\".toList, 2)] := hcontinued ▸ List.mem_filter.2 ⟨hk, hcontinues⟩
    rw [List.mem_singleton.1 hmem]
    simp [Segment.IsQuote]
  obtain ⟨d, hd, harguments⟩ := exists_of_map_eq_ok hparse
  refine ⟨content, d, hcontent, hd, hblanks, hquotes, ?_⟩
  obtain ⟨d', hd', hsame, hlines⟩ := parse_display hd hblanks hquotes
  have hsame := congrArg (List.map fun p => p.2.1) hsame
  rw [List.map_map, List.map_map] at hsame
  have hlength := congrArg List.length harguments
  rw [List.length_map] at hlength
  refine ⟨d', hd', hsame.trans harguments, ?_⟩
  rw [hlines, hlength]
  rfl

end Document

end Dockerlint
