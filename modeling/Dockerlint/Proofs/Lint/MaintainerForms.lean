import Mathlib
import Dockerlint.Proofs.Document.Display
import Dockerlint.Proofs.Lint.Placement
import Dockerlint.Proofs.Operand.Maintainers
import Dockerlint.Proofs.Operand.Styles

/-!
# Maintainers in two forms

Maintainers are named by `MAINTAINER` or by a label, and one rule for each looks for the name and the
address of every entry. The entries of `MAINTAINER` are put together from words; those of a label are
the pieces of its value as they stand, with all their blanks. The two rules find the same all the
same. What an entry lacks depends on its brackets, and on whether there is anything but blanks before,
between and behind them; so blanks can be left out of an entry, except that the double quotes around a
name do not count.

## Main definitions

* `Text.ink`: a text without its blanks

## Main results

* `Text.cut_ink`: a text without its blanks is cut alike
* `Address.missing_congr`: what an entry lacks does not depend on its blanks
* `Document.exists_parse_behind`: a document of a `FROM` and an instruction without escapes
* `Report.maintainers_alike`: the two rules find the same
-/

namespace Dockerlint

namespace Text

/-! ## Texts without blanks -/

/-- A text without its blanks. -/
def ink (t : Text) : Text := t.filter (!isBlank ·)

theorem ink_append (s t : Text) : ink (s ++ t) = ink s ++ ink t := List.filter_append ..

theorem ink_eq_nil_iff {t : Text} : ink t = [] ↔ trim t = [] := by
  simp [ink, trim_eq_nil_iff]

theorem ink_of_blank {t : Text} (h : ∀ c ∈ t, isBlank c) : ink t = [] :=
  ink_eq_nil_iff.2 (trim_eq_nil_iff.2 h)

theorem ink_trimLeft (t : Text) : ink (trimLeft t) = ink t := by
  have hblank := ink_of_blank (t := t.takeWhile isBlank) (List.all_eq_true.1 List.all_takeWhile)
  rw [← takeWhile_append_trimLeft t, ink_append, hblank, List.nil_append,
    takeWhile_append_trimLeft]

theorem ink_trimRight (t : Text) : ink (trimRight t) = ink t := by
  obtain ⟨blanks, hcut, hblanks⟩ := exists_trimRight_append t
  have hink := congrArg ink hcut
  rw [ink_append, ink_of_blank hblanks, List.append_nil] at hink
  exact hink.symm

theorem ink_trim (t : Text) : ink (trim t) = ink t := by
  rw [trim, ink_trimRight, ink_trimLeft]

/-- Without its blanks a text is its tokens. -/
theorem ink_eq_flatten (t : Text) : ink t = (tokens t).flatten := by
  induction t using tokens_induction with
  | blank t hblank htokens => rw [← ink_trimLeft, hblank, htokens]; rfl
  | token t w rest hcut hw _ htokens ih =>
    have hself : ink w = w := List.filter_eq_self.2 (by simpa using hw.not_blank)
    rw [← ink_trimLeft, hcut, ink_append, hself, htokens, List.flatten_cons, ih]

theorem ink_join {sep : Text} (hsep : ∀ c ∈ sep, isBlank c) (ts : List Text) :
    ink (join sep ts) = ts.flatMap ink := by
  induction ts with
  | nil => rfl
  | cons t ts ih =>
    cases ts with
    | nil => simp
    | cons s ts =>
      rw [join_cons_cons, ink_append, ink_append, ink_of_blank hsep, ih]
      rfl

/-- The tokens of a text, with single spaces between them, have the characters of the text. -/
theorem ink_join_tokens (t : Text) : ink (join [' '] (tokens t)) = ink t := by
  have hspace : ∀ c ∈ [' '], isBlank c := List.forall_mem_singleton.2 rfl
  have hself : ∀ w ∈ tokens t, ink w = id w := fun w hw =>
    List.filter_eq_self.2 (by simpa using (isToken_of_mem_tokens hw).not_blank)
  rw [ink_join hspace, List.flatMap_congr hself, List.flatMap_id, ← ink_eq_flatten]

/-- **A text without its blanks is cut where the text is**, at a separator that is no blank. -/
theorem cut_ink {sep : Char} (hsep : isBlank sep = false) (t : Text) :
    cut sep (ink t) = (cut sep t).map fun parts => (ink parts.1, ink parts.2) := by
  induction t with
  | nil => rfl
  | cons c t ih =>
    by_cases hc : c = sep
    · subst hc
      rw [ink, List.filter_cons_of_pos (by simp [hsep]), cut, cut, if_pos rfl, if_pos rfl]
      rfl
    · have hcut : cut sep (c :: t) = (cut sep t).map fun parts => (c :: parts.1, parts.2) := by
        rw [cut, if_neg hc]
      rw [hcut, Option.map_map]
      by_cases hblank : isBlank c
      · rw [ink, List.filter_cons_of_neg (by simp [hblank]), ← ink, ih]
        simp [Function.comp_def, ink, hblank]
      · rw [ink, List.filter_cons_of_pos (by simp [hblank]), ← ink, cut, if_neg hc, ih,
          Option.map_map]
        simp [Function.comp_def, ink, hblank]

/-- Texts that differ only in their blanks are cut at the same separator, or neither is cut. -/
theorem cut_of_ink_eq (sep : Char) (hsep : isBlank sep = false) {s t : Text} (h : ink s = ink t) :
    (cut sep s = none ∧ cut sep t = none) ∨
      ∃ a b a' b', cut sep s = some (a, b) ∧ cut sep t = some (a', b') ∧ ink a = ink a' ∧
        ink b = ink b' := by
  have hcut := congrArg (cut sep) h
  rw [cut_ink hsep, cut_ink hsep] at hcut
  cases hs : cut sep s with
  | none =>
    rw [hs, Option.map_none, eq_comm, Option.map_eq_none_iff] at hcut
    exact .inl ⟨rfl, hcut⟩
  | some parts =>
    rw [hs, Option.map_some, eq_comm, Option.map_eq_some_iff] at hcut
    obtain ⟨⟨a', b'⟩, ht, hparts⟩ := hcut
    obtain ⟨ha, hb⟩ := Prod.mk.inj hparts
    exact .inr ⟨_, _, a', b', rfl, ht, ha.symm, hb.symm⟩

/-- The characters of a piece are characters of the text. -/
theorem mem_of_mem_split {sep : Char} {t piece : Text} (h : piece ∈ split sep t) {c : Char}
    (hc : c ∈ piece) : c ∈ t := by
  induction t using split_induction sep with
  | last p hp =>
    rw [split_of_notMem hp] at h
    rwa [List.mem_singleton.1 h] at hc
  | piece p behind hp ih =>
    rw [split_append hp] at h
    rcases List.mem_cons.1 h with rfl | h
    · exact List.mem_append_left _ hc
    · exact List.mem_append_right _ (List.mem_cons_of_mem sep (ih h))

end Text

namespace Address

/-! ## Entries -/

theorem stripQuotes_of_notMem {t : Text} (h : '"' ∉ t) : stripQuotes t = t := by
  have hdrop : ∀ s : Text, '"' ∉ s → s.dropWhile (· == '"') = s := by
    intro s hs
    cases s with
    | nil => rfl
    | cons c s =>
      have hc : c ≠ '"' := fun hc => hs (by simp [hc])
      exact List.dropWhile_cons_of_neg (by simpa using hc)
  rw [stripQuotes, hdrop t h, hdrop t.reverse (by simpa using h), List.reverse_reverse]

/-- A name without quotes is missing exactly if there is nothing but blanks. -/
theorem trim_name_eq_nil_iff {entry name rest : Text} (hquote : '"' ∉ entry)
    (hcut : Text.cut '<' (Text.trim entry) = some (name, rest)) :
    Text.trim (stripQuotes (Text.trim name)) = [] ↔ Text.ink name = [] := by
  have hmem : ∀ c ∈ Text.trim name, c ∈ entry := by
    intro c hc
    have hname : c ∈ Text.trim entry := by
      rw [(Text.cut_eq_some hcut).1]
      exact List.mem_append_left _ ((Text.trim_sublist name).subset hc)
    exact (Text.trim_sublist entry).subset hname
  rw [stripQuotes_of_notMem fun hc => hquote (hmem _ hc), Text.trim_trim, Text.ink_eq_nil_iff]

/-- **What an entry without quotes lacks does not depend on its blanks.** -/
theorem missing_congr {s t : Text} (hs : '"' ∉ s) (ht : '"' ∉ t) (h : Text.ink s = Text.ink t) :
    missing s = missing t := by
  have htrim : Text.ink (Text.trim s) = Text.ink (Text.trim t) := by
    rw [Text.ink_trim, Text.ink_trim, h]
  have hblank : Text.trim s = [] ↔ Text.trim t = [] := by
    rw [← Text.ink_eq_nil_iff, ← Text.ink_eq_nil_iff, h]
  rcases Text.cut_of_ink_eq '<' rfl htrim with
    ⟨hopen, hopen'⟩ | ⟨name, rest, name', rest', hopen, hopen', hname, hrest⟩
  · simp only [missing, parse, hopen, hopen', hblank]
  rcases Text.cut_of_ink_eq '>' rfl hrest with
    ⟨hclose, hclose'⟩ | ⟨address, behind, address', behind', hclose, hclose', haddress, -⟩
  · simp only [missing, parse, hopen, hopen', hclose, hclose', hblank]
  · -- both have a name and an address, or blanks in their places
    simp only [missing, parse, hopen, hopen', hclose, hclose', trim_name_eq_nil_iff hs hopen,
      trim_name_eq_nil_iff ht hopen', ← Text.ink_eq_nil_iff (t := address),
      ← Text.ink_eq_nil_iff (t := address'), hname, haddress]

end Address

/-! ## Documents of two instructions -/

/-- A keyword and an argument make up one line with the ending behind it, but for a carriage return at
the end of the argument. -/
theorem Line.exists_lines_written (k : Keyword) {argument stop : Text} (hn : '\n' ∉ argument)
    (hstop : stop = [] ∨ stop = ['\n']) :
    ∃ a, Text.lines (written k argument ++ stop) = [written k a] ∧
      Text.trim a = Text.trim argument ∧ ∀ c ∈ a, c ∈ argument := by
  have hline := newline_notMem_written k hn
  rcases hstop with rfl | rfl
  · refine ⟨argument, ?_, rfl, fun c hc => hc⟩
    obtain ⟨c, rest, hcons, -⟩ := exists_written k argument
    rw [List.append_nil, Text.lines_eq_singleton (by rw [hcons]; exact List.cons_ne_nil c rest) hline]
  · by_cases hr : argument.getLast? = some '\r'
    · -- the carriage return belongs to the ending, and it would be trimmed anyway
      obtain ⟨a, rfl⟩ := List.getLast?_eq_some_iff.1 hr
      refine ⟨a, ?_, ?_, fun c hc => List.mem_append_left _ hc⟩
      · have hreturn : written k (a ++ ['\r']) ++ ['\n'] = written k a ++ '\r' :: '\n' :: [] := by
          simp [written]
        have ha : '\n' ∉ written k a :=
          newline_notMem_written k fun hc => hn (List.mem_append_left _ hc)
        rw [hreturn, Text.lines_append_return ha]
        rfl
      · have hblank : ∀ c ∈ ['\r'], isBlank c := List.forall_mem_singleton.2 rfl
        rw [Text.trim, Text.trim, Text.trimRight_trimLeft, Text.trimRight_trimLeft,
          Text.trimRight_append_blanks a hblank]
    · refine ⟨argument, ?_, rfl, fun c hc => hc⟩
      rw [Text.lines_append_newline hline (getLast?_written_ne hr k)]
      rfl

/-- **A `FROM` and an instruction without comment signs and backslashes** are a document of these two
instructions, with the trimmed argument. -/
theorem Document.exists_parse_behind {k : Keyword} (hk : k ≠ .fromImage) {argument stop : Text}
    (hplain : ∀ c ∈ argument, c ≠ '#' ∧ c ≠ '\\' ∧ c ≠ '\n')
    (hstop : stop = [] ∨ stop = ['\n']) :
    ∃ d s, parse ("FROM x\n".toList ++ (Line.written k argument ++ stop)) = .ok d ∧
      d.instructions = [{ Instruction.parse .fromImage ['x'] 1 with stage := s },
        { Instruction.parse k (Text.trim argument) 2 with stage := s }] := by
  obtain ⟨a, hline, htrim, hmem⟩ :=
    Line.exists_lines_written k (fun hc => (hplain '\n' hc).2.2 rfl) hstop
  have himage : Segment.Settled ['x'] := .of_plain (by simp)
  have hsettled : Segment.Settled a :=
    .of_plain fun c hc => ⟨(hplain c (hmem c hc)).1, (hplain c (hmem c hc)).2.1⟩
  have hlines : Text.lines ("FROM x\n".toList ++ (Line.written k argument ++ stop)) =
      [Line.written .fromImage ['x'], Line.written k a] := by
    rw [Text.lines_append (.inr rfl), hline]
    rfl
  have hextract : LogicalLine.extract ("FROM x\n".toList ++ (Line.written k argument ++ stop)) =
      .ok [⟨Text.trimRight (Line.written .fromImage ['x']), 1⟩,
        ⟨Text.trimRight (Line.written k a), 2⟩] := by
    rw [LogicalLine.extract, hlines, LogicalLine.assemble_written himage,
      LogicalLine.assemble_written hsettled]
    rfl
  have hread : LogicalLine.instructions [⟨Text.trimRight (Line.written .fromImage ['x']), 1⟩,
      ⟨Text.trimRight (Line.written k a), 2⟩] =
        .ok [Instruction.parse .fromImage ['x'] 1, Instruction.parse k (Text.trim argument) 2] := by
    simp only [LogicalLine.instructions, LogicalLine.instruction_trimRight_written, htrim]
    rfl
  refine ⟨_, Stage.ofImage (Instruction.parse .fromImage ['x'] 1) 0,
    parse_eq_ok_iff.2 ⟨_, _, hextract, hread, rfl⟩, ?_⟩
  have hkeyword : (Instruction.parse k (Text.trim argument) 2).keyword ≠ .fromImage := hk
  rw [Stage.assign_cons_of_image 0 .beforeFirst _ rfl, Stage.assign_cons_of_ne 1 _ [] hkeyword]
  rfl

/-! ## The two arguments -/

/-- A key and a quoted value without escapes are one assignment. -/
theorem Assignments.read_quoted {key value : Text} (hne : key ≠ [])
    (hkey : ∀ c ∈ key, isBlank c = false ∧ c ≠ '=' ∧ c ≠ '"')
    (hvalue : ∀ c ∈ value, c ≠ '\\' ∧ c ≠ '\n' ∧ c ≠ '"') :
    Assignments.read (key ++ '=' :: '"' :: (value ++ ['"'])) = .ok (Table.ofList [(key, value)]) := by
  obtain ⟨rest, hrest⟩ : ∃ rest, rest = '=' :: '"' :: (value ++ ['"']) := ⟨_, rfl⟩
  have htrim : Text.trimLeft (key ++ rest) = key ++ rest := by
    obtain ⟨c, key, rfl⟩ := List.exists_cons_of_ne_nil hne
    exact Text.trimLeft_eq_self (hkey c (List.mem_cons_self ..)).1
  have hread : Word.read ['='] (key ++ rest) = some (.bare key, rest) := by
    apply Word.read_run hne fun hc => (hkey '"' hc).2.2 rfl
    · exact fun c hc => ⟨(hkey c hc).1, by simpa using (hkey c hc).2.1⟩
    · intro c hc
      rw [hrest] at hc
      exact .inr (by simpa using hc.symm)
  have hbehind : readValue ('"' :: (value ++ ['"'])) = (value, []) := by
    have hquoted : Word.read [] ('"' :: (value ++ ['"'])) = some (.quoted value, []) :=
      Word.read_quote_eq_some_iff.2 ⟨value, rfl, rfl, Quoted.isBody_of_plain hvalue⟩
    rw [readValue, hquoted]
    simp only [Word.value, Quoted.unescape_of_notMem fun hc => (hvalue '\\' hc).1 rfl]
  have hpairs : readPairs (Text.trimLeft (key ++ rest)) = ([(key, value)], []) := by
    have hend : readPairs [] = ([], []) := by rw [readPairs_eq]; rfl
    rw [readPairs_eq, htrim, htrim, hread, hrest]
    simp [Text.after, hbehind, hend, Word.value]
  rw [← hrest, read_of_readPairs (by rw [hpairs]; exact List.cons_ne_nil _ _), hpairs]
  rfl

/-- The only key of a table with one entry. -/
theorem Assignments.valueOf_singleton (key value : Text) :
    Assignments.valueOf (Table.ofList [(key, value)]) key .exact = some value := by
  rw [valueOf, Table.ofList, List.foldl_cons, List.foldl_nil, Table.find?_insert, if_pos rfl]

/-! ## The rules -/

namespace General

section TwoInstructions

variable {d : Document} {policy : Policy} {i j : Instruction} (h : d.instructions = [i, j])
  (hi : i.keyword = .fromImage)

include h hi

/-- Behind a `FROM` the only instruction with a keyword is found. -/
theorem ofKeyword_behind {k : Keyword} (hk : k ≠ .fromImage) (hj : j.keyword = k) :
    d.ofKeyword k none = [j] := by
  simp [Document.ofKeyword, Document.select, Document.inStage, h, hi, hj, Ne.symm hk]

theorem maintainerForm_behind (hj : j.keyword = .maintainer) {entries : List Text}
    (hentries : j.args.maintainers? = some entries) :
    maintainerForm ⟨d, none, policy⟩ = entries.flatMap (missingParts j) := by
  rw [maintainerForm, ofKeyword_behind h hi (by decide) hj, List.flatMap_singleton, hentries]
  rfl

theorem labelForm_behind (hj : j.keyword = .label) {value : Text}
    (hvalue : j.valueOf Document.maintainerKey .exact = some value) (hne : value ≠ []) :
    labelForm ⟨d, none, policy⟩ = (Text.split ',' value).flatMap (missingParts j) := by
  have hlabels : d.maintainerLabels .exact none = [j] := by
    rw [Document.maintainerLabels, ofKeyword_behind h hi (by decide) hj]
    simp [Instruction.containsKey, hvalue]
  have hentries : labelEntries j = Text.split ',' value := by
    obtain ⟨c, rest, rfl⟩ := List.exists_cons_of_ne_nil hne
    rw [labelEntries, hvalue]
  rw [labelForm, hlabels, List.flatMap_singleton, hentries]

end TwoInstructions

/-- **The entries of the two forms lack the same.** -/
theorem flatMap_missingParts {t : Text} (hquote : '"' ∉ t) {i j : Instruction}
    (hline : i.line = j.line) :
    ((Text.split ',' t).map fun piece => Text.join [' '] (Text.tokens piece)).flatMap
      (missingParts i) = (Text.split ',' t).flatMap (missingParts j) := by
  rw [List.flatMap_map]
  refine List.flatMap_congr fun piece hpiece => ?_
  have hpiece' : '"' ∉ piece := fun hc => hquote (Text.mem_of_mem_split hpiece hc)
  have hentry : '"' ∉ Text.join [' '] (Text.tokens piece) := by
    intro hc
    have hink : '"' ∈ Text.ink (Text.join [' '] (Text.tokens piece)) := List.mem_filter.2 ⟨hc, rfl⟩
    rw [Text.ink_join_tokens] at hink
    exact hpiece' (List.mem_filter.1 hink).1
  rw [missingParts, missingParts, hline,
    Address.missing_congr hentry hpiece' (Text.ink_join_tokens piece)]

/-- The rules about the form of maintainers, as they are listed. -/
def labelFormRule : Rule :=
  ⟨"rule13_0", "LABEL maintainer must be in the form name <name@mail.com>", .error, labelForm⟩

def maintainerFormRule : Rule :=
  ⟨"rule13_1", "MAINTAINER must be in the form name <name@mail.com>", .error, maintainerForm⟩

end General

/-! ## The two forms -/

/-- A piece has a token exactly if it has a character that is not blank. -/
theorem Text.tokens_ne_nil_iff {t : Text} : tokens t ≠ [] ↔ ∃ c ∈ t, isBlank c = false := by
  rw [ne_eq, tokens_eq_nil_iff, trimLeft_eq_nil_iff]
  simp

theorem Args.read_maintainer_eq_ok_iff {t : Text} {args : Args} : Args.read .maintainer t = .ok args ↔
    ∃ entries, Maintainers.read t = .ok entries ∧ args = .maintainer (some entries) :=
  Args.read_eq_ok_iff (f := .maintainers) rfl rfl

namespace Document

/-- The argument of a label with the maintainer in double quotes. -/
def maintainerLabel (t : Text) : Text := maintainerKey ++ '=' :: '"' :: (t ++ ['"'])

theorem trim_maintainerLabel (t : Text) : Text.trim (maintainerLabel t) = maintainerLabel t := by
  have hleft : Text.trimLeft (maintainerLabel t) = maintainerLabel t := Text.trimLeft_eq_self rfl
  have hquote : maintainerLabel t = (maintainerKey ++ '=' :: '"' :: t) ++ ['"'] := by
    simp [maintainerLabel]
  rw [Text.trim, hleft, hquote, Text.trimRight_concat _ rfl]

variable {t stop : Text} (ht : ∀ c ∈ t, c ≠ '"' ∧ c ≠ '\\' ∧ c ≠ '#' ∧ c ≠ '\n')
  (hstop : stop = [] ∨ stop = ['\n'])

include ht hstop

/-- A document with a `MAINTAINER`, and what the rule about it finds. -/
theorem exists_parse_maintainer {entries : List Text} (hread : Maintainers.read t = .ok entries)
    (policy : Policy) : ∃ d j, parse ("FROM x\nMAINTAINER ".toList ++ (t ++ stop)) = .ok d ∧
      General.maintainerForm ⟨d, none, policy⟩ = entries.flatMap (General.missingParts j) ∧
      j.line = 2 := by
  obtain ⟨d, s, hd, hinstructions⟩ := exists_parse_behind (k := .maintainer) (by decide)
    (fun c hc => ⟨(ht c hc).2.2.1, (ht c hc).2.1, (ht c hc).2.2.2⟩) hstop
  have hargs : Args.read .maintainer (Text.trim t) = .ok (.maintainer (some entries)) :=
    Args.read_maintainer_eq_ok_iff.2
      ⟨entries, Maintainers.ignoresBlanks_read.read_trim.1 hread, rfl⟩
  refine ⟨d, _, hd, General.maintainerForm_behind hinstructions rfl rfl ?_, rfl⟩
  simp only [Instruction.parse, Instruction.readArgument, hargs, Args.maintainers?]

omit hstop in
theorem plain_maintainerLabel : ∀ c ∈ maintainerLabel t, c ≠ '#' ∧ c ≠ '\\' ∧ c ≠ '\n' := by
  have hall : "maintainer=\"".toList.all (fun c => c ≠ '#' ∧ c ≠ '\\' ∧ c ≠ '\n') := by decide
  have hcut : maintainerLabel t = "maintainer=\"".toList ++ (t ++ ['"']) := rfl
  intro c hc
  rw [hcut, List.mem_append, List.mem_append] at hc
  rcases hc with hc | hc | hc
  · simpa using List.all_eq_true.1 hall c hc
  · exact ⟨(ht c hc).2.2.1, (ht c hc).2.1, (ht c hc).2.2.2⟩
  · rw [List.mem_singleton.1 hc]
    decide

omit hstop in
theorem read_maintainerLabel : Args.read .label (maintainerLabel t) =
    .ok (.label (some (Table.ofList [(maintainerKey, t)]))) := by
  refine (Args.read_assignments_eq_ok_iff (.inr rfl)).2 ⟨_, Assignments.read_quoted ?_ ?_ ?_, rfl⟩
  · decide
  · have hall : maintainerKey.all (fun c => isBlank c = false ∧ c ≠ '=' ∧ c ≠ '"') := by decide
    exact fun c hc => by simpa using List.all_eq_true.1 hall c hc
  · exact fun c hc => ⟨(ht c hc).2.1, (ht c hc).2.2.2, (ht c hc).1⟩

/-- A document with a label of the maintainer, and what the rule about it finds. -/
theorem exists_parse_label (hne : t ≠ []) (policy : Policy) :
    ∃ d j, parse ("FROM x\nLABEL maintainer=\"".toList ++ (t ++ '"' :: stop)) = .ok d ∧
      General.labelForm ⟨d, none, policy⟩ = (Text.split ',' t).flatMap (General.missingParts j) ∧
      j.line = 2 := by
  obtain ⟨d, s, hd, hinstructions⟩ :=
    exists_parse_behind (k := .label) (by decide) (plain_maintainerLabel ht) hstop
  have htext : "FROM x\nLABEL maintainer=\"".toList ++ (t ++ '"' :: stop) =
      "FROM x\n".toList ++ (Line.written .label (maintainerLabel t) ++ stop) := by
    have hquote : t ++ '"' :: stop = (t ++ ['"']) ++ stop := by simp
    rw [hquote]
    rfl
  rw [trim_maintainerLabel] at hinstructions
  rw [htext]
  refine ⟨d, _, hd, General.labelForm_behind hinstructions rfl rfl ?_ hne, rfl⟩
  simp only [Instruction.valueOf, Instruction.parse, Instruction.readArgument,
    read_maintainerLabel ht, Args.assignments?, Option.bind_some]
  exact Assignments.valueOf_singleton maintainerKey t

end Document

namespace Report

/-- **The two forms of naming maintainers are judged alike.** Let a text have no double quotes,
backslashes, comment signs and line feeds. If none of its pieces between commas is blank, `MAINTAINER`
accepts it, and the entries are the tokens of the pieces with single spaces between them. A document
with this text behind `MAINTAINER` and one with it in double quotes as a label get the same number of
diagnostics from the rules about the form, all of them on the line of the instruction. If a piece is
blank, `MAINTAINER` does not accept the text. -/
theorem maintainers_alike {t stop : Text}
    (ht : ∀ c ∈ t, c ≠ '"' ∧ c ≠ '\\' ∧ c ≠ '#' ∧ c ≠ '\n') (hstop : stop = [] ∨ stop = ['\n'])
    (policy : Policy) {excluded : List Text} (hlabel : "rule13_0".toList ∉ excluded)
    (hmaintainer : "rule13_1".toList ∉ excluded) :
    ((∀ piece ∈ Text.split ',' t, ∃ c ∈ piece, isBlank c = false) →
      Args.read .maintainer t = .ok (.maintainer (some
        ((Text.split ',' t).map fun piece => Text.join [' '] (Text.tokens piece)))) ∧
      ∃ d e, Document.parse ("FROM x\nMAINTAINER ".toList ++ (t ++ stop)) = .ok d ∧
        Document.parse ("FROM x\nLABEL maintainer=\"".toList ++ (t ++ '"' :: stop)) = .ok e ∧
        let byKeyword := (diagnostics d policy excluded).filter (·.rule = "rule13_1")
        let byLabel := (diagnostics e policy excluded).filter (·.rule = "rule13_0")
        byKeyword.length = byLabel.length ∧ ∀ x ∈ byKeyword ++ byLabel, x.line = some 2) ∧
    ((∃ piece ∈ Text.split ',' t, ∀ c ∈ piece, isBlank c) →
      ∀ args, Args.read .maintainer t ≠ .ok args) := by
  have hquote : '"' ∉ t := fun hc => (ht '"' hc).1 rfl
  constructor
  · intro hpieces
    have hread := Maintainers.read_pieces hquote fun piece hpiece =>
      Text.tokens_ne_nil_iff.2 (hpieces piece hpiece)
    have hne : t ≠ [] := by
      rintro rfl
      obtain ⟨c, hc, -⟩ := hpieces [] (List.mem_singleton_self _)
      cases hc
    obtain ⟨d, i, hd, hfound, hi⟩ := Document.exists_parse_maintainer ht hstop hread policy
    obtain ⟨e, j, he, hfound', hj⟩ := Document.exists_parse_label ht hstop hne policy
    refine ⟨Args.read_maintainer_eq_ok_iff.2 ⟨_, hread, rfl⟩, d, e, hd, he, ?_⟩
    -- both rules find the same, and each makes a diagnostic of its own of a finding
    have hsame := hfound.trans (General.flatMap_missingParts hquote (hi.trans hj.symm))
    have hline : ∀ f ∈ (Text.split ',' t).flatMap (General.missingParts j), f.line = some 2 := by
      intro f hf
      obtain ⟨piece, -, hpart⟩ := List.mem_flatMap.1 hf
      rw [General.line_of_mem_missingParts hpart, hj]
    intro byKeyword byLabel
    have hkeyword : byKeyword = (General.maintainerForm ⟨d, none, policy⟩).map
        General.maintainerFormRule.diagnostic :=
      filter_diagnostics_general (Group.mem_listed "rule13_1" rfl) hmaintainer
    have hlabels : byLabel = (General.labelForm ⟨e, none, policy⟩).map
        General.labelFormRule.diagnostic :=
      filter_diagnostics_general (Group.mem_listed "rule13_0" rfl) hlabel
    rw [hkeyword, hlabels, hsame, hfound', List.length_map, List.length_map]
    refine ⟨rfl, fun x hx => ?_⟩
    rw [List.mem_append, List.mem_map, List.mem_map] at hx
    rcases hx with ⟨f, hf, rfl⟩ | ⟨f, hf, rfl⟩
    · exact hline f hf
    · exact hline f hf
  · rintro ⟨piece, hpiece, hblank⟩ args hargs
    obtain ⟨entries, hread, -⟩ := Args.read_maintainer_eq_ok_iff.1 hargs
    have htokens : Text.tokens piece = [] :=
      Text.tokens_eq_nil_iff.2 (Text.trimLeft_eq_nil_iff.2 hblank)
    exact Maintainers.read_ne_ok hquote ⟨piece, hpiece, htokens⟩ entries hread

/-- An entry without brackets among blanks, and one with a name and an address; then a blank piece. -/
theorem maintainers_alike_blanks :
    Args.read .maintainer "\ta  b ,c <d> ".toList =
        .ok (.maintainer (some ["a b".toList, "c <d>".toList])) ∧
      (∃ d e, Document.parse "FROM x\nMAINTAINER \ta  b ,c <d> \n".toList = .ok d ∧
        Document.parse "FROM x\nLABEL maintainer=\"\ta  b ,c <d> \"\n".toList = .ok e ∧
        ((diagnostics d {} []).filter (·.rule = "rule13_1")).length =
          ((diagnostics e {} []).filter (·.rule = "rule13_0")).length) ∧
      ∀ args, Args.read .maintainer "a, ,b".toList ≠ .ok args := by
  have hplain : "\ta  b ,c <d> ".toList.all
      (fun c => c ≠ '"' ∧ c ≠ '\\' ∧ c ≠ '#' ∧ c ≠ '\n') := by decide
  have hplain' : "a, ,b".toList.all (fun c => c ≠ '"' ∧ c ≠ '\\' ∧ c ≠ '#' ∧ c ≠ '\n') := by decide
  have hpieces : (Text.split ',' "\ta  b ,c <d> ".toList).all (·.any (!isBlank ·)) := by decide
  have hstop : ['\n'] = [] ∨ ['\n'] = ['\n'] := .inr rfl
  obtain ⟨hread, d, e, hd, he, hlength, -⟩ := (maintainers_alike
    (fun c hc => by simpa using List.all_eq_true.1 hplain c hc) hstop {} List.not_mem_nil
    List.not_mem_nil).1 fun piece hpiece => by simpa using List.all_eq_true.1 hpieces piece hpiece
  refine ⟨hread, ⟨d, e, hd, he, hlength⟩, ?_⟩
  apply (maintainers_alike (fun c hc => by simpa using List.all_eq_true.1 hplain' c hc)
    (.inl rfl) {} List.not_mem_nil List.not_mem_nil).2
  exact ⟨" ".toList, by decide, List.forall_mem_singleton.2 rfl⟩

end Report

end Dockerlint
