import Mathlib
import Dockerlint.Proofs.Document.Lines
import Dockerlint.Proofs.Lint.Findings
import Dockerlint.Proofs.Operand.Array
import Dockerlint.Proofs.Word

/-!
# Arrays and their quotes

Four readers look for arrays: the grammar of commands, the question how a command is quoted, the
array of a transfer, which must be in double quotes, and the transfer itself. They share one
language. What stands between the brackets of an array is described here without a reader, and a
reader that allows certain quotes finds exactly the arrays of this language whose elements have such
quotes. So a text has a quoting exactly if it opens a bracket and is a command; a transfer accepts
what is all in double quotes and long enough; and the rule about quotes, which asks for the quoting
alone, speaks only about instructions that fit their grammar.

## Main definitions

* `Reader.Holds`: a text holds the elements of an array, up to the bracket that closes it

## Main results

* `Reader.elements_eq_ok_iff`, `Reader.array_eq_ok_iff`: the quotes that are allowed choose among
  the arrays of one language
* `Command.quoting_ne_notArray_iff`: a quoting belongs to a command in brackets
* `Transfer.read_of_double`: a command in double quotes is a transfer
* `Command.quoting_agrees`: the readers of arrays agree
-/

namespace Dockerlint

/-! ## The language of arrays -/

namespace Reader

/-- A text behind an opening bracket or a comma holds elements up to the bracket that closes the
array, with another text behind it. -/
inductive Holds : Text → List Element → Text → Prop where
  | last {t inner behind rest : Text} {q : Quote}
      (hread : Quoted.read q (Text.trimLeft t) = some (inner, behind))
      (hclose : Text.trimLeft behind = ']' :: rest) :
      Holds t [⟨q, Quoted.unescape inner⟩] rest
  | more {t inner behind next rest : Text} {q : Quote} {es : List Element}
      (hread : Quoted.read q (Text.trimLeft t) = some (inner, behind))
      (hcomma : Text.trimLeft behind = ',' :: next) (hnext : Holds next es rest) :
      Holds t (⟨q, Quoted.unescape inner⟩ :: es) rest

section Quotes

variable {quotes : ElementQuotes} {q : Quote} {t : Text}

theorem allows_of_elementQuote (h : elementQuote quotes t = some q) : quotes.Allows q := by
  cases t with
  | nil => cases h
  | cons c t =>
    rw [elementQuote] at h
    split at h
    · exact .inr (Option.some.inj h).symm
    · split at h
      · next hsingle => exact .inl hsingle.2
      · cases h

/-- The quote that an element begins with is known from its first character. -/
theorem elementQuote_of_read {found : Text × Text} (hallows : quotes.Allows q)
    (hread : Quoted.read q t = some found) : elementQuote quotes t = some q := by
  rw [Quoted.read_eq_some hread]
  cases q with
  | double => rfl
  | single =>
    obtain rfl : quotes = .any := hallows.resolve_right nofun
    rfl

end Quotes

/-- **The quotes that are allowed choose among the arrays of one language.** -/
theorem elements_eq_ok_iff {quotes : ElementQuotes} {t rest : Text} {es : List Element} :
    elements quotes t = .ok (es, rest) ↔ Holds t es rest ∧ ∀ e ∈ es, quotes.Allows e.quote := by
  constructor
  · intro h
    -- the induction follows the reader from comma to comma
    induction hlength : t.length using Nat.strongRecOn generalizing t es with
    | ind n ih =>
      subst hlength
      rw [elements_eq] at h
      split at h
      · cases h
      · next q hq =>
        have hallows := allows_of_elementQuote hq
        split at h
        · cases h
        · next inner behind hread =>
          split at h
          · next next hcomma =>
            obtain ⟨⟨more, left⟩, hmore, hpair⟩ := exists_of_map_eq_ok h
            obtain ⟨rfl, rfl⟩ := Prod.mk.inj hpair
            have hlt : next.length < t.length := by
              have hbehind := Quoted.read_length_lt hread
              have hstart := Text.trimLeft_length_le t
              have hend := Text.trimLeft_length_le behind
              rw [hcomma, List.length_cons] at hend
              omega
            obtain ⟨hholds, hall⟩ := ih _ hlt hmore rfl
            exact ⟨.more hread hcomma hholds, List.forall_mem_cons.2 ⟨hallows, hall⟩⟩
          · next close hclose =>
            obtain ⟨rfl, rfl⟩ := Prod.mk.inj (Except.ok.inj h)
            exact ⟨.last hread hclose, by simpa using hallows⟩
          · cases h
  · rintro ⟨hholds, hall⟩
    induction hholds with
    | last hread hclose =>
      rw [elements_eq, elementQuote_of_read (hall _ (List.mem_cons_self ..)) hread]
      simp only [hread, hclose]
    | more hread hcomma _ ih =>
      obtain ⟨hfirst, hothers⟩ := List.forall_mem_cons.1 hall
      rw [elements_eq, elementQuote_of_read hfirst hread]
      simp only [hread, hcomma, ih hothers]
      rfl

/-- An array is an opening bracket and the elements behind it. -/
theorem array_eq_ok_iff {quotes : ElementQuotes} {t rest : Text} {es : List Element} :
    array quotes t = .ok (es, rest) ↔
      ∃ inside, t = '[' :: inside ∧ Holds inside es rest ∧ ∀ e ∈ es, quotes.Allows e.quote := by
  constructor
  · intro h
    cases t with
    | nil => cases h
    | cons c inside =>
      rw [array] at h
      split at h
      · next hc => exact ⟨inside, by rw [hc], elements_eq_ok_iff.1 h⟩
      · cases h
  · rintro ⟨inside, rfl, h⟩
    rw [array_eq]
    exact elements_eq_ok_iff.2 h

/-- The arrays in double quotes are those of any quotes whose elements all have double quotes. -/
theorem array_doubleOnly_iff {t rest : Text} {es : List Element} :
    array .doubleOnly t = .ok (es, rest) ↔
      array .any t = .ok (es, rest) ∧ ∀ e ∈ es, e.quote = .double := by
  have hany : ∀ e ∈ es, ElementQuotes.any.Allows e.quote := fun e _ => .inl rfl
  have hdouble : ∀ e : Element, ElementQuotes.doubleOnly.Allows e.quote ↔ e.quote = .double :=
    fun e => or_iff_right nofun
  rw [array_eq_ok_iff, array_eq_ok_iff]
  simp only [hdouble]
  constructor
  · rintro ⟨inside, rfl, hholds, hall⟩
    exact ⟨⟨inside, rfl, hholds, hany⟩, hall⟩
  · rintro ⟨⟨inside, rfl, hholds, -⟩, hall⟩
    exact ⟨inside, rfl, hholds, hall⟩

end Reader

/-! ## Commands in brackets -/

namespace Command

variable {t : Text}

theorem readArray_eq_ok_iff {es : List Element} : readArray t = .ok es ↔
    ∃ rest, Reader.array .any (Text.trimLeft t) = .ok (es, rest) ∧ Text.trimLeft rest = [] := by
  rw [readArray]
  cases harray : Reader.array .any (Text.trimLeft t) with
  | error m => simp
  | ok found =>
    obtain ⟨fs, rest⟩ := found
    simp only [Reader.finish_eq_ok_iff]
    constructor
    · rintro ⟨rfl, hrest⟩
      exact ⟨rest, rfl, hrest⟩
    · rintro ⟨left, hok, hrest⟩
      obtain ⟨rfl, rfl⟩ := Prod.mk.inj (Except.ok.inj hok)
      exact ⟨rfl, hrest⟩

theorem head?_of_readArray {es : List Element} (h : readArray t = .ok es) :
    (Text.trimLeft t).head? = some '[' := by
  obtain ⟨rest, harray, -⟩ := readArray_eq_ok_iff.1 h
  obtain ⟨inside, hstart, -⟩ := Reader.array_eq_ok_iff.1 harray
  rw [hstart]
  rfl

/-- Behind an opening bracket a command is an array, and its arguments are the values. -/
theorem read_of_bracket (h : (Text.trimLeft t).head? = some '[') :
    read t = (readArray t).map fun es => es.map (·.value) := by
  rw [read, readArray]
  simp only [if_pos h]
  cases Reader.array .any (Text.trimLeft t) with
  | error m => rfl
  | ok found =>
    simp only [Reader.finish]
    cases Text.trimLeft found.2 with
    | nil => rfl
    | cons c rest => rfl

/-- Any other text is a command with one argument. -/
theorem read_of_not_bracket (h : (Text.trimLeft t).head? ≠ some '[') :
    read t = .ok [Text.trim t] := by
  rw [read]
  exact if_neg h

/-- How the elements of an array are quoted, where there is one. -/
theorem quoting_of_readArray {es : List Element} (h : readArray t = .ok es) :
    quoting t = if ∀ e ∈ es, e.quote = .double then .double else .single := by
  rw [quoting, h]
  simp

theorem exists_readArray_of_quoting (h : quoting t ≠ .notArray) : ∃ es, readArray t = .ok es := by
  cases hread : readArray t with
  | error m =>
    refine absurd ?_ h
    rw [quoting, hread]
  | ok es => exact ⟨es, rfl⟩

/-- **A quoting belongs to a command in brackets.** -/
theorem quoting_ne_notArray_iff : quoting t ≠ .notArray ↔
    (Text.trimLeft t).head? = some '[' ∧ ∃ arguments, read t = .ok arguments := by
  constructor
  · intro h
    obtain ⟨es, hes⟩ := exists_readArray_of_quoting h
    have hbracket := head?_of_readArray hes
    refine ⟨hbracket, es.map (·.value), ?_⟩
    rw [read_of_bracket hbracket, hes]
    rfl
  · rintro ⟨hbracket, arguments, hread⟩
    rw [read_of_bracket hbracket] at hread
    obtain ⟨es, hes, -⟩ := exists_of_map_eq_ok hread
    rw [quoting_of_readArray hes]
    split
    · exact nofun
    · exact nofun

end Command

/-- **A command in double quotes is a transfer** if it has a source and a destination. -/
theorem Transfer.read_of_double {t : Text} {es : List Element} (h : Command.readArray t = .ok es)
    (hdouble : ∀ e ∈ es, e.quote = .double) (htwo : 2 ≤ es.length) :
    ∃ parts, Transfer.read t = .ok parts ∧
      parts.sources ++ [parts.destination] = es.map (·.value) ∧
      parts.owner = none ∧ parts.origin = none := by
  obtain ⟨rest, harray, hrest⟩ := Command.readArray_eq_ok_iff.1 h
  obtain ⟨inside, hstart, -⟩ := Reader.array_eq_ok_iff.1 harray
  obtain ⟨sources, destination, hne, hcut⟩ :=
    exists_concat_of_two_le (l := es.map (·.value)) (by rwa [List.length_map])
  -- a bracket is no flag, so the paths begin at the bracket
  have hflags : Flag.readAll flags t = ([], t) := by
    refine readAll_of_not_dashes ?_
    rw [hstart]
    rintro ⟨left, hleft⟩
    cases hleft
  have hparts : readArray (Text.trimLeft t) = .ok (sources, destination) := by
    rw [readArray, Reader.array_doubleOnly_iff.2 ⟨harray, hdouble⟩]
    simp only [hcut, divide_concat hne]
    exact Reader.finish_eq_ok_iff.2 ⟨rfl, hrest⟩
  refine ⟨⟨none, none, sources, destination⟩, ?_, hcut.symm, rfl, rfl⟩
  rw [Transfer.read, hflags, readParts, hparts]
  rfl

/-! ## The rule about quotes -/

section Rule

variable {d : Document} {policy : Policy} {x : Diagnostic}

/-- A rule about quotes speaks about instructions with some element in single quotes. -/
theorem General.exists_of_inDouble {r : Rule} {k : Keyword} (hcheck : r.check = inDouble k)
    (hx : x ∈ r.reports (Scope.document.contexts d policy)) :
    ∃ i ∈ d.instructions, i.keyword = k ∧ i.quoting = .single ∧ x.line = some i.line := by
  rw [r.reports_document, hcheck] at hx
  obtain ⟨f, hf, rfl⟩ := List.mem_map.1 hx
  obtain ⟨i, hi, rfl⟩ := List.mem_map.1 hf
  obtain ⟨hmem, hquoting⟩ := List.mem_filter.1 hi
  obtain ⟨hselect, hkeyword⟩ := Document.mem_ofKeyword_iff.1 hmem
  refine ⟨i, Document.mem_select_none.1 hselect, hkeyword, ?_, rfl⟩
  exact beq_iff_eq.1 hquoting

/-- The names of the rules about quotes. -/
def General.quoteRules : List String := ["rule12_1", "rule12_2", "rule12_3"]

theorem General.exists_quoteRule {name : String} (h : name ∈ quoteRules) :
    ∃ r ∈ Group.general.listed, r.name = name ∧
      ∃ k, k.form? = some .command ∧ r.check = inDouble k := by
  simp only [quoteRules, List.mem_cons, List.not_mem_nil, or_false] at h
  rcases h with rfl | rfl | rfl
  · exact ⟨_, Group.mem_listed "rule12_1" rfl, rfl, .cmd, rfl, rfl⟩
  · exact ⟨_, Group.mem_listed "rule12_2" rfl, rfl, .entrypoint, rfl, rfl⟩
  · exact ⟨_, Group.mem_listed "rule12_3" rfl, rfl, .volume, rfl, rfl⟩

end Rule

theorem Args.read_command {k : Keyword} (hk : k.form? = some .command) (argument : Text) :
    Args.read k argument =
      (Command.read argument).map fun arguments => .ofOperand k (.command arguments) :=
  Args.read_eq_map hk _ rfl

theorem Args.exists_read_command_iff {k : Keyword} (hk : k.form? = some .command)
    {argument : Text} : (∃ args, Args.read k argument = .ok args) ↔
      ∃ arguments, Command.read argument = .ok arguments := by
  rw [Args.read_command hk]
  cases Command.read argument with
  | error m => simp [Except.map]
  | ok arguments => simp [Except.map]

/-- **An instruction about whose quotes something is reported fits its grammar.** -/
theorem Report.exists_of_quoteRule {content : Text} {d : Document}
    (h : Document.parse content = .ok d) {policy : Policy} {excluded : List Text} {x : Diagnostic}
    (hx : x ∈ diagnostics d policy excluded) (hname : x.rule ∈ General.quoteRules) :
    ∃ i ∈ d.instructions, x.line = some i.line ∧ i.quoting = .single ∧ i.syntaxErrors = [] := by
  obtain ⟨r, hr, hrule, k, hform, hcheck⟩ := General.exists_quoteRule hname
  obtain ⟨i, hi, rfl, hquoting, hline⟩ :=
    General.exists_of_inDouble hcheck (mem_reports_of_name hr hx hrule.symm)
  refine ⟨i, hi, hline, hquoting, ?_⟩
  -- its argument has a quoting, so it is a command
  have hread : ∃ arguments, Command.read i.argument = .ok arguments := by
    refine (Command.quoting_ne_notArray_iff.1 ?_).2
    rw [← Instruction.quoting, hquoting]
    intro h
    cases h
  obtain ⟨args, hargs⟩ := (Args.exists_read_command_iff hform).2 hread
  exact List.isEmpty_iff.1 ((Document.parsed_of_mem h i hi).read_eq_iff.1 hargs).2

/-! ## Agreement -/

namespace Command

/-- **The readers of arrays agree.** Behind `CMD`, `ENTRYPOINT`, `RUN`, `SHELL` and `VOLUME`, a text
has a quoting exactly if its first character that is not blank opens a bracket and it fits the
grammar; a text that opens no bracket always fits, and is the one argument, without outer blanks. So
an instruction about whose quotes something is reported has no syntax errors, and it is the only one
on its line. An array is read in double quotes exactly if it is read in any quotes and all its
elements have double quotes, with the same elements and the same text behind it. And the arguments of
a command in double quotes, two or more, are the sources and the destination of a transfer. -/
theorem quoting_agrees (a : Text) :
    (∀ k ∈ [Keyword.cmd, .entrypoint, .run, .shell, .volume],
      (quoting a ≠ .notArray ↔
        (Text.trimLeft a).head? = some '[' ∧ ∃ args, Args.read k a = .ok args) ∧
      ((Text.trimLeft a).head? ≠ some '[' →
        Args.read k a = .ok (.ofOperand k (.command [Text.trim a])))) ∧
    (∀ content d policy excluded, Document.parse content = .ok d →
      ∀ x ∈ Report.diagnostics d policy excluded, x.rule ∈ ["rule12_1", "rule12_2", "rule12_3"] →
        ∃ i ∈ d.instructions, x.line = some i.line ∧ i.quoting = .single ∧ i.syntaxErrors = [] ∧
          ∀ j ∈ d.instructions, x.line = some j.line → j = i) ∧
    (∀ es rest, Reader.array .doubleOnly a = .ok (es, rest) ↔
      Reader.array .any a = .ok (es, rest) ∧ ∀ e ∈ es, e.quote = .double) ∧
    ((Text.trimLeft a).head? = some '[' → quoting a = .double →
      ∃ arguments, Args.read .cmd a = .ok (.cmd (some arguments)) ∧
        (2 ≤ arguments.length → ∀ k ∈ [Keyword.add, .copy],
          ∃ parts : Transfer, Args.read k a = .ok (.ofOperand k (.transfer parts)) ∧
            parts.sources ++ [parts.destination] = arguments ∧
            parts.owner = none ∧ parts.origin = none)) := by
  refine ⟨?_, ?_, fun es rest => Reader.array_doubleOnly_iff, ?_⟩
  · intro k hk
    have hform : k.form? = some .command := by
      revert hk
      cases k <;> decide
    constructor
    · rw [Args.exists_read_command_iff hform]
      exact quoting_ne_notArray_iff
    · intro hbracket
      rw [Args.read_command hform, read_of_not_bracket hbracket]
      rfl
  · intro content d policy excluded hparse x hx hname
    obtain ⟨i, hi, hline, hquoting, herrors⟩ := Report.exists_of_quoteRule hparse hx hname
    refine ⟨i, hi, hline, hquoting, herrors, fun j hj hjline => ?_⟩
    exact Document.eq_of_line_eq hparse hj hi (Option.some.inj (hjline.symm.trans hline))
  · intro hbracket hdouble
    obtain ⟨es, hes⟩ := exists_readArray_of_quoting (t := a) (by rw [hdouble]; exact nofun)
    have hall : ∀ e ∈ es, e.quote = .double := by
      by_contra hsingle
      rw [quoting_of_readArray hes, if_neg hsingle] at hdouble
      cases hdouble
    refine ⟨es.map (·.value), ?_, ?_⟩
    · rw [Args.read_command rfl, read_of_bracket hbracket, hes]
      rfl
    · intro htwo k hk
      rw [List.length_map] at htwo
      obtain ⟨parts, hparts, hsame⟩ := Transfer.read_of_double hes hall htwo
      have hform : k.form? = some .transfer := by
        revert hk
        cases k <;> decide
      refine ⟨parts, ?_, hsame⟩
      rw [Args.read_eq_of_form hform, Form.read, hparts]
      rfl

/-- Blanks around the elements of an array, an escaped quote, and single quotes inside double ones. -/
theorem quoting_agrees_escaped :
    quoting " [\"a\\\"\",\t\"'b'\" ] ".toList = .double ∧
      ∃ parts : Transfer,
        Args.read .copy " [\"a\\\"\",\t\"'b'\" ] ".toList = .ok (.copy parts.toArgs) ∧
        parts.sources ++ [parts.destination] = ["a\"".toList, "'b'".toList] := by
  have hquoting : quoting " [\"a\\\"\",\t\"'b'\" ] ".toList = .double := by cbv
  have hcommand : Args.read .cmd " [\"a\\\"\",\t\"'b'\" ] ".toList =
      .ok (.cmd (some ["a\"".toList, "'b'".toList])) := by cbv
  obtain ⟨-, -, -, htransfer⟩ := quoting_agrees " [\"a\\\"\",\t\"'b'\" ] ".toList
  obtain ⟨arguments, hread, hparts⟩ := htransfer (by decide) hquoting
  rw [hcommand] at hread
  cases hread
  obtain ⟨parts, hcopy, hsame, -⟩ := hparts (by decide) .copy (by decide)
  exact ⟨hquoting, parts, hcopy, hsame⟩

end Command

end Dockerlint
