import Dockerlint.Args
import Dockerlint.Proofs.Operand.Blanks

/-!
# The ports of an argument

The argument of `EXPOSE` is a list of ports with blanks between them. A port is described here by its
parts: a number, perhaps a hyphen and a second number, perhaps a slash and the letters of a protocol.
The reader takes words, and a quoted word can reach over blanks. But no port begins with a quote, so
the words that are accepted are the tokens of the argument. The first token that is no port stops the
reader where that token begins, also when it opens a quoted word or one that is never closed.

## Main definitions

* `Ports.Range`, `Ports.Port`: the parts of a port
* `Ports.StopsAt`: how far the tokens of an argument are ports

## Main results

* `Ports.isPort_iff`: the ports are found by their parts
* `Ports.read_of_forall`, `Ports.exists_stopsAt`: the ports of an argument, and where it stops
* `Args.read_expose`: the arguments of `EXPOSE`
-/

namespace Dockerlint

/-- What a text is cut into, where the part behind the separator may be missing. -/
theorem Text.cut_match_iff {sep : Char} {p q : Text → Bool} (hp : ∀ s, p s → sep ∉ s) {t : Text} :
    (match cut sep t with
      | some (before, behind) => p before && q behind
      | none => p t) = true ↔
    ∃ (before : Text) (behind : Option Text), p before ∧ (∀ s ∈ behind, q s) ∧
      before ++ behind.elim [] (sep :: ·) = t := by
  constructor
  · intro h
    split at h
    · next before behind hcut =>
      obtain ⟨hbefore, hbehind⟩ := Bool.and_eq_true_iff.1 h
      refine ⟨before, some behind, hbefore, ?_, (cut_eq_some hcut).1.symm⟩
      rintro s ⟨⟩
      exact hbehind
    · exact ⟨t, none, h, nofun, List.append_nil t⟩
  · rintro ⟨before, behind, hbefore, hbehind, rfl⟩
    have hsep := hp before hbefore
    cases behind with
    | none =>
      show (match cut sep (before ++ []) with
        | some (before, behind) => p before && q behind
        | none => p (before ++ [])) = true
      rw [List.append_nil, cut_eq_none hsep]
      exact hbefore
    | some s =>
      show (match cut sep (before ++ sep :: s) with
        | some (before, behind) => p before && q behind
        | none => p (before ++ sep :: s)) = true
      rw [cut_eq_some_iff.2 ⟨rfl, hsep⟩]
      exact Bool.and_eq_true_iff.2 ⟨hbefore, hbehind s rfl⟩

namespace Ports

/-! ## The parts of a port -/

/-- A number: ASCII digits, at least one. -/
def IsNumber (t : Text) : Prop := t ≠ [] ∧ ∀ c ∈ t, c.isDigit

/-- The name of a protocol: ASCII letters, at least one. -/
def IsProtocol (t : Text) : Prop := t ≠ [] ∧ ∀ c ∈ t, c.isAlpha

/-- A number, or a range from a number to a second one. -/
structure Range where
  low : Text
  high : Option Text
  isNumber_low : IsNumber low
  isNumber_high : ∀ t ∈ high, IsNumber t

/-- A range as it is written. -/
def Range.text (r : Range) : Text := r.low ++ r.high.elim [] ('-' :: ·)

/-- A number or a range, with an optional protocol. -/
structure Port where
  range : Range
  protocol : Option Text
  isProtocol_protocol : ∀ t ∈ protocol, IsProtocol t

/-- A port as it is written. -/
def Port.text (p : Port) : Text := p.range.text ++ p.protocol.elim [] ('/' :: ·)

/-- The texts that are ports. -/
def IsPort (w : Text) : Prop := ∃ p : Port, p.text = w

theorem isNumber_iff {t : Text} : isNumber t ↔ IsNumber t := by
  simp [isNumber, IsNumber]

theorem isProtocol_iff {t : Text} : isProtocol t ↔ IsProtocol t := by
  simp [isProtocol, IsProtocol]

theorem IsNumber.notMem {t : Text} (h : IsNumber t) {c : Char} (hc : c.isDigit = false) : c ∉ t := by
  intro hmem
  rw [h.2 c hmem] at hc
  cases hc

theorem isRange_iff {t : Text} : isRange t ↔ ∃ r : Range, r.text = t := by
  have hhyphen : ∀ s, isNumber s → '-' ∉ s := fun s hs => (isNumber_iff.1 hs).notMem rfl
  refine (Text.cut_match_iff hhyphen).trans ⟨?_, ?_⟩
  · rintro ⟨low, high, hlow, hhigh, htext⟩
    exact ⟨⟨low, high, isNumber_iff.1 hlow, fun s hs => isNumber_iff.1 (hhigh s hs)⟩, htext⟩
  · rintro ⟨r, htext⟩
    exact ⟨r.low, r.high, isNumber_iff.2 r.isNumber_low,
      fun s hs => isNumber_iff.2 (r.isNumber_high s hs), htext⟩

/-- A range has no characters but its digits and its hyphen. -/
theorem Range.notMem_text (r : Range) {c : Char} (hc : c.isDigit = false) (hhyphen : c ≠ '-') :
    c ∉ r.text := by
  rw [text, List.mem_append, not_or]
  refine ⟨r.isNumber_low.notMem hc, ?_⟩
  cases hhigh : r.high with
  | none => exact List.not_mem_nil
  | some high =>
    have hdigits := (r.isNumber_high high hhigh).notMem hc
    exact List.not_mem_cons_of_ne_of_not_mem hhyphen hdigits

/-- **The ports are found by their parts**: the first slash ends the range, and in it the first hyphen
ends the first number. -/
theorem isPort_iff {w : Text} : isPort w ↔ IsPort w := by
  have hslash : ∀ s, isRange s → '/' ∉ s := by
    intro s hs
    obtain ⟨r, rfl⟩ := isRange_iff.1 hs
    exact r.notMem_text rfl (by decide)
  refine (Text.cut_match_iff hslash).trans ⟨?_, ?_⟩
  · rintro ⟨range, protocol, hrange, hprotocol, htext⟩
    obtain ⟨r, rfl⟩ := isRange_iff.1 hrange
    exact ⟨⟨r, protocol, fun s hs => isProtocol_iff.1 (hprotocol s hs)⟩, htext⟩
  · rintro ⟨p, htext⟩
    exact ⟨p.range.text, p.protocol, isRange_iff.2 ⟨p.range, rfl⟩,
      fun s hs => isProtocol_iff.2 (p.isProtocol_protocol s hs), htext⟩

/-- A port begins with a digit. -/
theorem IsPort.head?_ne_quote {w : Text} (h : IsPort w) : w.head? ≠ some '"' := by
  obtain ⟨p, rfl⟩ := h
  obtain ⟨hne, hdigits⟩ := p.range.isNumber_low
  obtain ⟨c, low, hlow⟩ := List.exists_cons_of_ne_nil hne
  have hhead : p.text.head? = some c := by
    rw [Port.text, Range.text, hlow]
    rfl
  rw [hhead]
  rintro ⟨⟩
  have hdigit := hdigits '"' (by rw [hlow]; exact List.mem_cons_self ..)
  revert hdigit
  decide

/-! ## Reading the tokens -/

section Token

variable {t w rest : Text}

/-- A port that is read as a word is a token. -/
theorem written_of_isPort (hw : Text.IsToken w) (hrest : Text.EndsToken rest) {v : Word}
    {left : Text} (hread : Word.read [] (w ++ rest) = some (v, left)) (hport : IsPort v.written) :
    v.written = w := by
  by_cases hhead : w.head? = some '"'
  · -- a word that begins with a quote is a quoted one
    obtain ⟨u, rfl⟩ := List.head?_eq_some_iff.1 hhead
    obtain ⟨inner, rfl, -⟩ := Word.read_quote_eq_some_iff.1 hread
    exact absurd rfl hport.head?_ne_quote
  · rw [Word.read_of_isBare (Word.isBare_of_isToken hw hhead) hrest] at hread
    obtain ⟨rfl, -⟩ := Prod.mk.inj (Option.some.inj hread)
    rfl

variable (hcut : Text.trimLeft t = w ++ rest) (hw : Text.IsToken w) (hrest : Text.EndsToken rest)

include hcut hw hrest

/-- A token that is a port is read, and then the text behind it. -/
theorem read_of_isPort (hport : IsPort w) : read t =
    if Text.trimLeft rest = [] then .ok [w] else (read rest).map (w :: ·) := by
  have hread := Word.read_of_isBare (Word.isBare_of_isToken hw hport.head?_ne_quote) hrest
  rw [read_eq, hcut, hread]
  exact if_pos (isPort_iff.2 hport)

/-- At a token that is no port the reader stops. -/
theorem exists_error_of_not_isPort (hport : ¬ IsPort w) :
    ∃ what, read t = .error (.expected what (w ++ rest)) := by
  rw [read_eq, hcut]
  split
  · exact ⟨_, rfl⟩
  · next v left hread =>
    have hnot : isPort v.written = false := by
      rw [← Bool.not_eq_true, isPort_iff]
      intro hv
      exact hport (written_of_isPort hw hrest hread hv ▸ hv)
    rw [hnot]
    exact ⟨_, rfl⟩

end Token

/-- **An argument whose tokens are ports** is read as its tokens. -/
theorem read_of_forall {t : Text} (hne : Text.tokens t ≠ []) (hall : ∀ w ∈ Text.tokens t, IsPort w) :
    read t = .ok (Text.tokens t) := by
  induction t using Text.tokens_induction with
  | blank t _ htokens => exact absurd htokens hne
  | token t w rest hcut hw hrest htokens ih =>
    rw [htokens] at hall ⊢
    obtain ⟨hport, hothers⟩ := List.forall_mem_cons.1 hall
    rw [read_of_isPort hcut hw hrest hport]
    by_cases hlast : Text.trimLeft rest = []
    · rw [if_pos hlast, Text.tokens_eq_nil_iff.2 hlast]
    · rw [if_neg hlast, ih (fun hnil => hlast (Text.tokens_eq_nil_iff.1 hnil)) hothers]
      rfl

/-- What stands before the first token that is no port, or the whole of an argument without tokens. -/
inductive StopsAt (t : Text) : Text → Prop where
  | atEnd (h : Text.tokens t = []) : StopsAt t t
  | atToken {before w behind : Text} (hat : Text.TokenAt t before w behind)
      (hbefore : ∀ v ∈ Text.tokens before, IsPort v) (hw : ¬ IsPort w) : StopsAt t before

/-- **Any other argument stops the reader** at its first token that is no port, or at its end. -/
theorem exists_stopsAt {t : Text} (h : ¬ (Text.tokens t ≠ [] ∧ ∀ w ∈ Text.tokens t, IsPort w)) :
    ∃ before behind what, t = before ++ behind ∧ StopsAt t before ∧
      read t = .error (.expected what behind) := by
  -- the reader takes the ports in front one by one
  induction t using Text.tokens_induction with
  | blank t hblank htokens =>
    refine ⟨t, [], .word [], (List.append_nil t).symm, .atEnd htokens, ?_⟩
    rw [read_eq, hblank]
    rfl
  | token t w rest hcut hw hrest htokens ih =>
    by_cases hport : IsPort w
    · have hothers : Text.tokens rest ≠ [] ∧ ¬ ∀ v ∈ Text.tokens rest, IsPort v := by
        rw [htokens, List.forall_mem_cons] at h
        constructor
        · intro hnil
          rw [hnil] at h
          exact h ⟨List.cons_ne_nil w [], hport, List.forall_mem_nil _⟩
        · exact fun hall => h ⟨List.cons_ne_nil w _, hport, hall⟩
      obtain ⟨hne, hnot⟩ := hothers
      obtain ⟨before, behind, what, htext, hstops, hread⟩ := ih fun hboth => hnot hboth.2
      have hmore : ¬ Text.trimLeft rest = [] := fun hnil => hne (Text.tokens_eq_nil_iff.2 hnil)
      refine ⟨t.takeWhile isBlank ++ (w ++ before), behind, what, ?_, ?_, ?_⟩
      · rw [List.append_assoc, List.append_assoc, ← htext]
        exact Text.takeWhile_append_token hcut
      · cases hstops with
        | atEnd hnil => exact absurd hnil hne
        | atToken hat hbefore hv =>
          obtain ⟨hat', hfirst⟩ := hat.behind_first hcut hw hrest
          refine .atToken hat' ?_ hv
          rw [hfirst]
          exact List.forall_mem_cons.2 ⟨hport, hbefore⟩
      · rw [read_of_isPort hcut hw hrest hport, if_neg hmore, hread]
        rfl
    · obtain ⟨what, hread⟩ := exists_error_of_not_isPort hcut hw hrest hport
      refine ⟨t.takeWhile isBlank, w ++ rest, what, Text.takeWhile_append_token hcut, ?_, hread⟩
      refine .atToken (Text.tokenAt_first hcut hw hrest) ?_ hport
      rw [Text.tokens_takeWhile_isBlank]
      exact List.forall_mem_nil _

end Ports

namespace Args

theorem read_ports (argument : Text) :
    Args.read .expose argument = (Ports.read argument).map fun ports => .expose (some ports) :=
  read_eq_map rfl .ports rfl

/-- **The arguments of `EXPOSE`.** An argument fits exactly if it has a token and all its tokens are
ports, and then the ports are its tokens in order. Any other argument has its mismatch in the column
where its first token that is no port begins, or behind its last character if it has no token. -/
theorem read_expose (argument : Text) :
    (∀ args, Args.read .expose argument = .ok args ↔ Text.tokens argument ≠ [] ∧
      (∀ w ∈ Text.tokens argument, ∃ p : Ports.Port, p.text = w) ∧
      args = .expose (some (Text.tokens argument))) ∧
    (∀ m, Args.read .expose argument = .error m →
      ∃ before, Ports.StopsAt argument before ∧ m.column argument = some (before.length + 1)) := by
  by_cases hall : Text.tokens argument ≠ [] ∧ ∀ w ∈ Text.tokens argument, Ports.IsPort w
  · have hread : Args.read .expose argument = .ok (.expose (some (Text.tokens argument))) := by
      rw [read_ports, Ports.read_of_forall hall.1 hall.2]
      rfl
    refine ⟨fun args => ?_, fun m hm => ?_⟩
    · rw [hread]
      constructor
      · intro hargs
        exact ⟨hall.1, hall.2, (Except.ok.inj hargs).symm⟩
      · rintro ⟨-, -, rfl⟩
        rfl
    · rw [hread] at hm
      cases hm
  · obtain ⟨before, behind, what, htext, hstops, hports⟩ := Ports.exists_stopsAt hall
    have hread : Args.read .expose argument = .error (.expected what behind) := by
      rw [read_ports, hports]
      rfl
    refine ⟨fun args => ?_, fun m hm => ⟨before, hstops, ?_⟩⟩
    · rw [hread]
      exact iff_of_false nofun fun h => hall ⟨h.1, h.2.1⟩
    · rw [hread] at hm
      obtain rfl := Except.error.inj hm
      show some (argument.length - behind.length + 1) = some (before.length + 1)
      rw [htext, List.length_append, Nat.add_sub_cancel]

/-- Ports with every part, and a quoted word behind a port: it is one word, but its first token stops
the reader. -/
theorem read_expose_quoted :
    Args.read .expose "8000-8010/udp \t7".toList =
        .ok (.expose (some ["8000-8010/udp".toList, "7".toList])) ∧
      ∃ before, Ports.StopsAt "80 \"9 9\" 7".toList before ∧ before.length = 3 := by
  have htokens : Text.tokens "8000-8010/udp \t7".toList = ["8000-8010/udp".toList, "7".toList] := by
    decide
  have hports : ∀ w ∈ ["8000-8010/udp".toList, "7".toList], Ports.isPort w := by decide
  obtain ⟨haccepts, -⟩ := read_expose "8000-8010/udp \t7".toList
  rw [htokens] at haccepts
  have hread : Args.read .expose "80 \"9 9\" 7".toList =
      .error (.expected .port "\"9 9\" 7".toList) := by
    cbv
  obtain ⟨before, hstops, hcolumn⟩ := (read_expose "80 \"9 9\" 7".toList).2 _ hread
  refine ⟨(haccepts _).2 ⟨List.cons_ne_nil _ _, fun w hw => Ports.isPort_iff.1 (hports w hw), rfl⟩,
    before, hstops, ?_⟩
  exact (Nat.succ.inj (Option.some.inj hcolumn)).symm

end Args

end Dockerlint
