import Mathlib
import Dockerlint.Proofs.Lint.Placement

/-!
# Operators inside a line

One rule asks for operators to stand at the beginning of a line. It looks, for each operator, at the
first place where it occurs in the trimmed line, and objects if that is not the beginning. So it finds
an operator that does not lead the line, unless the same operator leads the line as well and the
other one does not occur: then the first place of the one is the beginning, and all further places of it
are passed over.

## Main definitions

* `Line.IsComment`: the lines whose first character that is not blank opens a comment
* `General.behindLead`: a text without the operator that leads it
* `General.Misplaces`: the lines with an operator that does not lead them
* `General.RepeatsLead`: the lines in which only the operator that leads them occurs again

## Main results

* `Text.firstIndex_eq_zero_iff`, `Text.isSome_firstIndex_iff`: where a word occurs first
* `General.exists_inside_iff`: an operator inside a text, and those that are passed over
* `General.check_operators`: when the rule objects, and when this is right
-/

namespace Dockerlint

namespace Text

/-! ## Words in a text -/

theorem startsWith_iff {word t : Text} : startsWith word t ↔ word <+: t := by
  rw [startsWith, Option.isSome_iff_ne_none, ne_eq, after_eq_none_iff, not_not]

theorem firstIndex_eq_zero_iff {word t : Text} : firstIndex word t = some 0 ↔ word <+: t := by
  cases t with
  | nil => simp [firstIndex]
  | cons c t => simp [firstIndex, startsWith_iff]

/-- A word has a first place exactly if it occurs. -/
theorem isSome_firstIndex_iff {word t : Text} : (firstIndex word t).isSome ↔ word <:+: t := by
  induction t with
  | nil => simp [firstIndex]
  | cons c t ih =>
    rw [firstIndex, List.infix_cons_iff, ← ih, ← startsWith_iff]
    split
    · next hstart => simp [hstart]
    · next hstart => simp [hstart]

/-- A word occurs behind a character that it does not begin with exactly if it occurs with it. -/
theorem infix_cons_of_ne {c d : Char} (hcd : d ≠ c) (word t : Text) :
    d :: word <:+: c :: t ↔ d :: word <:+: t := by
  rw [List.infix_cons_iff, List.cons_prefix_cons, or_iff_right fun h => hcd h.1]

end Text

/-- The lines whose first character that is not blank opens a comment. -/
def Line.IsComment (line : Text) : Prop := (Text.trimLeft line).head? = some '#'

instance Line.decidableIsComment : DecidablePred IsComment := fun line =>
  inferInstanceAs (Decidable ((Text.trimLeft line).head? = some '#'))

namespace General

theorem isComment_iff {line : Text} : isComment line ↔ Line.IsComment line := by
  rw [isComment, Text.startsWith_iff, Line.IsComment, Text.trim]
  cases hline : Text.trimLeft line with
  | nil => decide
  | cons c rest =>
    have hc : isBlank c = false :=
      Text.eq_false_of_head?_dropWhile (t := line) (by rw [← Text.trimLeft, hline]; rfl)
    rw [Text.trimRight_cons hc, List.cons_prefix_cons]
    simp [eq_comm]

/-! ## Operators -/

/-- A text without the operator that leads it, if there is one. -/
def behindLead : Text → Text
  | '&' :: '&' :: rest => rest
  | '|' :: '|' :: rest => rest
  | t => t

/-- The lines with an operator that does not lead them. -/
def Misplaces (line : Text) : Prop :=
  ¬ Line.IsComment line ∧ ∃ o ∈ operators, o <:+: behindLead (Text.trim line)

instance decidableMisplaces : DecidablePred Misplaces := fun line =>
  inferInstanceAs (Decidable (¬ Line.IsComment line ∧
    ∃ o ∈ operators, o <:+: behindLead (Text.trim line)))

example : Misplaces "|| b && c".toList ∧ Misplaces "&& b && c".toList := by decide

/-- The texts that an operator leads and in which no other operator occurs, but the same one again. -/
def RepeatsLead (t : Text) : Prop :=
  ∃ o ∈ operators, ∃ rest, t = o ++ rest ∧ o <:+: rest ∧ ∀ p ∈ operators, p <:+: rest → p = o

theorem occursInside_iff {o t : Text} : occursInside o t ↔ o <:+: t ∧ ¬ o <+: t := by
  rw [occursInside, ← Text.isSome_firstIndex_iff, ← Text.firstIndex_eq_zero_iff]
  cases Text.firstIndex o t with
  | none => simp
  | some n => simp [Nat.pos_iff_ne_zero]

theorem behindLead_append {o : Text} (ho : o ∈ operators) (rest : Text) :
    behindLead (o ++ rest) = rest := by
  fin_cases ho
  · rfl
  · rfl

/-- Nothing is taken from a text that no operator leads. -/
theorem behindLead_eq_self {t : Text} (h : ∀ o ∈ operators, ¬ o <+: t) : behindLead t = t := by
  unfold behindLead
  split
  · next rest => exact absurd ⟨rest, rfl⟩ (h ['&', '&'] (by decide))
  · next rest => exact absurd ⟨rest, rfl⟩ (h ['|', '|'] (by decide))
  · rfl

/-- Another operator has no character of the one that leads a text. -/
theorem infix_behind_iff {o p : Text} (ho : o ∈ operators) (hp : p ∈ operators) (hne : p ≠ o)
    (rest : Text) : p <:+: o ++ rest ↔ p <:+: rest := by
  fin_cases ho <;> fin_cases hp
  · exact absurd rfl hne
  · exact (Text.infix_cons_of_ne (by decide) _ _).trans (Text.infix_cons_of_ne (by decide) _ _)
  · exact (Text.infix_cons_of_ne (by decide) _ _).trans (Text.infix_cons_of_ne (by decide) _ _)
  · exact absurd rfl hne

/-- At most one operator leads a text. -/
theorem eq_of_leads {o p : Text} (ho : o ∈ operators) (hp : p ∈ operators) {rest : Text}
    (h : p <+: o ++ rest) : p = o := by
  fin_cases ho <;> fin_cases hp
  · rfl
  · exact absurd (List.cons_prefix_cons.1 h).1 (by decide)
  · exact absurd (List.cons_prefix_cons.1 h).1 (by decide)
  · rfl

/-- **An operator inside a text** is one that does not lead it, those passed over apart. -/
theorem exists_inside_iff {t : Text} : (∃ o ∈ operators, o <:+: t ∧ ¬ o <+: t) ↔
    (∃ o ∈ operators, o <:+: behindLead t) ∧ ¬ RepeatsLead t := by
  constructor
  · rintro ⟨o, ho, hoccurs, hlead⟩
    have hbehind : ∀ p ∈ operators, ∀ rest, t = p ++ rest → o ≠ p ∧ o <:+: rest := by
      rintro p hp rest rfl
      have hne : o ≠ p := fun h => hlead (h ▸ List.prefix_append ..)
      exact ⟨hne, (infix_behind_iff hp ho hne rest).1 hoccurs⟩
    constructor
    · refine ⟨o, ho, ?_⟩
      by_cases hany : ∃ p ∈ operators, p <+: t
      · obtain ⟨p, hp, rest, rfl⟩ := hany
        rw [behindLead_append hp]
        exact (hbehind p hp rest rfl).2
      · rwa [behindLead_eq_self fun p hp hpt => hany ⟨p, hp, hpt⟩]
    · rintro ⟨p, hp, rest, heq, -, honly⟩
      obtain ⟨hne, hrest⟩ := hbehind p hp rest heq
      exact hne (honly o ho hrest)
  · rintro ⟨⟨o, ho, hoccurs⟩, hrepeats⟩
    by_cases hany : ∃ p ∈ operators, p <+: t
    · -- a further operator is not the one that leads the text
      obtain ⟨p, hp, rest, rfl⟩ := hany
      rw [behindLead_append hp] at hoccurs
      obtain ⟨q, hq, hrest, hne⟩ : ∃ q ∈ operators, q <:+: rest ∧ q ≠ p := by
        by_contra hnone
        have honly : ∀ q ∈ operators, q <:+: rest → q = p := by
          intro q hq hrest
          by_contra hne
          exact hnone ⟨q, hq, hrest, hne⟩
        obtain rfl := honly o ho hoccurs
        exact hrepeats ⟨o, ho, rest, rfl, hoccurs, honly⟩
      exact ⟨q, hq, (infix_behind_iff hp hq hne rest).2 hrest, fun h => hne (eq_of_leads hp hq h)⟩
    · have hself : behindLead t = t := behindLead_eq_self fun p hp hpt => hany ⟨p, hp, hpt⟩
      rw [hself] at hoccurs
      exact ⟨o, ho, hoccurs, fun hlead => hany ⟨o, ho, hlead⟩⟩

/-! ## The rule -/

/-- The rule about operators inside a line, as it is listed. -/
def operatorRule : Rule :=
  ⟨"rule11_0", "AND (&&) / OR (||) control operators must be in front of each concerned line "
    ++ "for multi-line RUN commands", .warning, operatorsLead⟩

theorem filter_check_operators (d : Document) (policy : Policy) {excluded : List Text}
    (hrun : "rule11_0".toList ∉ excluded) :
    (Group.general.check d policy excluded).filter (·.rule = "rule11_0") =
      (operatorsLead ⟨d, none, policy⟩).map operatorRule.diagnostic :=
  Group.filter_check_general (r := operatorRule) d policy (Group.mem_listed "rule11_0" rfl) hrun

/-- The lines that are no comment, with an operator whose first place is not the beginning. -/
def HasInside (line : Text) : Prop :=
  ¬ Line.IsComment line ∧ ∃ o ∈ operators, o <:+: Text.trim line ∧ ¬ o <+: Text.trim line

instance decidableHasInside : DecidablePred HasInside := fun line =>
  inferInstanceAs (Decidable (¬ Line.IsComment line ∧
    ∃ o ∈ operators, o <:+: Text.trim line ∧ ¬ o <+: Text.trim line))

example : HasInside "|| b && c".toList ∧ ¬ HasInside "&& b && c".toList := by decide

theorem objects_iff {line : Text} :
    (!isComment line && operators.any fun o => occursInside o (Text.trim line)) ↔
      HasInside line := by
  rw [Bool.and_eq_true, Bool.not_eq_true', ← Bool.not_eq_true, isComment_iff, List.any_eq_true,
    HasInside]
  simp only [occursInside_iff]

/-- A line that an operator leads is no comment. -/
theorem not_isComment_of_repeatsLead {line : Text} (h : RepeatsLead (Text.trim line)) :
    ¬ Line.IsComment line := by
  obtain ⟨o, ho, rest, heq, -⟩ := h
  rw [← isComment_iff, isComment, Text.startsWith_iff, heq]
  fin_cases ho
  · exact fun hhash => absurd (List.cons_prefix_cons.1 hhash).1 (by decide)
  · exact fun hhash => absurd (List.cons_prefix_cons.1 hhash).1 (by decide)

/-- The rule is right about a line exactly if no operator is passed over in it. -/
theorem hasInside_iff_misplaces {line : Text} :
    (HasInside line ↔ Misplaces line) ↔ ¬ RepeatsLead (Text.trim line) := by
  by_cases hrepeats : RepeatsLead (Text.trim line)
  · have hcomment := not_isComment_of_repeatsLead hrepeats
    have hinside : ¬ HasInside line := fun h => (exists_inside_iff.1 h.2).2 hrepeats
    have hmisplaces : Misplaces line := by
      obtain ⟨o, ho, rest, heq, hoccurs, -⟩ := hrepeats
      refine ⟨hcomment, o, ho, ?_⟩
      rwa [heq, behindLead_append ho]
    simp [hrepeats, hinside, hmisplaces]
  · rw [HasInside, Misplaces, exists_inside_iff, and_iff_left hrepeats]
    exact iff_of_true Iff.rfl hrepeats

end General

/-- Nothing is found before the first number. -/
theorem Finding.filter_atLines_of_lt (p : Text → Bool) {start n : Nat} (hn : n < start)
    (lines : List Text) : (atLines p start lines).filter (·.line = some n) = [] := by
  rw [List.filter_eq_nil_iff, atLines_eq]
  intro f hf hline
  obtain ⟨l, hl, rfl⟩ := List.mem_map.1 hf
  have hlow := List.le_snd_of_mem_zipIdx (List.mem_of_mem_filter hl)
  have heq : l.2 = n := by simpa using hline
  omega

theorem Finding.filter_atLines (p : Text → Bool) (start k : Nat) (lines : List Text) :
    (atLines p start lines).filter (·.line = some (start + k)) =
      match lines[k]? with
      | some line => if p line then [{ line := some (start + k) }] else []
      | none => [] := by
  induction lines generalizing start k with
  | nil => rfl
  | cons line lines ih =>
    cases k with
    | zero =>
      have hrest := filter_atLines_of_lt p (Nat.lt_succ_self start) lines
      simp only [atLines, List.getElem?_cons_zero, Nat.add_zero]
      split
      · rw [List.filter_cons_of_pos (by simp), hrest]
      · rw [hrest]
    | succ k =>
      have hstart : start + (k + 1) = start + 1 + k := by omega
      rw [hstart, List.getElem?_cons_succ, ← ih, atLines]
      split
      · rw [List.filter_cons_of_neg (by simp; omega)]
      · rfl

/-- **What is found at one line**: at most one finding, if there is such a line and it has the
property. -/
theorem Document.filter_atLines (d : Document) (p : Text → Bool) (n : Nat) :
    (Finding.atLines p 1 d.physicalLines).filter (·.line = some n) =
      match d.line? n with
      | some line => if p line then [{ line := some n }] else []
      | none => [] := by
  cases n with
  | zero => exact Finding.filter_atLines_of_lt p Nat.zero_lt_one d.physicalLines
  | succ k =>
    rw [Nat.add_comm, Finding.filter_atLines, line?, if_neg (by omega), Nat.add_sub_cancel_left]

namespace General

/-- **When the rule about operators inside a line objects.** At the number of a line it objects at most
once, and it does if the line is no comment and the first place of an operator in the trimmed line is
not its beginning. So it objects exactly to the lines that are no comment and have an operator behind
the one that leads them, if one does, unless this is again the one that leads the line and the
other operator does not occur behind it. -/
theorem check_operators (d : Document) (policy : Policy) {excluded : List Text}
    (hrun : "rule11_0".toList ∉ excluded) (n : Nat) :
    let found := ((Group.general.check d policy excluded).filter (·.rule = "rule11_0")).filter
      (·.line = some n)
    let objection : Diagnostic := ⟨"rule11_0", "AND (&&) / OR (||) control operators must be in " ++
      "front of each concerned line for multi-line RUN commands", .warning, some n⟩
    (found = match d.line? n with
      | some line => if HasInside line then [objection] else []
      | none => []) ∧
    ((found ≠ [] ↔ ∃ line, d.line? n = some line ∧ Misplaces line) ↔
      ¬ ∃ line, d.line? n = some line ∧ RepeatsLead (Text.trim line)) := by
  intro found objection
  have hreports : found = ((operatorsLead ⟨d, none, policy⟩).filter (·.line = some n)).map
      operatorRule.diagnostic := by
    show List.filter _ (List.filter _ _) = _
    rw [filter_check_operators d policy hrun, List.filter_map]
    rfl
  have hfound : found = match d.line? n with
      | some line => if HasInside line then [objection] else []
      | none => [] := by
    rw [hreports, operatorsLead, Document.filter_atLines]
    cases d.line? n with
    | none => rfl
    | some line =>
      simp only [objects_iff]
      split
      · rfl
      · rfl
  refine ⟨hfound, ?_⟩
  rw [hfound]
  cases d.line? n with
  | none => simp
  | some line => simpa using hasInside_iff_misplaces

/-- Another operator behind the one that leads the line. -/
theorem check_operators_other :
    ∃ d, Document.parse "FROM a\nRUN b \\\n || c && d\n".toList = .ok d ∧
      ((Group.general.check d {} []).filter (·.rule = "rule11_0")).filter (·.line = some 3) =
        [⟨"rule11_0", "AND (&&) / OR (||) control operators must be in " ++
          "front of each concerned line for multi-line RUN commands", .warning, some 3⟩] := by
  obtain ⟨d, hd, hlines⟩ := exists_of_map_eq_ok (f := Document.physicalLines)
    (b := ["FROM a".toList, "RUN b \\".toList, " || c && d".toList])
    (show (Document.parse "FROM a\nRUN b \\\n || c && d\n".toList).map _ = _ by cbv)
  have hline : d.line? 3 = some " || c && d".toList := by
    rw [Document.line?, hlines]
    rfl
  have hfound := (check_operators d {} List.not_mem_nil 3).1
  rw [hline] at hfound
  exact ⟨d, hd, hfound.trans (if_pos (by decide))⟩

/-- The operator that leads the line occurs in it once more, and nothing is found. -/
theorem check_operators_repeated :
    ∃ d, Document.parse "FROM r/u/cc:1\nRUN a \\\n && b && c\n".toList = .ok d ∧
      (∃ line, d.line? 3 = some line ∧ Misplaces line) ∧
      (Group.general.check d {} []).filter (·.rule = "rule11_0") = [] := by
  obtain ⟨d, hd, hlines⟩ := exists_of_map_eq_ok (f := Document.physicalLines)
    (b := ["FROM r/u/cc:1".toList, "RUN a \\".toList, " && b && c".toList])
    (show (Document.parse "FROM r/u/cc:1\nRUN a \\\n && b && c\n".toList).map _ = _ by cbv)
  refine ⟨d, hd, ⟨" && b && c".toList, ?_, by decide⟩, ?_⟩
  · rw [Document.line?, hlines]
    rfl
  · have hnone : operatorsLead ⟨d, none, {}⟩ = [] := by
      rw [operatorsLead, hlines]
      decide
    rw [filter_check_operators d {} List.not_mem_nil, hnone, List.map_nil]

end General

end Dockerlint
