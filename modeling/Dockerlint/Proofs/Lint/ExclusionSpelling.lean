import Dockerlint.Proofs.Lint.Registries
import Dockerlint.Proofs.Operand.Assignments
import Dockerlint.Proofs.Operand.Maintainers

/-!
# The spelling of an exclusion list

An exclusion list stands for a set of names. Which entries the names are in, how often and in which
order they occur, and what blanks and commas stand between them makes no difference: a comma ends a
name just as the end of an entry does, and what is left of a blank name is dropped. Of the set, a
run looks only at the names that rules have.

## Main definitions

* `Settings.Border`: the places of an entry where a name begins or ends
* `Settings.NamesRule`: the names of rules

## Main results

* `Text.split_join`: the pieces of joined texts are the pieces of each
* `Settings.namesIn_border`: blanks and commas at a border name nothing
* `Settings.mem_excludedRules_iff`: the names that are excluded
* `Report.diagnostics_congr`: a run looks only at the names that rules have
* `Settings.excludedRules_spelling`: what changes neither the excluded rules nor a report
-/

namespace Dockerlint

/-! ## Pieces of joined texts -/

namespace Text

/-- A separator divides the pieces of a text into those of its two sides. -/
theorem split_append_sep (sep : Char) (s t : Text) :
    split sep (s ++ sep :: t) = split sep s ++ split sep t := by
  induction s with
  | nil => simp [split]
  | cons c s ih =>
    rw [List.cons_append, split, split, ih]
    by_cases hc : c = sep
    · rw [if_pos hc, if_pos hc, List.cons_append]
    · rw [if_neg hc, if_neg hc, consHead_append (split_ne_nil sep s)]

theorem split_join (sep : Char) {ts : List Text} (h : ts ≠ []) :
    split sep (join [sep] ts) = ts.flatMap (split sep) := by
  induction ts with
  | nil => exact absurd rfl h
  | cons s ts ih =>
    cases ts with
    | nil => simp
    | cons t ts =>
      have hmore := ih (List.cons_ne_nil t ts)
      rw [join_cons_cons, List.singleton_append, split_append_sep, hmore, ← List.flatMap_cons]

theorem trim_append_blanks (t : Text) {w : Text} (hw : ∀ c ∈ w, isBlank c) :
    trim (t ++ w) = trim t := by
  rw [trim, trimRight_trimLeft, trimRight_append_blanks t hw, ← trimRight_trimLeft, ← trim]

theorem trim_blank_cons {c : Char} (hc : isBlank c) (t : Text) : trim (c :: t) = trim t := by
  rw [trim, trimLeft_cons, if_pos hc, ← trim]

end Text

namespace Table

variable {α : Type}

/-- A key has a value after insertions in turn exactly if it was inserted. -/
theorem isSome_find?_ofList {es : List (Text × α)} {key : Text} :
    ((ofList es).find? key).isSome ↔ key ∈ es.map (·.1) := by
  -- the last entry is inserted last
  induction es using List.reverseRecOn with
  | nil => simp [ofList, empty, find?, valueIn]
  | append_singleton es e ih =>
    rw [ofList_concat, find?_insert, List.map_append, List.mem_append, List.map_singleton,
      List.mem_singleton]
    by_cases he : key = e.1
    · simp [he]
    · simpa [he] using ih

theorem mem_keys_ofList_iff {es : List (Text × α)} {key : Text} :
    key ∈ (ofList es).keys ↔ key ∈ es.map (·.1) :=
  valueIn_isSome_iff.symm.trans isSome_find?_ofList

end Table

namespace Settings

/-! ## The names in an entry -/

section Names

variable {a b w : Text}

theorem mem_namesIn_iff {entry n : Text} :
    n ∈ namesIn entry ↔ n ≠ [] ∧ ∃ piece ∈ Text.split ',' entry, Text.trim piece = n := by
  simp only [namesIn, List.mem_filter, List.mem_map, decide_eq_true_eq]
  exact and_comm

theorem namesIn_append_comma (a b : Text) : namesIn (a ++ ',' :: b) = namesIn a ++ namesIn b := by
  rw [namesIn, Text.split_append_sep, List.map_append, List.filter_append]
  rfl

/-- An entry that is joined from others has their names. -/
theorem namesIn_join (entries : List Text) :
    namesIn (Text.join [','] entries) = entries.flatMap namesIn := by
  cases entries with
  | nil => rfl
  | cons e entries =>
    rw [namesIn, Text.split_join ',' (List.cons_ne_nil e entries), List.map_flatMap,
      List.filter_flatMap]
    rfl

theorem ne_comma_of_isBlank {c : Char} (hc : isBlank c) : c ≠ ',' := by
  rintro rfl
  exact absurd hc (by decide)

/-- A blank in front of an entry does not count. -/
theorem namesIn_blank_cons {c : Char} (hc : isBlank c) (t : Text) :
    namesIn (c :: t) = namesIn t := by
  rw [namesIn, namesIn, Text.split, if_neg (ne_comma_of_isBlank hc)]
  cases hsplit : Text.split ',' t with
  | nil => exact absurd hsplit (Text.split_ne_nil ',' t)
  | cons piece pieces =>
    rw [Text.consHead, List.map_cons, List.map_cons, Text.trim_blank_cons hc]

/-- A blank behind an entry does not count. -/
theorem namesIn_blank_concat {c : Char} (hc : isBlank c) (t : Text) :
    namesIn (t ++ [c]) = namesIn t := by
  induction t using Text.split_induction ',' with
  | last piece hpiece =>
    have hconcat : ',' ∉ piece ++ [c] := by
      rw [List.mem_append, List.mem_singleton]
      exact not_or.2 ⟨hpiece, Ne.symm (ne_comma_of_isBlank hc)⟩
    rw [namesIn, namesIn, Text.split_of_notMem hconcat, Text.split_of_notMem hpiece,
      List.map_singleton, List.map_singleton,
      Text.trim_append_blanks piece (List.forall_mem_singleton.2 hc)]
  | piece piece behind _ ih =>
    rw [List.append_assoc, List.cons_append, namesIn_append_comma, namesIn_append_comma, ih]

/-- The places of an entry where a name begins or ends: at its ends and beside its commas. -/
def Border (a b : Text) : Prop :=
  (a = [] ∨ a.getLast? = some ',') ∨ b = [] ∨ b.head? = some ','

theorem namesIn_idle_append (hw : ∀ c ∈ w, isBlank c ∨ c = ',') (b : Text) :
    namesIn (w ++ b) = namesIn b := by
  induction w with
  | nil => rfl
  | cons c w ih =>
    obtain ⟨hc, hrest⟩ := List.forall_mem_cons.1 hw
    rcases hc with hc | rfl
    · rw [List.cons_append, namesIn_blank_cons hc, ih hrest]
    · exact (namesIn_append_comma [] (w ++ b)).trans (ih hrest)

theorem namesIn_idle (hw : ∀ c ∈ w, isBlank c ∨ c = ',') : namesIn w = [] := by
  have h := namesIn_idle_append hw []
  rwa [List.append_nil] at h

theorem namesIn_append_idle (hw : ∀ c ∈ w, isBlank c ∨ c = ',') (a : Text) :
    namesIn (a ++ w) = namesIn a := by
  induction w generalizing a with
  | nil => rw [List.append_nil]
  | cons c w ih =>
    obtain ⟨hc, hrest⟩ := List.forall_mem_cons.1 hw
    rcases hc with hc | rfl
    · have hmore := ih hrest (a ++ [c])
      rwa [List.append_assoc, List.singleton_append, namesIn_blank_concat hc] at hmore
    · rw [namesIn_append_comma, namesIn_idle hrest, List.append_nil]

/-- **Blanks and commas at a border name nothing**, and leave the names beside them as they are. -/
theorem namesIn_border (h : Border a b) (hw : ∀ c ∈ w, isBlank c ∨ c = ',') :
    namesIn (a ++ (w ++ b)) = namesIn (a ++ b) := by
  rcases h with (rfl | ha) | rfl | hb
  · exact namesIn_idle_append hw b
  · obtain ⟨front, rfl⟩ := List.getLast?_eq_some_iff.1 ha
    simp only [List.append_assoc, List.singleton_append]
    rw [namesIn_append_comma, namesIn_append_comma, namesIn_idle_append hw]
  · rw [List.append_nil, List.append_nil, namesIn_append_idle hw]
  · obtain ⟨back, rfl⟩ := List.head?_eq_some_iff.1 hb
    rw [← List.append_assoc, namesIn_append_comma, namesIn_append_comma, namesIn_append_idle hw]

end Names

/-! ## The excluded rules -/

theorem mem_excludedRules_iff {s : Settings} {n : Text} :
    n ∈ s.excludedRules ↔ ∃ entry ∈ s.exclude, n ∈ namesIn entry := by
  rw [excludedRules, Table.mem_keys_ofList_iff, List.map_map]
  simp

/-- Settings that exclude the same names list them alike. -/
theorem excludedRules_congr {s t : Settings}
    (h : ∀ n, n ∈ s.exclude.flatMap namesIn ↔ n ∈ t.exclude.flatMap namesIn) :
    s.excludedRules = t.excludedRules := by
  refine Table.keys_eq_of_mem_iff fun n => ?_
  rw [Table.mem_keys_ofList_iff, Table.mem_keys_ofList_iff, List.map_map, List.map_map]
  simpa using h n

/-- The names of rules. -/
def NamesRule (n : Text) : Prop := ∃ g : Group, ∃ r ∈ g.listed, r.name.toList = n

end Settings

/-- **A run looks only at the names that rules have.** -/
theorem Report.diagnostics_congr {xs ys : List Text}
    (h : ∀ n, Settings.NamesRule n → (n ∈ xs ↔ n ∈ ys)) (d : Document) (policy : Policy) :
    diagnostics d policy xs = diagnostics d policy ys := by
  refine List.flatMap_congr fun g _ => ?_
  have hkeep : g.listed.filter (fun r => !xs.contains r.name.toList) =
      g.listed.filter fun r => !ys.contains r.name.toList := by
    refine List.filter_congr fun r hr => ?_
    have hname := h r.name.toList ⟨g, r, hr, rfl⟩
    simp [hname]
  rw [Group.check, Group.check, Rule.run, Rule.run, hkeep]

namespace Settings

/-- **The spelling of an exclusion list is irrelevant.** The excluded names are the trimmed pieces
of the entries between commas, the empty ones left out, each listed once and in order. So a list has
the names of the one entry that is joined from it with commas; lists with the same entries, in any
order and any number, have the same names; blanks and commas at a border of an entry, and entries of
nothing else, change nothing; and two lists together have the names of both. A list that only has
more names that no rule has gives the same reports, and the same outcome of a lint run. -/
theorem excludedRules_spelling (s : Settings) :
    let excluded (xs : List Text) := ({ s with exclude := xs } : Settings).excludedRules
    (∀ (xs : List Text) n, n ∈ excluded xs ↔
      n ≠ [] ∧ ∃ e ∈ xs, ∃ piece ∈ Text.split ',' e, Text.trim piece = n) ∧
    (∀ xs, (excluded xs).Pairwise fun m n => Text.precedes m n) ∧
    (∀ xs, excluded xs = excluded [Text.join [','] xs]) ∧
    (∀ xs ys : List Text, (∀ e, e ∈ xs ↔ e ∈ ys) → excluded xs = excluded ys) ∧
    (∀ xs ys a b w, Border a b → (∀ c ∈ w, isBlank c ∨ c = ',') →
      excluded (xs ++ (a ++ (w ++ b)) :: ys) = excluded (xs ++ (a ++ b) :: ys)) ∧
    (∀ xs ys w, (∀ c ∈ w, isBlank c ∨ c = ',') → excluded (xs ++ w :: ys) = excluded (xs ++ ys)) ∧
    (∀ xs ys n, n ∈ excluded (xs ++ ys) ↔ n ∈ excluded xs ∨ n ∈ excluded ys) ∧
    ∀ (xs ys added : List Text), (∀ n ∈ added, ¬ NamesRule n) →
      (∀ n, n ∈ excluded ys ↔ n ∈ excluded xs ∨ n ∈ added) → ∀ d policy,
        Report.ofDocument d { s with exclude := ys } policy =
          Report.ofDocument d { s with exclude := xs } policy ∧
        lint d { s with exclude := ys } policy = lint d { s with exclude := xs } policy := by
  intro excluded
  refine ⟨?_, ?_, ?_, ?_, ?_, ?_, ?_, ?_⟩
  · intro xs n
    rw [mem_excludedRules_iff]
    simp only [mem_namesIn_iff]
    constructor
    · rintro ⟨e, he, hn, hpiece⟩
      exact ⟨hn, e, he, hpiece⟩
    · rintro ⟨hn, e, he, hpiece⟩
      exact ⟨e, he, hn, hpiece⟩
  · intro xs
    exact Table.pairwise_keys _
  · intro xs
    refine excludedRules_congr fun n => ?_
    rw [List.flatMap_singleton, namesIn_join]
  · intro xs ys h
    refine excludedRules_congr fun n => ?_
    simp only [List.mem_flatMap, h]
  · intro xs ys a b w hborder hw
    refine excludedRules_congr fun n => ?_
    simp only [List.flatMap_append, List.flatMap_cons, namesIn_border hborder hw]
  · intro xs ys w hw
    refine excludedRules_congr fun n => ?_
    simp only [List.flatMap_append, List.flatMap_cons, namesIn_idle hw, List.nil_append]
  · intro xs ys n
    simp only [excluded, mem_excludedRules_iff, List.mem_append, or_and_right, exists_or]
  · intro xs ys added hadded hys d policy
    have hsame : Report.diagnostics d policy (excluded ys) =
        Report.diagnostics d policy (excluded xs) := by
      refine Report.diagnostics_congr (fun n hn => ?_) d policy
      rw [hys n]
      exact or_iff_left fun hmem => hadded n hmem hn
    have hreport : Report.ofDocument d { s with exclude := ys } policy =
        Report.ofDocument d { s with exclude := xs } policy := by
      simp only [Report.ofDocument]
      rw [hsame]
    refine ⟨hreport, ?_⟩
    simp only [lint, hreport]

/-- Names in two entries, one of them twice and with an ideographic space before it. -/
theorem excludedRules_spelling_twice :
    (∀ e, e ∈ ["rule3,rule1".toList, "rule3,rule1".toList, "rule2".toList] ↔
      e ∈ ["rule2".toList, "rule3,rule1".toList]) ∧
    Border "rule3,".toList "rule1".toList ∧ ¬ NamesRule "rule99".toList ∧
    ({ exclude := ["rule3,rule1".toList, "rule3,rule1".toList, "rule2".toList] } :
      Settings).excludedRules =
        ({ exclude := ["rule2".toList, "rule3,rule1".toList] } : Settings).excludedRules ∧
    ({ exclude := ["rule3,".toList ++ ([Char.ofNat 0x3000, ','] ++ "rule1".toList)] } :
      Settings).excludedRules =
        ({ exclude := ["rule3,".toList ++ "rule1".toList] } : Settings).excludedRules ∧
    ∃ d, Document.parse "RUN a\n".toList = .ok d ∧
      Report.ofDocument d { exclude := ["rule1".toList, "rule99".toList] } {} =
        Report.ofDocument d { exclude := ["rule1".toList] } {} := by
  have hentries : ∀ e, e ∈ ["rule3,rule1".toList, "rule3,rule1".toList, "rule2".toList] ↔
      e ∈ ["rule2".toList, "rule3,rule1".toList] := by
    intro e
    simp only [List.mem_cons, List.not_mem_nil, or_false, or_self_left]
    exact or_comm
  have hborder : Border "rule3,".toList "rule1".toList := .inl (.inr rfl)
  have hunknown : ¬ NamesRule "rule99".toList := by
    have hall : ∀ g : Group, ∀ r ∈ g.listed, r.name.toList ≠ "rule99".toList := by
      intro g
      cases g <;> decide
    rintro ⟨g, r, hr, hname⟩
    exact hall g r hr hname
  have hidle : ∀ c ∈ [Char.ofNat 0x3000, ','], isBlank c ∨ c = ',' := by
    simp [isBlank]
  have hparse : (Document.parse "RUN a\n".toList).map (fun _ => ()) = .ok () := by
    cbv
  obtain ⟨d, hd, -⟩ := exists_of_map_eq_ok hparse
  have hnames : ({ exclude := ["rule99".toList] } : Settings).excludedRules =
      ["rule99".toList] := by
    decide
  obtain ⟨-, -, -, hsame, hspaced, -, hunion, hreports⟩ := excludedRules_spelling {}
  refine ⟨hentries, hborder, hunknown, hsame _ _ hentries, hspaced [] [] _ _ _ hborder hidle, d, hd,
    (hreports ["rule1".toList] _ ["rule99".toList] (by simpa using hunknown) ?_ d {}).1⟩
  intro n
  have hadded := hunion ["rule1".toList] ["rule99".toList] n
  simp only [hnames] at hadded
  exact hadded

end Settings

end Dockerlint
