import Dockerlint.Proofs.Line.Scan

/-!
# Logical lines as runs of kept lines

Extraction carries an open continuation from line to line. Said without that state, the kept lines
of a document fall into runs: lines that continue, and then one that does not. A run is one logical
line, and lines that continue behind the last run are an open continuation. No run is lost, because
the last line of a run always leaves a character that is not blank: the first of that line, which
neither opens a comment nor is a continuation marker.

## Main definitions

* `Line.kept`: the lines that are not discarded, with their numbers
* `Line.Run`: the kept lines of one logical line
* `LogicalLine.Exact`: what the logical lines of a document are, said by its kept lines

## Main results

* `Line.Run.exists_text`: every run has a text
* `LogicalLine.exists_runs`: extraction finds the runs
* `LogicalLine.extract_exact`: extraction fails or succeeds by the last kept line, and loses nothing
-/

namespace Dockerlint

namespace Line

/-! ## Kept lines -/

/-- Whether a line ends in a continuation marker. -/
def continues (line : Text) : Bool := (Segment.scan line).continues

/-- What a line adds to its logical line. -/
def piece (line : Text) : Text := Text.trimLeft (Segment.scan line).text

/-- The lines that are not discarded, with their numbers; the first line has number `n`. -/
def kept (n : Nat) (lines : List Text) : List (Text × Nat) :=
  (lines.zipIdx n).filter fun l => !isDiscarded l.1

/-- What some lines add to their logical line together. -/
def joined (ls : List (Text × Nat)) : Text := ls.flatMap fun l => piece l.1

theorem kept_cons (n : Nat) (line : Text) (lines : List Text) :
    kept n (line :: lines) =
      if isDiscarded line then kept (n + 1) lines else (line, n) :: kept (n + 1) lines := by
  rw [kept, List.zipIdx_cons, List.filter_cons]
  cases isDiscarded line <;> rfl

theorem mem_kept {n : Nat} {lines : List Text} {l : Text × Nat} (h : l ∈ kept n lines) :
    l.1 ∈ lines ∧ n ≤ l.2 ∧ l.2 < n + lines.length ∧ isDiscarded l.1 = false := by
  obtain ⟨hmem, hkept⟩ := List.mem_filter.1 h
  refine ⟨List.fst_mem_of_mem_zipIdx hmem, List.le_snd_of_mem_zipIdx hmem, ?_, by simpa using hkept⟩
  have := List.snd_lt_add_of_mem_zipIdx hmem
  omega

theorem kept_increasing (n : Nat) (lines : List Text) :
    (kept n lines).Pairwise fun k l => k.2 < l.2 := by
  have hrange : ((lines.zipIdx n).map Prod.snd).Pairwise (· < ·) := by
    rw [List.zipIdx_map_snd]
    exact List.pairwise_lt_range'
  exact (List.pairwise_map.1 hrange).filter _

/-- Blanks in front of a line stay in front of its segment. -/
theorem piece_trimLeft (line : Text) :
    piece (Text.trimLeft line) = piece line ∧ continues (Text.trimLeft line) = continues line := by
  induction line with
  | nil => exact ⟨rfl, rfl⟩
  | cons c line ih =>
    rw [Text.trimLeft_cons]
    split
    · next hc =>
      rw [ih.1, ih.2, piece, piece, continues, continues,
        Segment.scan_cons (Segment.isOrdinary_of_isBlank hc)]
      exact ⟨by rw [Segment.prepend, List.singleton_append, Text.trimLeft_cons, if_pos hc], rfl⟩
    · exact ⟨rfl, rfl⟩

/-- A kept line adds nothing and continues, or it adds a text that begins with its first character
that is not blank. -/
theorem piece_cases {line : Text} (h : isDiscarded line = false) :
    (piece line = [] ∧ continues line) ∨ ∃ c t, piece line = c :: t ∧ isBlank c = false := by
  rw [← (piece_trimLeft line).1, ← (piece_trimLeft line).2]
  unfold isDiscarded at h
  cases hline : Text.trimLeft line with
  | nil =>
    rw [hline] at h
    cases h
  | cons c rest =>
    have hc : isBlank c = false := Text.eq_false_of_head?_dropWhile (t := line) (by
      rw [← Text.trimLeft, hline]
      rfl)
    rw [hline] at h
    rcases Segment.scan_cons_cases (by simpa using h) rest with hscan | ⟨t, hscan⟩
    · exact .inl ⟨by rw [piece, hscan]; rfl, by rw [continues, hscan]⟩
    · exact .inr ⟨c, t, by rw [piece, hscan, Text.trimLeft_eq_self hc], hc⟩

theorem mem_of_mem_piece {line : Text} {c : Char} (h : c ∈ piece line) : c ∈ line :=
  (Segment.scan_sublist line).subset ((Text.trimLeft_suffix _).subset h)

/-- What kept lines add together does not begin with a blank. -/
theorem startsBlank_joined {ls : List (Text × Nat)} (h : ∀ l ∈ ls, isDiscarded l.1 = false) :
    Text.startsBlank (joined ls) = false := by
  induction ls with
  | nil => rfl
  | cons l ls ih =>
    have hls := ih fun k hk => h k (List.mem_cons_of_mem l hk)
    rw [joined, List.flatMap_cons]
    rcases piece_cases (h l (List.mem_cons_self ..)) with ⟨hnil, -⟩ | ⟨c, t, hcons, hc⟩
    · rwa [hnil]
    · rw [hcons]
      exact hc

/-! ## Runs -/

/-- The kept lines of one logical line: lines that continue, and one that does not. -/
structure Run where
  /-- The lines that continue. -/
  continued : List (Text × Nat)
  /-- The line that does not. -/
  last : Text × Nat
  continues_continued : ∀ l ∈ continued, continues l.1
  continues_last : continues last.1 = false
  kept_lines : ∀ l ∈ continued ++ [last], isDiscarded l.1 = false

namespace Run

/-- The lines of a run in order. -/
def lines (r : Run) : List (Text × Nat) := r.continued ++ [r.last]

/-- The logical line of a run. -/
def logical (r : Run) : LogicalLine := ⟨Text.trimRight (joined r.lines), r.last.2⟩

/-- The last line of a run adds a character that is not blank, and so the run begins with one. -/
theorem exists_joined (r : Run) : ∃ c t, joined r.lines = c :: t ∧ isBlank c = false := by
  have hlast : piece r.last.1 ≠ [] := by
    intro hnil
    rcases piece_cases (r.kept_lines r.last (by simp)) with ⟨-, hcontinues⟩ | ⟨c, t, hcons, -⟩
    · rw [r.continues_last] at hcontinues
      cases hcontinues
    · rw [hnil] at hcons
      cases hcons
  have hstart := startsBlank_joined r.kept_lines
  have hjoined : joined r.lines = joined r.continued ++ piece r.last.1 := by
    simp [joined, lines]
  cases hcases : joined r.lines with
  | nil =>
    rw [hjoined] at hcases
    exact absurd (List.append_eq_nil_iff.1 hcases).2 hlast
  | cons c t =>
    rw [← lines, hcases] at hstart
    exact ⟨c, t, rfl, hstart⟩

/-- **Every run has a text**, and it begins with a character that is not blank. -/
theorem exists_text (r : Run) : ∃ c t, r.logical.text = c :: t ∧ isBlank c = false := by
  obtain ⟨c, t, hjoined, hc⟩ := r.exists_joined
  refine ⟨c, Text.trimRight t, ?_, hc⟩
  rw [logical, hjoined, Text.trimRight_cons hc]

theorem mem_text {r : Run} {c : Char} (h : c ∈ r.logical.text) : ∃ l ∈ r.lines, c ∈ l.1 := by
  obtain ⟨l, hl, hc⟩ := List.mem_flatMap.1 ((Text.trimRight_sublist _).subset h)
  exact ⟨l, hl, mem_of_mem_piece hc⟩

/-- The lines of runs that do not continue are their last lines. -/
theorem filter_continues (runs : List Run) :
    (runs.flatMap lines).filter (fun l => !continues l.1) = runs.map last := by
  induction runs with
  | nil => rfl
  | cons r runs ih =>
    have hnone : r.continued.filter (fun l => !continues l.1) = [] := by
      rw [List.filter_eq_nil_iff]
      intro l hl
      simp [r.continues_continued l hl]
    have hlast : [r.last].filter (fun l => !continues l.1) = [r.last] := by
      simp [r.continues_last]
    rw [List.flatMap_cons, List.filter_append, ih, lines, List.filter_append, hnone, hlast]
    rfl

end Run

end Line

namespace LogicalLine

open Line (Run)

/-! ## Extraction finds the runs -/

/-- The continuation that is open behind some lines. -/
def Pending.ofLines (opened : List (Text × Nat)) : Option Pending :=
  opened.getLast?.map fun l => ⟨Line.joined opened, l.2⟩

/-- What extraction gives for runs with some lines behind them that continue. -/
def ofRuns (runs : List Run) (tail : List (Text × Nat)) : Except Error (List LogicalLine) :=
  match tail.getLast? with
  | none => .ok (runs.map Run.logical)
  | some l => .error (.openContinuation l.2)

theorem text_ofLines (opened : List (Text × Nat)) :
    (Pending.ofLines opened).elim [] (·.text) = Line.joined opened := by
  rcases List.eq_nil_or_concat opened with rfl | ⟨init, l, rfl⟩
  · rfl
  · rw [List.concat_eq_append, Pending.ofLines, List.getLast?_concat]
    rfl

theorem ofRuns_cons (r : Run) (runs : List Run) (tail : List (Text × Nat)) :
    ofRuns (r :: runs) tail = (ofRuns runs tail).map (r.logical :: ·) := by
  unfold ofRuns
  cases tail.getLast? <;> rfl

/-- **Extraction finds the runs.** Lines that an open continuation stands for come before the kept
ones; the first run takes them. -/
theorem exists_runs (opened : List (Text × Nat)) (hcontinues : ∀ l ∈ opened, Line.continues l.1)
    (hkept : ∀ l ∈ opened, Line.isDiscarded l.1 = false) (n : Nat) (lines : List Text) :
    ∃ runs tail, opened ++ Line.kept n lines = runs.flatMap Run.lines ++ tail ∧
      (∀ l ∈ tail, Line.continues l.1) ∧
      assemble (Pending.ofLines opened) n lines = ofRuns runs tail := by
  -- the induction is on the lines, so the number and the lines that are open vary
  induction lines generalizing opened n with
  | nil =>
    refine ⟨[], opened, by simp [Line.kept], hcontinues, ?_⟩
    rw [Pending.ofLines, ofRuns]
    cases opened.getLast? <;> rfl
  | cons line lines ih =>
    rw [Line.kept_cons, assemble, text_ofLines]
    by_cases hline : Line.isDiscarded line
    · rw [if_pos hline, if_pos hline]
      exact ih opened hcontinues hkept (n + 1)
    · have hdiscarded : Line.isDiscarded line = false := by simpa using hline
      have hkept' : ∀ l ∈ opened ++ [(line, n)], Line.isDiscarded l.1 = false := by
        intro l hl
        rcases List.mem_append.1 hl with hl | hl
        · exact hkept l hl
        · rw [List.mem_singleton.1 hl]
          exact hdiscarded
      have hjoined : Line.joined opened ++ Text.trimLeft (Segment.scan line).text =
          Line.joined (opened ++ [(line, n)]) := by
        simp [Line.joined, Line.piece]
      rw [if_neg hline, if_neg hline]
      simp only [hjoined]
      by_cases hends : (Segment.scan line).continues
      · -- the line joins those that are open
        have hcontinues' : ∀ l ∈ opened ++ [(line, n)], Line.continues l.1 := by
          intro l hl
          rcases List.mem_append.1 hl with hl | hl
          · exact hcontinues l hl
          · rw [List.mem_singleton.1 hl]
            exact hends
        obtain ⟨runs, tail, hcut, htail, hassemble⟩ := ih _ hcontinues' hkept' (n + 1)
        rw [List.append_assoc, List.singleton_append] at hcut
        refine ⟨runs, tail, hcut, htail, ?_⟩
        rw [if_pos hends, ← hassemble, Pending.ofLines, List.getLast?_concat]
        rfl
      · -- the line ends a run, and nothing is open behind it
        let r : Run := ⟨opened, (line, n), hcontinues, Bool.eq_false_iff.2 hends, hkept'⟩
        obtain ⟨runs, tail, hcut, htail, hassemble⟩ := ih [] (by simp) (by simp) (n + 1)
        obtain ⟨c, t, htext, -⟩ := r.exists_text
        have hne : Text.trimRight (Line.joined (opened ++ [(line, n)])) ≠ [] := by
          intro hnil
          rw [Run.logical, Run.lines, hnil] at htext
          cases htext
        refine ⟨r :: runs, tail, ?_, htail, ?_⟩
        · rw [List.flatMap_cons, List.append_assoc, ← hcut, Run.lines]
          simp [r]
        · rw [if_neg hends, if_neg hne, ofRuns_cons, ← hassemble]
          rfl

theorem exists_runs_of_content (content : Text) :
    ∃ runs tail, Line.kept 1 (Text.lines content) = runs.flatMap Run.lines ++ tail ∧
      (∀ l ∈ tail, Line.continues l.1) ∧ extract content = ofRuns runs tail :=
  exists_runs [] (by simp) (by simp) 1 (Text.lines content)

/-- If extraction succeeds, every kept line is in a run. -/
theorem exists_runs_of_extract {content : Text} {ls : List LogicalLine}
    (h : extract content = .ok ls) :
    ∃ runs : List Run, Line.kept 1 (Text.lines content) = runs.flatMap Run.lines ∧
      ls = runs.map Run.logical := by
  obtain ⟨runs, tail, hcut, -, hextract⟩ := exists_runs_of_content content
  rw [h, ofRuns] at hextract
  split at hextract
  · next htail =>
    rw [List.getLast?_eq_none_iff.1 htail, List.append_nil] at hcut
    exact ⟨runs, hcut, Except.ok.inj hextract⟩
  · cases hextract

/-! ## Exactness -/

/-- The number that the last of some logical lines carries, and 0 if there is none. -/
def lastNumber (ls : List LogicalLine) : Nat := (ls.getLast?.map (·.line)).getD 0

/-- What the logical lines of a document are, said by its kept lines. -/
structure Exact (content : Text) (ls : List LogicalLine) : Prop where
  /-- They carry the numbers of the kept lines that do not continue. -/
  numbers : ls.map (·.line) =
    ((Line.kept 1 (Text.lines content)).filter fun k => !Line.continues k.1).map (·.2)
  increasing : (ls.map (·.line)).Pairwise (· < ·)
  inside : ∀ l ∈ ls, 1 ≤ l.line ∧ l.line ≤ (Text.lines content).length
  /-- Each joins the kept lines behind the number before it, up to its own. -/
  text : ∀ before l behind, ls = before ++ l :: behind →
    l.text = Text.trimRight (Line.joined ((Line.kept 1 (Text.lines content)).filter fun k =>
      lastNumber before < k.2 ∧ k.2 ≤ l.line))
  ne_nil : ∀ l ∈ ls, l.text ≠ []
  head : ∀ l ∈ ls, ∀ c, l.text.head? = some c → isBlank c = false
  last : ∀ l ∈ ls, ∀ c, l.text.getLast? = some c → isBlank c = false
  newline : ∀ l ∈ ls, '\n' ∉ l.text

section Increasing

theorem increasing_of_runs {runs : List Run}
    (h : (runs.flatMap Run.lines).Pairwise fun k l => k.2 < l.2) :
    ((runs.map Run.logical).map (·.line)).Pairwise (· < ·) := by
  have hlast : (runs.map Run.last).Pairwise fun k l => k.2 < l.2 := by
    rw [← Run.filter_continues]
    exact h.filter _
  rw [List.pairwise_map] at hlast
  rw [List.map_map, List.pairwise_map]
  exact hlast

theorem le_of_increasing {ls : List (Text × Nat)} {last : Text × Nat}
    (h : (ls ++ [last]).Pairwise fun k l => k.2 < l.2) : ∀ l ∈ ls ++ [last], l.2 ≤ last.2 := by
  intro l hl
  rcases List.mem_append.1 hl with hl | hl
  · exact Nat.le_of_lt ((List.pairwise_append.1 h).2.2 l hl last (by simp))
  · exact Nat.le_of_eq (congrArg Prod.snd (List.mem_singleton.1 hl))

variable {before behind : List Run} {r : Run}

/-- The number that is carried before a run is that of the last line before it, or 0. -/
theorem lastNumber_spec (hpos : ∀ l ∈ r.lines, 0 < l.2)
    (h : (before.flatMap Run.lines ++ r.lines).Pairwise fun k l => k.2 < l.2) :
    (∀ l ∈ before.flatMap Run.lines, l.2 ≤ lastNumber (before.map Run.logical)) ∧
      ∀ l ∈ r.lines, lastNumber (before.map Run.logical) < l.2 := by
  obtain ⟨hbefore, -, hacross⟩ := List.pairwise_append.1 h
  rcases List.eq_nil_or_concat before with rfl | ⟨init, r', rfl⟩
  · exact ⟨by simp, hpos⟩
  · have hnumber : lastNumber ((init.concat r').map Run.logical) = r'.last.2 := by
      simp [lastNumber, Run.logical]
    have hcut : (init.concat r').flatMap Run.lines =
        (init.flatMap Run.lines ++ r'.continued) ++ [r'.last] := by
      simp [Run.lines]
    rw [hnumber, hcut]
    rw [hcut] at hbefore hacross
    exact ⟨le_of_increasing hbefore, hacross r'.last (by simp)⟩

/-- The lines of a run are those with a number up to its last that no earlier run has reached. -/
theorem filter_lines (hpos : ∀ l ∈ r.lines, 0 < l.2)
    (h : ((before ++ r :: behind).flatMap Run.lines).Pairwise fun k l => k.2 < l.2) :
    ((before ++ r :: behind).flatMap Run.lines).filter (fun k =>
      lastNumber (before.map Run.logical) < k.2 ∧ k.2 ≤ r.last.2) = r.lines := by
  rw [List.flatMap_append, List.flatMap_cons, ← List.append_assoc] at h ⊢
  obtain ⟨hfront, -, hbehind⟩ := List.pairwise_append.1 h
  obtain ⟨hlow, hhigh⟩ := lastNumber_spec hpos hfront
  have hlast := le_of_increasing (List.pairwise_append.1 hfront).2.1
  have hnone : (before.flatMap Run.lines).filter (fun k =>
      lastNumber (before.map Run.logical) < k.2 ∧ k.2 ≤ r.last.2) = [] := by
    rw [List.filter_eq_nil_iff]
    intro l hl
    simp [Nat.not_lt.2 (hlow l hl)]
  have hall : r.lines.filter (fun k =>
      lastNumber (before.map Run.logical) < k.2 ∧ k.2 ≤ r.last.2) = r.lines := by
    rw [List.filter_eq_self]
    intro l hl
    simp [hhigh l hl, hlast l hl]
  have hnone' : (behind.flatMap Run.lines).filter (fun k =>
      lastNumber (before.map Run.logical) < k.2 ∧ k.2 ≤ r.last.2) = [] := by
    rw [List.filter_eq_nil_iff]
    intro l hl
    have hlt := hbehind r.last (List.mem_append_right _ (by simp [Run.lines])) l hl
    simp [Nat.not_le.2 hlt]
  rw [List.filter_append, List.filter_append, hnone, hall, hnone', List.nil_append, List.append_nil]

end Increasing

/-- The logical lines of runs are exact for a document whose kept lines are those of the runs. -/
theorem exact_of_runs {content : Text} {runs : List Run}
    (h : Line.kept 1 (Text.lines content) = runs.flatMap Run.lines) :
    Exact content (runs.map Run.logical) := by
  have hincreasing := Line.kept_increasing 1 (Text.lines content)
  have hmem : ∀ r ∈ runs, ∀ k ∈ r.lines, k.1 ∈ Text.lines content ∧ 1 ≤ k.2 ∧
      k.2 < 1 + (Text.lines content).length ∧ Line.isDiscarded k.1 = false := by
    intro r hr k hk
    exact Line.mem_kept (h ▸ List.mem_flatMap.2 ⟨r, hr, hk⟩)
  rw [h] at hincreasing
  refine ⟨?_, increasing_of_runs hincreasing, ?_, ?_, ?_, ?_, ?_, ?_⟩
  · rw [h, Run.filter_continues, List.map_map, List.map_map]
    rfl
  · intro l hl
    obtain ⟨r, hr, rfl⟩ := List.mem_map.1 hl
    obtain ⟨-, hlow, hhigh, -⟩ := hmem r hr r.last (by simp [Run.lines])
    have hle : r.last.2 ≤ (Text.lines content).length := by omega
    exact ⟨hlow, hle⟩
  · intro before l behind hcut
    obtain ⟨runs₁, runs₂, rfl, rfl, hrest⟩ := List.map_eq_append_iff.1 hcut
    obtain ⟨r, runs₃, rfl, rfl, rfl⟩ := List.map_eq_cons_iff.1 hrest
    have hpos : ∀ k ∈ r.lines, 0 < k.2 := fun k hk => (hmem r (by simp) k hk).2.1
    rw [h, Run.logical, filter_lines hpos hincreasing]
  · intro l hl
    obtain ⟨r, -, rfl⟩ := List.mem_map.1 hl
    obtain ⟨c, t, htext, -⟩ := r.exists_text
    rw [htext]
    exact List.cons_ne_nil c t
  · intro l hl c hc
    obtain ⟨r, -, rfl⟩ := List.mem_map.1 hl
    obtain ⟨d, t, htext, hd⟩ := r.exists_text
    rw [htext] at hc
    exact Option.some.inj hc ▸ hd
  · intro l hl c hc
    obtain ⟨r, -, rfl⟩ := List.mem_map.1 hl
    exact Text.isBlank_of_getLast?_trimRight hc
  · intro l hl hnewline
    obtain ⟨r, hr, rfl⟩ := List.mem_map.1 hl
    obtain ⟨k, hk, hc⟩ := Run.mem_text hnewline
    exact (Text.mem_of_mem_lines (hmem r hr k hk).1 hc).2 rfl

/-- The last of the kept lines of runs does not continue. -/
theorem continues_getLast? {runs : List Run} {k : Text × Nat}
    (h : (runs.flatMap Run.lines).getLast? = some k) : Line.continues k.1 = false := by
  rcases List.eq_nil_or_concat runs with rfl | ⟨init, r, rfl⟩
  · cases h
  · rw [List.concat_eq_append, List.flatMap_append, List.flatMap_singleton, Run.lines,
      ← List.append_assoc, List.getLast?_concat] at h
    rw [← Option.some.inj h]
    exact r.continues_last

/-- **Extraction is exact.** It fails exactly if the last kept line continues, and the error carries
the number of that line. Otherwise the logical lines correspond one to one to the kept lines that
do not continue: they carry their numbers, in order, and each joins what the kept lines add from
behind the line before it up to its own. Every text has a first and a last character that is not
blank, and no line feed. -/
theorem extract_exact (content : Text) :
    (∀ e, extract content = .error e ↔
      ∃ k, (Line.kept 1 (Text.lines content)).getLast? = some k ∧ Line.continues k.1 ∧
        e = .openContinuation k.2) ∧
    ((∀ k, (Line.kept 1 (Text.lines content)).getLast? = some k → Line.continues k.1 = false) →
      ∃ ls, extract content = .ok ls ∧ Exact content ls) := by
  obtain ⟨runs, tail, hcut, htail, hextract⟩ := exists_runs_of_content content
  rw [hextract]
  rcases List.eq_nil_or_concat tail with rfl | ⟨init, k, rfl⟩
  · -- nothing is open: the last kept line is the last of a run
    rw [List.append_nil] at hcut
    refine ⟨fun e => ⟨fun h => (by cases h), ?_⟩, fun _ => ⟨_, rfl, exact_of_runs hcut⟩⟩
    rintro ⟨k, hk, hcontinues, -⟩
    rw [hcut] at hk
    rw [continues_getLast? hk] at hcontinues
    cases hcontinues
  · -- the last line that is open is the last kept line
    have hlast : (Line.kept 1 (Text.lines content)).getLast? = some k := by
      rw [hcut, List.concat_eq_append, ← List.append_assoc, List.getLast?_concat]
    have hcontinues : Line.continues k.1 := htail k (by simp)
    have herror : ofRuns runs (init.concat k) = .error (.openContinuation k.2) := by
      rw [ofRuns, List.concat_eq_append, List.getLast?_concat]
    rw [herror, hlast]
    refine ⟨fun e => ⟨?_, ?_⟩, ?_⟩
    · intro h
      exact ⟨k, rfl, hcontinues, (Except.error.inj h).symm⟩
    · rintro ⟨k', hk', -, rfl⟩
      rw [Option.some.inj hk']
    · intro h
      rw [h k rfl] at hcontinues
      cases hcontinues

end LogicalLine

end Dockerlint
