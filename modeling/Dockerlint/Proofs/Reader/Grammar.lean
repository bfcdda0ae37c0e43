import Dockerlint.Proofs.Operand.Blanks
import Dockerlint.Proofs.Operand.Located
import Dockerlint.Proofs.Operand.Trigger
import Dockerlint.Proofs.Reader.Scanner
import Dockerlint.Reader.Grammar

/-!
# What the grammars answer

The script of each form of argument is followed step by step beside the reader of the form. Every
loop of a script is shown to go the way of the reader's recursion, in fewer rounds than it may have,
because each round takes a part, and a part is not empty. A script that goes back stands where the
reader has not begun.

## Main definitions

* `Grammar.Finds`: scripts that find what a reader finds, or nothing
* `Grammar.Scripted`: flags that are told apart, with scripts for their values

## Main results

* `Grammar.answers_words`, `Grammar.answers_pairs`, `Grammar.answers_segments`: loops over words
* `Grammar.answers_options`: flags are read one by one, each at most once
* `Grammar.ends_operand`: every grammar gives what its reader gives
-/

namespace Dockerlint

namespace Grammar

open Script

variable {text rest mid behind : Text} {passes : Nat}

/-! ## Finding -/

section Finds

variable {α β : Type} {found : Option (α × Text)} {a : α} {b : β} {p : Script (Option α)}

/-- What the script answers is what a reader finds, and if there is something, the scanner stands
behind it. -/
def Finds (text : Text) (p : Script (Option α)) (rest : Text) (found : Option (α × Text)) : Prop :=
  ∃ left, Answers text p rest (found.map (·.1)) left ∧
    ∀ a behind, found = some (a, behind) → left = behind

theorem Finds.bind {s : Script β} {f : β → Script (Option α)} (hs : Answers text s rest b mid)
    (hf : Finds text (f b) mid found) : Finds text (s >>= f) rest found := by
  obtain ⟨left, hanswers, hleft⟩ := hf
  exact ⟨left, hs.bind hanswers, hleft⟩

theorem Finds.of_some (h : Answers text p rest (some a) behind) :
    Finds text p rest (some (a, behind)) := by
  refine ⟨behind, h, ?_⟩
  rintro _ _ ⟨⟩
  rfl

theorem Finds.of_none (h : Answers text p rest none mid) : Finds text p rest none :=
  ⟨mid, h, nofun⟩

theorem Finds.of_suffix (h : rest <:+ text → Finds text p rest found) :
    Finds text p rest found := by
  by_cases hrest : rest <:+ text
  · exact h hrest
  · exact ⟨(found.map (·.2)).getD rest, fun s hs => absurd hs.suffix hrest, by
      rintro a behind rfl
      rfl⟩

theorem Finds.answers (h : Finds text p rest (some (a, behind))) :
    Answers text p rest (some a) behind := by
  obtain ⟨left, hanswers, hleft⟩ := h
  obtain rfl := hleft a behind rfl
  exact hanswers

theorem Finds.exists_answers (h : Finds text p rest none) :
    ∃ left, Answers text p rest none left := by
  obtain ⟨left, hanswers, -⟩ := h
  exact ⟨left, hanswers⟩

end Finds

/-! ## Words -/

section Words

variable {stops : List Char} {w : Word}

theorem answers_word (h : Word.read stops rest = some (w, behind)) (taking : Taking) :
    Answers text (attempt (word stops taking)) rest (some (w.take taking)) behind :=
  (gives_word_some h taking).attempt

theorem answers_word_none (h : Word.read stops rest = none) (taking : Taking) :
    Answers text (attempt (word stops taking)) rest none rest :=
  (gives_word_none h taking).attempt_none

theorem computes_word (h : Word.read stops rest = some (w, behind)) (taking : Taking) :
    Computes text (word stops taking) rest (.ok (w.take taking, behind)) :=
  (gives_word_some h taking).computes

theorem computes_word_none (h : Word.read stops rest = none) (taking : Taking) :
    Computes text (word stops taking) rest (.error (.expected (.word stops) rest)) :=
  (gives_word_none h taking).computes

/-- A word behind blanks is shorter than what it was read from. -/
theorem length_lt_of_word (h : Word.read stops (Text.trimLeft rest) = some (w, behind)) :
    behind.length < rest.length :=
  Nat.lt_of_lt_of_le (Word.read_length_lt h) (Text.trimLeft_length_le rest)

theorem answers_words (stops : List Char) (hpasses : rest.length < passes) :
    Answers text (words stops passes) rest ((Word.readMany stops rest).1.map Word.written)
      (Word.readMany stops rest).2 := by
  induction passes generalizing rest with
  | zero => exact absurd hpasses (Nat.not_lt_zero _)
  | succ passes ih =>
    refine Answers.of_suffix fun hrest => answers_position.bind (answers_skip.bind ?_)
    rw [Word.readMany_eq]
    cases hword : Word.read stops (Text.trimLeft rest) with
    | none => exact (answers_word_none hword .written).bind ((answers_goTo hrest).bind (.pure []))
    | some found =>
      obtain ⟨w, behind⟩ := found
      -- a word takes something, so one round less is enough for what it leaves
      have hlength := length_lt_of_word hword
      exact (answers_word hword .written).bind ((ih (by omega)).bind (.pure _))

end Words

/-! ## Assignments -/

theorem answers_assigned : Answers text assigned rest (Assignments.readValue rest).1
    (Assignments.readValue rest).2 := by
  rw [Assignments.readValue]
  cases hword : Word.read [] rest with
  | none => exact (answers_word_none hword .value).bind (.pure [])
  | some found => exact (answers_word hword .value).bind (.pure _)

theorem answers_pairs (hpasses : rest.length < passes) :
    Answers text (pairs passes) rest (Assignments.readPairs rest).1
      (Assignments.readPairs rest).2 := by
  induction passes generalizing rest with
  | zero => exact absurd hpasses (Nat.not_lt_zero _)
  | succ passes ih =>
    refine Answers.of_suffix fun hrest => answers_position.bind (answers_skip.bind ?_)
    rw [Assignments.readPairs_eq]
    cases hword : Word.read ['='] (Text.trimLeft rest) with
    | none => exact (answers_word_none hword .value).bind ((answers_goTo hrest).bind (.pure []))
    | some found =>
      obtain ⟨key, after⟩ := found
      have hlength := length_lt_of_word hword
      refine (answers_word hword .value).bind ?_
      cases hequals : Text.after ['='] after with
      | none =>
        simp only [hequals]
        exact (answers_eat_none hequals).bind ((answers_goTo hrest).bind (.pure []))
      | some behind =>
        obtain rfl := Text.after_eq_some_iff.1 hequals
        -- the value may be empty; the key and the equals sign are not
        have hvalue := Assignments.readValue_length_le behind
        rw [List.length_append] at hlength
        simp only [hequals]
        exact (answers_eat hequals).bind (answers_assigned.bind ((ih (by omega)).bind (.pure _)))

theorem finds_oldStyle (hpasses : rest.length < passes) :
    Finds text (oldStyle passes) rest (Assignments.readOldStyle rest) := by
  rw [Assignments.readOldStyle]
  cases hword : Word.read [] rest with
  | none => exact .bind (answers_word_none hword .value) (.of_none (.pure none))
  | some found =>
    obtain ⟨key, after⟩ := found
    have hlength := Word.read_length_lt hword
    have hwords : Answers text (words [] passes) after ((Word.readMany [] after).1.map Word.written)
        (Word.readMany [] after).2 := answers_words [] (by omega)
    refine .bind (answers_word hword .value) (.bind hwords ?_)
    dsimp only
    cases Word.readMany [] after with
    | mk ws left =>
      cases ws with
      | nil => exact .of_none (.pure none)
      | cons w ws => exact .of_some (.pure _)

theorem ends_assignments (hpasses : rest.length < passes) :
    Ends text (assignments passes) rest (Assignments.read rest) := by
  refine Ends.of_suffix fun hrest => ?_
  have hstart : Text.trimLeft rest <:+ text := (Text.trimLeft_suffix rest).trans hrest
  have hlength := Text.trimLeft_length_le rest
  have hpairs : Answers text (pairs passes) (Text.trimLeft rest)
      (Assignments.readPairs (Text.trimLeft rest)).1
      (Assignments.readPairs (Text.trimLeft rest)).2 := answers_pairs (by omega)
  refine .bind (.lift answers_skip) (.bind (.lift answers_position) (.bind (.lift hpairs) ?_))
  rw [Assignments.read]
  cases hread : Assignments.readPairs (Text.trimLeft rest) with
  | mk ps left =>
    cases ps with
    | cons p ps => exact ends_finish _
    | nil =>
      -- the old style is tried from the beginning
      refine .bind (.lift (answers_goTo hstart)) ?_
      have holdStyle : Finds text (oldStyle passes) (Text.trimLeft rest)
          (Assignments.readOldStyle (Text.trimLeft rest)) := finds_oldStyle (by omega)
      dsimp only
      cases hold : Assignments.readOldStyle (Text.trimLeft rest) with
      | some found =>
        rw [hold] at holdStyle
        exact .bind (.lift holdStyle.answers) (ends_finish _)
      | none =>
        rw [hold] at holdStyle
        obtain ⟨left, hleft⟩ := holdStyle.exists_answers
        exact .bind (.lift hleft) (.throw (.expected .assignment (Text.trimLeft rest)))

/-! ## Ports and maintainers -/

/-- Behind a port the argument may end. -/
theorem ends_ports (found : Bool) (hpasses : rest.length < passes) :
    Ends text (ports passes found) rest
      (if found ∧ Text.trimLeft rest = [] then .ok [] else Ports.read rest) := by
  induction passes generalizing rest found with
  | zero => exact absurd hpasses (Nat.not_lt_zero _)
  | succ passes ih =>
    refine .bind (.lift answers_skip) (.bind (.lift answers_atEnd) ?_)
    -- the first round must find a port, and all others may find the end
    by_cases hend : found = true ∧ Text.trimLeft rest = []
    · rw [if_pos hend, if_pos (by simp [hend])]
      exact .pure []
    · have hgo : ¬ (found && decide (Text.trimLeft rest = [])) = true := by
        simpa using hend
      rw [if_neg hend, if_neg hgo, Ports.read_eq]
      refine .bind (.lift answers_position) ?_
      cases hword : Word.read [] (Text.trimLeft rest) with
      | none => exact .bind_error (computes_word_none hword .written)
      | some pair =>
        obtain ⟨w, behind⟩ := pair
        have hlength := length_lt_of_word hword
        refine .bind (computes_word hword .written) ?_
        dsimp only [Word.take]
        by_cases hport : Ports.isPort w.written = true
        · have hmore := (ih true (by omega : behind.length < passes)).map (w.written :: ·)
          rw [if_pos hport, if_pos hport]
          by_cases hlast : Text.trimLeft behind = []
          · rw [if_pos hlast]
            rwa [if_pos ⟨rfl, hlast⟩] at hmore
          · rw [if_neg hlast]
            rwa [if_neg (fun h => hlast h.2)] at hmore
        · rw [if_neg hport, if_neg hport]
          exact .throw (.expected .port (Text.trimLeft rest))

theorem ends_maintainers (hpasses : rest.length < passes) :
    Ends text (maintainers passes) rest (Maintainers.read rest) := by
  induction passes generalizing rest with
  | zero => exact absurd hpasses (Nat.not_lt_zero _)
  | succ passes ih =>
    refine Ends.of_suffix fun hrest => .bind (.lift answers_skip) ?_
    rw [Maintainers.read_eq]
    cases hword : Word.read [','] (Text.trimLeft rest) with
    | none => exact .bind_error (computes_word_none hword .written)
    | some found =>
      obtain ⟨w, after⟩ := found
      have hlength := length_lt_of_word hword
      have hafter : after <:+ text := ((Word.leaves_read [',']).trimLeft hword).trans hrest
      have hwords : Answers text (words [','] passes) after
          ((Word.readMany [','] after).1.map Word.written) (Word.readMany [','] after).2 :=
        answers_words [','] (by omega)
      have hmany := Word.suffix_readMany [','] after
      refine .bind (computes_word hword .written) (.bind (.lift hwords)
        (.bind (.lift answers_position) (.bind (.lift answers_skip) ?_)))
      dsimp only
      cases hcomma : Text.after [','] (Text.trimLeft (Word.readMany [','] after).2) with
      | none =>
        -- the blanks before a missing comma are given back, and skipped again at the end
        exact .bind (.lift (answers_eat_none hcomma))
          (.bind (.lift (answers_goTo (hmany.trans hafter))) (ends_finish _))
      | some behind =>
        have hbehind := congrArg List.length (Text.after_eq_some_iff.1 hcomma)
        have htrim := Text.trimLeft_length_le (Word.readMany [','] after).2
        have hle := hmany.length_le
        rw [List.length_append] at hbehind
        exact .bind (.lift (answers_eat hcomma)) ((ih (by omega)).map _)

/-! ## Images -/

theorem answers_segment_none (h : Image.readSegment rest = none) :
    Answers text segment rest none rest := by
  refine Answers.of_suffix fun hrest => answers_position.bind ?_
  rw [Image.readSegment] at h
  cases hword : Word.read ['/'] rest with
  | none => exact (answers_word_none hword .written).bind ((answers_goTo hrest).bind (.pure none))
  | some found =>
    obtain ⟨w, after⟩ := found
    rw [hword] at h
    have hslash := Option.map_eq_none_iff.1 h
    exact (answers_word hword .written).bind
      ((answers_eat_none hslash).bind ((answers_goTo hrest).bind (.pure none)))

theorem answers_segment {part : Text} (h : Image.readSegment rest = some (part, behind)) :
    Answers text segment rest (some part) behind := by
  refine answers_position.bind ?_
  rw [Image.readSegment] at h
  cases hword : Word.read ['/'] rest with
  | none =>
    rw [hword] at h
    cases h
  | some found =>
    obtain ⟨w, after⟩ := found
    rw [hword] at h
    obtain ⟨behind, hslash, hpair⟩ := Option.map_eq_some_iff.1 h
    obtain ⟨rfl, rfl⟩ := Prod.mk.inj hpair
    exact (answers_word hword .written).bind ((answers_eat hslash).bind (.pure _))

theorem answers_segments (hpasses : rest.length < passes) :
    Answers text (segments passes) rest (Image.readSegments rest).1
      (Image.readSegments rest).2 := by
  induction passes generalizing rest with
  | zero => exact absurd hpasses (Nat.not_lt_zero _)
  | succ passes ih =>
    rw [Image.readSegments_eq]
    cases hsegment : Image.readSegment rest with
    | none => exact (answers_segment_none hsegment).bind (.pure [])
    | some found =>
      obtain ⟨part, behind⟩ := found
      have hlength := congrArg List.length (Image.readSegment_eq_some hsegment).1
      rw [List.length_append, List.length_cons] at hlength
      exact (answers_segment hsegment).bind ((ih (by omega)).bind (.pure _))

theorem answers_tag : Answers text tag rest (Image.readTag rest).1 (Image.readTag rest).2 := by
  refine Answers.of_suffix fun hrest => answers_position.bind ?_
  rw [Image.readTag]
  cases hcolon : Text.after [':'] rest with
  | none => exact (answers_eat_none hcolon).bind (.pure none)
  | some behind =>
    refine (answers_eat hcolon).bind ?_
    rw [Option.bind_some]
    cases hword : Word.read [] behind with
    | none => exact (answers_word_none hword .written).bind ((answers_goTo hrest).bind (.pure none))
    | some found => exact (answers_word hword .written).bind (.pure _)

theorem answers_stageName :
    Answers text stageName rest (Image.readStageName rest).1 (Image.readStageName rest).2 := by
  refine Answers.of_suffix fun hrest => answers_position.bind (answers_skip.bind ?_)
  rw [Image.readStageName]
  cases has : Text.afterCaseless ['a', 's'] (Text.trimLeft rest) with
  | none => exact (answers_eatCaseless_none has).bind ((answers_goTo hrest).bind (.pure none))
  | some behind =>
    refine (answers_eatCaseless has).bind (answers_skip.bind ?_)
    rw [Option.bind_some]
    cases hword : Word.read [] (Text.trimLeft behind) with
    | none => exact (answers_word_none hword .written).bind ((answers_goTo hrest).bind (.pure none))
    | some found => exact (answers_word hword .written).bind (.pure _)

/-- The first segment is tried for by itself. -/
theorem exists_answers_names (hpasses : rest.length < passes) :
    ∃ mid, Answers text segment rest (Image.readSegments rest).1.head? mid ∧
      Answers text (segments passes) mid (Image.readSegments rest).1.tail
        (Image.readSegments rest).2 := by
  have hsegments : Answers text (segments passes) rest (Image.readSegments rest).1
      (Image.readSegments rest).2 := answers_segments hpasses
  rw [Image.readSegments_eq] at hsegments ⊢
  cases hsegment : Image.readSegment rest with
  | none =>
    rw [hsegment] at hsegments
    exact ⟨rest, answers_segment_none hsegment, hsegments⟩
  | some found =>
    obtain ⟨part, behind⟩ := found
    have hlength := congrArg List.length (Image.readSegment_eq_some hsegment).1
    rw [List.length_append, List.length_cons] at hlength
    exact ⟨behind, answers_segment hsegment, answers_segments (by omega)⟩

theorem ends_image (hpasses : rest.length < passes) :
    Ends text (image passes) rest (Image.read rest) := by
  refine Ends.of_suffix fun hrest => .bind (.lift answers_skip) (.bind (.lift answers_position) ?_)
  have hstart : Text.trimLeft rest <:+ text := (Text.trimLeft_suffix rest).trans hrest
  have hlength := Text.trimLeft_length_le rest
  obtain ⟨mid, hregistry, hnames⟩ : ∃ mid, Answers text segment (Text.trimLeft rest)
      (Image.readSegments (Text.trimLeft rest)).1.head? mid ∧ Answers text (segments passes) mid
        (Image.readSegments (Text.trimLeft rest)).1.tail
        (Image.readSegments (Text.trimLeft rest)).2 := exists_answers_names (by omega)
  have hcut := (Image.readSegments_spec (Text.trimLeft rest)).1
  refine .bind (.lift hregistry) (.bind (.lift hnames) ?_)
  rw [Image.read]
  dsimp only
  rw [Reader.word]
  cases hword : Word.read ['/', ':'] (Image.readSegments (Text.trimLeft rest)).2 with
  | none => exact .bind_error (computes_word_none hword .written)
  | some found =>
    obtain ⟨w, after⟩ := found
    -- the reference goes from the first segment to the end of the tag
    have hreference : (Image.readTag after).2 <:+ Text.trimLeft rest :=
      ((Image.suffix_readTag after).trans (Word.leaves_read _ hword)).trans ⟨_, hcut.symm⟩
    exact .bind (computes_word hword .written) (.bind (.lift answers_tag)
      (.bind (.lift (answers_slice hstart (Text.upTo_append_of_suffix hreference)))
        (.bind (.lift answers_stageName) (ends_finish _))))

/-! ## Flags -/

section Options

variable {ι : Type} {flags : List (Flag ι)}

/-- Flags of which no two can stand at one place. -/
def Apart (flags : List (Flag ι)) : Prop :=
  flags.Pairwise fun f g => ¬ f.opening <+: g.opening ∧ ¬ g.opening <+: f.opening

theorem pick_eq_none (h : ∀ f ∈ flags, Text.after f.opening rest = none) :
    Flag.pick rest flags = none := by
  induction flags with
  | nil => rfl
  | cons f flags ih =>
    obtain ⟨hf, hflags⟩ := List.forall_mem_cons.1 h
    rw [Flag.pick, Flag.read, hf, ih hflags]
    rfl

/-- One flag begins here, or none does. -/
theorem eatOne_cases (hflags : Apart flags) (text rest : Text) :
    (Answers text (eatOne flags) rest none rest ∧ Flag.pick rest flags = none) ∨
    ∃ f ∈ flags, ∃ others behind, others.Sublist flags ∧ Text.after f.opening rest = some behind ∧
      Answers text (eatOne flags) rest (some (f.kind, others)) behind ∧
      Flag.pick rest flags =
        (f.value behind).map fun (value, last) => ⟨f.kind, value, last, others⟩ := by
  induction flags with
  | nil => exact .inl ⟨.pure none, rfl⟩
  | cons f flags ih =>
    obtain ⟨hapart, htail⟩ := List.pairwise_cons.1 hflags
    rw [Flag.pick, Flag.read]
    cases hafter : Text.after f.opening rest with
    | some behind =>
      -- no other flag stands where this one does
      have hothers : ∀ g ∈ flags, Text.after g.opening rest = none := by
        intro g hg
        rw [Text.after_eq_none_iff]
        intro hprefix
        have hf : f.opening <+: rest := ⟨behind, (Text.after_eq_some_iff.1 hafter).symm⟩
        rcases List.prefix_or_prefix_of_prefix hf hprefix with h | h
        · exact (hapart g hg).1 h
        · exact (hapart g hg).2 h
      refine .inr ⟨f, List.mem_cons_self .., flags, behind, List.sublist_cons_self f flags, hafter,
        (answers_eat hafter).bind (.pure _), ?_⟩
      rw [pick_eq_none hothers, Option.bind_some]
      cases f.value behind with
      | none => rfl
      | some found => rfl
    | none =>
      rw [Option.bind_none]
      obtain ⟨hanswers, hpick⟩ | ⟨g, hg, others, behind, hsublist, hopening, hanswers, hpick⟩ :=
        ih htail
      · exact .inl ⟨(answers_eat_none hafter).bind (hanswers.bind (.pure none)), by rw [hpick]; rfl⟩
      · refine .inr ⟨g, List.mem_cons_of_mem f hg, f :: others, behind, hsublist.cons_cons f,
          hopening, (answers_eat_none hafter).bind (hanswers.bind (.pure _)), ?_⟩
        rw [hpick]
        cases g.value behind with
        | none => rfl
        | some found => rfl

/-- Flags that are told apart, with scripts for their values. -/
structure Scripted (text : Text) (value : ι → Script (Option Text)) (flags : List (Flag ι)) :
    Prop where
  apart : Apart flags
  opening_ne_nil : ∀ f ∈ flags, f.opening ≠ []
  leaves : ∀ f ∈ flags, Reader.Leaves f.value
  finds : ∀ f ∈ flags, ∀ rest, Finds text (value f.kind) rest (f.value rest)

theorem Scripted.sublist {value : ι → Script (Option Text)} (h : Scripted text value flags)
    {others : List (Flag ι)} (hothers : others.Sublist flags) : Scripted text value others where
  apart := h.apart.sublist hothers
  opening_ne_nil := fun f hf => h.opening_ne_nil f (hothers.subset hf)
  leaves := fun f hf => h.leaves f (hothers.subset hf)
  finds := fun f hf => h.finds f (hothers.subset hf)

/-- **Flags are read as one by one**, in as many rounds as the text is long, because each of them
takes its beginning. -/
theorem answers_options {value : ι → Script (Option Text)} (h : Scripted text value flags)
    (hpasses : rest.length < passes) :
    Answers text (options value passes flags) rest (Flag.readAll flags rest).1
      (Flag.readAll flags rest).2 := by
  induction passes generalizing rest flags with
  | zero => exact absurd hpasses (Nat.not_lt_zero _)
  | succ passes ih =>
    refine Answers.of_suffix fun hrest => answers_position.bind (answers_skip.bind ?_)
    rw [Flag.readAll_eq]
    obtain ⟨hanswers, hpick⟩ | ⟨f, hf, others, behind, hothers, hopening, hanswers, hpick⟩ :=
      eatOne_cases h.apart text (Text.trimLeft rest)
    · rw [hpick]
      exact hanswers.bind ((answers_goTo hrest).bind (.pure []))
    · refine hanswers.bind ?_
      rw [hpick]
      dsimp only
      have hfinds := h.finds f hf behind
      cases hvalue : f.value behind with
      | none =>
        rw [hvalue] at hfinds
        -- a value that does not fit may be read in part; all of the flag is given back
        obtain ⟨left, hleft⟩ := hfinds.exists_answers
        exact hleft.bind ((answers_goTo hrest).bind (.pure []))
      | some found =>
        obtain ⟨v, last⟩ := found
        rw [hvalue] at hfinds
        have hlast := (h.leaves f hf hvalue).length_le
        have hlength := congrArg List.length (Text.after_eq_some_iff.1 hopening)
        have hpos := List.length_pos_iff.2 (h.opening_ne_nil f hf)
        have htrim := Text.trimLeft_length_le rest
        rw [List.length_append] at hlength
        exact hfinds.answers.bind ((ih (h.sublist hothers) (by omega)).bind (.pure _))

end Options

theorem finds_written (rest : Text) :
    Finds text (attempt (word [] .written)) rest (Transfer.readOrigin rest) := by
  rw [Transfer.readOrigin]
  cases hword : Word.read [] rest with
  | none => exact .of_none (answers_word_none hword .written)
  | some found => exact .of_some (answers_word hword .written)

theorem finds_setting (k : Healthcheck.Setting) (rest : Text) :
    Finds text (settingValue k) rest (Healthcheck.readSetting rest) :=
  .bind answers_skip (finds_written (Text.trimLeft rest))

theorem finds_owner (rest : Text) : Finds text owner rest (Transfer.readOwner rest) := by
  refine Finds.of_suffix fun hrest => .bind answers_position ?_
  rw [Transfer.readOwner]
  cases huser : Word.read [':'] rest with
  | none => exact .bind (answers_word_none huser .written) (.of_none (.pure none))
  | some found =>
    obtain ⟨user, after⟩ := found
    refine .bind (answers_word huser .written) ?_
    dsimp only
    cases hcolon : Text.after [':'] after with
    | none => exact .bind (answers_eat_none hcolon) (.of_none (.pure none))
    | some behind =>
      refine .bind (answers_eat hcolon) ?_
      rw [Option.bind_some]
      cases hgroup : Word.read [] behind with
      | none => exact .bind (answers_word_none hgroup .written) (.of_none (.pure none))
      | some found =>
        obtain ⟨group, last⟩ := found
        have hcut : (user.written ++ ':' :: group.written) ++ last = rest := by
          rw [(Word.read_eq_some huser).1, Text.after_eq_some_iff.1 hcolon,
            (Word.read_eq_some hgroup).1]
          simp
        exact .bind (answers_word hgroup .written)
          (.bind (answers_slice hrest hcut) (.of_some (.pure _)))

theorem scripted_transfer : Scripted text transferValue Transfer.flags where
  apart := by
    rw [Apart]
    decide
  opening_ne_nil := by decide
  leaves := Transfer.leaves_flags
  finds := by
    intro f hf rest
    simp only [Transfer.flags, List.mem_cons, List.not_mem_nil, or_false] at hf
    rcases hf with rfl | rfl
    · exact finds_owner rest
    · exact finds_written rest

theorem scripted_settings : Scripted text settingValue Healthcheck.flags where
  apart := by
    rw [Apart]
    decide
  opening_ne_nil := by decide
  leaves := Healthcheck.leaves_flags
  finds := by
    intro f hf rest
    obtain ⟨k, -, rfl⟩ := List.mem_map.1 hf
    exact finds_setting k rest

/-! ## Transfers -/

theorem computes_paths (hpasses : rest.length < passes) :
    Computes text (paths passes) rest ((Transfer.readPaths rest).map fun ps => (ps, [])) := by
  induction passes generalizing rest with
  | zero => exact absurd hpasses (Nat.not_lt_zero _)
  | succ passes ih =>
    have hpath : Gives text (path (passes + 1)) rest (Part.path.read rest) := gives_path hpasses
    rw [Part.read, Reader.path] at hpath
    rw [Transfer.readPaths_eq]
    cases hread : Path.read rest with
    | none =>
      rw [hread] at hpath
      exact .bind_error hpath.computes
    | some found =>
      obtain ⟨first, behind⟩ := found
      have hlength := Path.read_length_lt hread
      have htrim := Text.trimLeft_length_le behind
      rw [hread] at hpath
      refine .bind hpath.computes (.bind (.lift answers_skip) (.bind (.lift answers_atEnd) ?_))
      dsimp only
      by_cases hend : Text.trimLeft behind = []
      · rw [if_pos (decide_eq_true hend), if_pos hend, hend]
        exact .pure [first]
      · have hmore := ih (by omega : (Text.trimLeft behind).length < passes)
        rw [if_neg (by simpa using hend), if_neg hend]
        cases hpaths : Transfer.readPaths (Text.trimLeft behind) with
        | error m =>
          rw [hpaths] at hmore
          exact .bind_error hmore
        | ok ps =>
          rw [hpaths] at hmore
          exact .bind hmore (.pure _)

theorem ends_shellParts (hpasses : rest.length < passes) :
    Ends text (shellParts passes) rest (Transfer.readShell rest) := by
  have hpaths : Computes text (paths passes) rest
      ((Transfer.readPaths rest).map fun ps => (ps, [])) := computes_paths hpasses
  rw [Transfer.readShell]
  cases hread : Transfer.readPaths rest with
  | error m =>
    rw [hread] at hpaths
    exact .bind_error hpaths
  | ok ps =>
    rw [hread] at hpaths
    refine .bind hpaths ?_
    dsimp only
    cases Transfer.divide ps with
    | none => exact .bind (.lift answers_position) (.throw (.expected .path []))
    | some parts => exact .pure parts

theorem ends_arrayParts (hpasses : rest.length < passes) :
    Ends text (arrayParts passes) rest (Transfer.readArray rest) := by
  have harray : Gives text (array passes .doubleOnly) rest
      ((Part.array .doubleOnly).read rest) := gives_array hpasses .doubleOnly
  rw [Part.read] at harray
  rw [Transfer.readArray]
  cases hread : Reader.array .doubleOnly rest with
  | error m =>
    rw [hread] at harray
    exact .bind_error harray.computes
  | ok found =>
    obtain ⟨es, behind⟩ := found
    rw [hread] at harray
    refine .bind harray.computes ?_
    dsimp only
    cases Transfer.divide (es.map (·.value)) with
    | none => exact .bind (.lift answers_position) (.throw (.expected .sourceAndDestination behind))
    | some parts => exact ends_finish parts

/-- The failure that is further on is the mismatch that is. -/
theorem furthest_failure {m n : Mismatch} (hm : m.Within text) (hn : n.Within text) :
    (m.failure text).furthest (n.failure text) = (m.furthest n).failure text := by
  obtain ⟨left, hleft, hl⟩ := hm
  obtain ⟨right, hright, hr⟩ := hn
  have hiff := Text.offset_lt_iff hl hr
  simp only [Failure.furthest, Mismatch.furthest, Mismatch.failure, hleft, hright, Option.elim,
    hiff]
  split
  · rw [hright]
  · rw [hleft]

theorem ends_parts (hpasses : rest.length < passes) :
    Ends text (parts passes) rest (Transfer.readParts rest) := by
  refine Ends.of_suffix fun hrest => .bind (.lift answers_position) ?_
  obtain ⟨mid, harray⟩ : Ends text (arrayParts passes) rest (Transfer.readArray rest) :=
    ends_arrayParts hpasses
  obtain ⟨last, hshell⟩ : Ends text (shellParts passes) rest (Transfer.readShell rest) :=
    ends_shellParts hpasses
  refine .bind (.lift harray) ?_
  rw [Transfer.readParts]
  cases hm : Transfer.readArray rest with
  | ok parts => exact .pure parts
  | error m =>
    -- the other form is tried from the same place
    refine .bind (.lift (answers_goTo hrest)) (.bind (.lift hshell) ?_)
    dsimp only
    cases hn : Transfer.readShell rest with
    | ok parts => exact .pure parts
    | error n =>
      have hwithin := furthest_failure ((Transfer.located_readArray hm).mono hrest)
        ((Transfer.located_readShell hn).mono hrest)
      simp only [Except.mapError, hwithin]
      exact .throw (m.furthest n)

theorem ends_transfer (hpasses : rest.length < passes) :
    Ends text (transfer passes) rest (Transfer.read rest) := by
  have hflags : Answers text (options transferValue passes Transfer.flags) rest
      (Flag.readAll Transfer.flags rest).1 (Flag.readAll Transfer.flags rest).2 :=
    answers_options scripted_transfer hpasses
  have hlength := (Flag.suffix_readAll Transfer.leaves_flags rest).length_le
  have htrim := Text.trimLeft_length_le (Flag.readAll Transfer.flags rest).2
  refine .bind (.lift hflags) (.bind (.lift answers_skip) ?_)
  exact (ends_parts (by omega)).map _

/-! ## Health checks -/

theorem ends_check : Ends text check rest (Healthcheck.readCheck rest) := by
  refine .bind (.lift answers_position) ?_
  rw [Healthcheck.readCheck]
  cases hnone : Text.after (Text.ofString "NONE") rest with
  | some behind => exact .bind (.lift (answers_eat hnone)) (ends_finish none)
  | none =>
    refine .bind (.lift (answers_eat_none hnone)) ?_
    dsimp only
    cases hcmd : Text.after (Text.ofString "CMD") rest with
    | none => exact .bind (.lift (answers_eat_none hcmd)) (.throw (.expected .noneOrCmd rest))
    | some behind =>
      refine .bind (.lift (answers_eat hcmd)) (.bind (.lift answers_rest) ?_)
      rw [Option.bind_some]
      cases Healthcheck.readCommand behind with
      | none => exact .throw (.expected .noneOrCmd rest)
      | some command => exact .pure _

theorem ends_healthcheck (hpasses : rest.length < passes) :
    Ends text (healthcheck passes) rest (Healthcheck.read rest) := by
  have hflags : Answers text (options settingValue passes Healthcheck.flags) rest
      (Flag.readAll Healthcheck.flags rest).1 (Flag.readAll Healthcheck.flags rest).2 :=
    answers_options scripted_settings hpasses
  exact .bind (.lift hflags) (.bind (.lift answers_skip) (ends_check.map _))

/-! ## Commands, pairs and single parts -/

theorem ends_command (hpasses : rest.length < passes) :
    Ends text (command passes) rest (Command.read rest) := by
  have htrim := Text.trimLeft_length_le rest
  have harray : Gives text (array passes .any) (Text.trimLeft rest)
      ((Part.array .any).read (Text.trimLeft rest)) := gives_array (by omega) .any
  refine .bind (.lift answers_skip) (.bind (.lift answers_rest) ?_)
  rw [Part.read] at harray
  rw [Command.read]
  by_cases hopening : (Text.trimLeft rest).head? = some '['
  · rw [if_pos hopening, if_pos hopening]
    cases hread : Reader.array .any (Text.trimLeft rest) with
    | error m =>
      rw [hread] at harray
      exact .bind_error harray.computes
    | ok found =>
      rw [hread] at harray
      exact .bind harray.computes (ends_finish _)
  · rw [if_neg hopening, if_neg hopening]
    exact .pure _

theorem ends_pair (sep : Char) : Ends text (pair sep) rest (Pair.read sep rest) := by
  refine Ends.of_suffix fun hrest => .bind (.lift answers_skip) ?_
  rw [Pair.read, Reader.word]
  cases hword : Word.read [sep] (Text.trimLeft rest) with
  | none => exact .bind_error (computes_word_none hword .written)
  | some found =>
    obtain ⟨first, after⟩ := found
    have hafter : after <:+ text := ((Word.leaves_read [sep]).trimLeft hword).trans hrest
    refine .bind (computes_word hword .written) (.bind (.lift answers_position) ?_)
    simp only [Expectation.require, Pair.readSecond]
    cases hsep : Text.after [sep] after with
    | none => exact .bind (.lift (answers_eat_none hsep)) (ends_finish _)
    | some behind =>
      refine .bind (.lift (answers_eat hsep)) ?_
      rw [Option.bind_some]
      cases hsecond : Word.read [] behind with
      | none =>
        exact .bind (.lift (answers_word_none hsecond .written))
          (.bind (.lift (answers_goTo hafter)) (ends_finish _))
      | some found => exact .bind (.lift (answers_word hsecond .written)) (ends_finish _)

theorem ends_stopSignal : Ends text stopSignal rest (StopSignal.read rest) := by
  refine .bind (.lift answers_skip) ?_
  rw [StopSignal.read, Reader.word]
  cases hword : Word.read [] (Text.trimLeft rest) with
  | none => exact .bind_error (computes_word_none hword .written)
  | some found => exact .bind (computes_word hword .written) (ends_finish _)

theorem ends_workdir (hpasses : rest.length < passes) :
    Ends text (workdir passes) rest (Workdir.read rest) := by
  have htrim := Text.trimLeft_length_le rest
  have hpath : Gives text (path passes) (Text.trimLeft rest)
      (Part.path.read (Text.trimLeft rest)) := gives_path (by omega)
  refine .bind (.lift answers_skip) ?_
  rw [Part.read] at hpath
  rw [Workdir.read]
  cases hread : Reader.path (Text.trimLeft rest) with
  | error m =>
    rw [hread] at hpath
    exact .bind_error hpath.computes
  | ok found =>
    rw [hread] at hpath
    exact .bind hpath.computes (ends_finish _)

/-- **Every grammar gives what its reader gives**, and each of its loops ends within as many rounds
as the text is long. -/
theorem ends_operand (f : Form) (hpasses : rest.length < passes) :
    Ends text (operand passes f) rest (f.read rest) := by
  cases f with
  | assignments => exact (ends_assignments hpasses).map _
  | command => exact (ends_command hpasses).map _
  | healthcheck => exact (ends_healthcheck hpasses).map _
  | image => exact (ends_image hpasses).map _
  | maintainers => exact (ends_maintainers hpasses).map _
  | parameter => exact (ends_pair '=').map _
  | ports =>
    have hports : Ends text (ports passes false) rest (Ports.read rest) := ends_ports false hpasses
    exact hports.map _
  | stopSignal => exact ends_stopSignal.map _
  | transfer => exact (ends_transfer hpasses).map _
  | user => exact (ends_pair ':').map _
  | workdir => exact (ends_workdir hpasses).map _

end Grammar

end Dockerlint
