import Dockerlint.Proofs.Reader.Grammar

/-!
# Scanning stays inside the argument

A scanner stands between two characters of its text wherever scripts bring it, so no script ever
cuts a character. A part that is read takes at least one byte, and a part that cannot be read leaves
the scanner where it was and fails somewhere between there and the end. That is why every loop ends:
each of its rounds takes a part. What is reported is what the readers report, so each column lies in
the argument or directly behind it, also where the failure is one of a wrapped instruction.

## Main definitions

* `Scanner.Request`, `Scanner.act`: what scripts ask of a scanner
* `Scanner.Reachable`: the scanners that requests lead to, with the places they came through
* `Scanner.Safe`: what scripts rely on at a place

## Main results

* `Scanner.Reachable.safe`: every scanner that requests lead to is safe
* `Grammar.parse_eq`: the scripts give what the readers give
* `Grammar.scanning_safe`: no cut character, no endless loop, no column outside the argument
-/

namespace Dockerlint

/-! ## Parts -/

namespace Part

variable {k : Kind} {part : Part k} {t behind : Text} {content : k.Content} {m : Mismatch}

/-- A part is not empty. -/
theorem length_lt_of_read (h : part.read t = .ok (content, behind)) :
    behind.length < t.length := by
  cases part with
  | word stops taking =>
    obtain ⟨⟨w, rest⟩, hw, hpair⟩ := exists_of_map_eq_ok h
    obtain ⟨-, rfl⟩ := Prod.mk.inj hpair
    exact Word.read_length_lt (Expectation.require_eq_ok_iff.1 hw)
  | quoted q taking =>
    obtain ⟨⟨inner, rest⟩, hq, hpair⟩ := exists_of_map_eq_ok h
    obtain ⟨-, rfl⟩ := Prod.mk.inj hpair
    rw [Quoted.between_eq_some (Expectation.require_eq_ok_iff.1 hq)]
    simp only [List.length_cons, List.length_append]
    omega
  | path => exact Path.read_length_lt (Expectation.require_eq_ok_iff.1 h)
  | array quotes =>
    cases t with
    | nil => cases h
    | cons c t =>
      rw [Part.read, Reader.array] at h
      split at h
      · exact Nat.lt_succ_of_le (Reader.suffix_of_elements h).length_le
      · cases h

/-- A part that cannot be read fails in the text. -/
theorem within_of_read (h : part.read t = .error m) : m.Within t := by
  cases part with
  | word stops taking => exact Reader.located_word stops (eq_error_of_map_eq_error h)
  | quoted q taking => exact Reader.located_require _ _ (eq_error_of_map_eq_error h)
  | path => exact Reader.located_path h
  | array quotes => exact Reader.located_array quotes h

end Part

namespace Scanner

open Script

/-! ## Reachable scanners -/

/-- What scripts ask of a scanner. -/
inductive Request where
  /-- Reads a part. -/
  | read {k : Kind} (part : Part k)
  /-- Skips blanks. -/
  | skip
  /-- Takes a text, if it comes next. -/
  | eat (literal : Text)
  /-- Takes a text, if it comes next, up to the case of ASCII letters. -/
  | eatCaseless (literal : Text)
  /-- Skips blanks and requires the end of the text. -/
  | finish
  /-- Goes over the characters that come next and are all of one sort. -/
  | run (sort : Char → Bool)
  /-- Goes to a byte. -/
  | goTo (offset : Nat)

/-- Does what is asked, whatever comes of it. -/
def act (passes : Nat) : Request → Script Unit
  | .read part => do
    let _ ← (Script.read passes part).run
    return ()
  | .skip => Script.skip
  | .eat literal => do
    let _ ← Script.eat literal
    return ()
  | .eatCaseless literal => do
    let _ ← Script.eatCaseless literal
    return ()
  | .finish => do
    let _ ← Script.finish.run
    return ()
  | .run sort => do
    let start ← position
    let text ← rest
    Script.goTo (start + Text.bytes (text.takeWhile sort))
  | .goTo offset => Script.goTo offset

/-- The scanners of `text` that requests lead to, each with the bytes at which it stood. A request
goes back only to such a byte. -/
inductive Reachable (text : Text) (passes : Nat) : (seen : List Nat) → Scanner → Prop where
  | start : Reachable text passes [0] (start text)
  | step {seen : List Nat} {s t : Scanner} (request : Request) (h : Reachable text passes seen s)
      (hseen : ∀ offset, request = .goTo offset → offset ∈ seen)
      (hact : act passes request s = some ((), t)) : Reachable text passes (t.offset :: seen) t

/-- What scripts rely on where a scanner stands that has been at the bytes `seen`. -/
structure Safe (text : Text) (passes : Nat) (seen : List Nat) (s : Scanner) : Prop where
  /-- The scanner stands at one of the bytes. -/
  standing : s.offset ∈ seen
  /-- Each of them is a place between characters, inside the text. -/
  boundary : ∀ n ∈ seen, text.IsBoundary n ∧ n ≤ text.bytes
  /-- A part that is read moves the scanner forward. One that is not leaves it, and the failure lies
  between there and the end. -/
  read : ∀ {k : Kind} (part : Part k), ∃ t,
    (∃ content, (Script.read passes part).run s = some (.ok content, t) ∧
      s.offset < t.offset ∧ t.offset ≤ text.bytes) ∨
    ∃ f, (Script.read passes part).run s = some (.error f, t) ∧ t.offset = s.offset ∧
      s.offset ≤ f.offset ∧ f.offset ≤ text.bytes ∧ text.IsBoundary f.offset
  /-- Whatever is asked is done, without cutting a character. -/
  act : ∀ request, (∀ offset, request = .goTo offset → offset ∈ seen) →
    ∃ t, act passes request s = some ((), t)
  /-- The text can be cut out between any two of the bytes. -/
  slice : ∀ a ∈ seen, ∀ b ∈ seen, a ≤ b → (text.slice a b).isSome

variable {text : Text} {passes : Nat} {seen : List Nat} {s t : Scanner}

/-- What is asked is done, and leads to a tail of the text. -/
theorem exists_answers_act {rest : Text} (hpasses : rest.length < passes) (hrest : rest <:+ text)
    (request : Request)
    (hrequest : ∀ offset, request = .goTo offset →
      ∃ tail, tail <:+ text ∧ offset = text.offset tail) :
    ∃ left, Answers text (act passes request) rest () left := by
  cases request with
  | read part => exact ⟨_, Answers.bind (gives_read hpasses part) (.pure ())⟩
  | skip => exact ⟨_, answers_skip⟩
  | eat literal =>
    cases hafter : Text.after literal rest with
    | none => exact ⟨_, (answers_eat_none hafter).bind (.pure ())⟩
    | some behind => exact ⟨_, (answers_eat hafter).bind (.pure ())⟩
  | eatCaseless literal =>
    cases hafter : Text.afterCaseless literal rest with
    | none => exact ⟨_, (answers_eatCaseless_none hafter).bind (.pure ())⟩
    | some behind => exact ⟨_, (answers_eatCaseless hafter).bind (.pure ())⟩
  | finish =>
    obtain ⟨left, hfinish, -⟩ : Computes text Script.finish rest
        ((Reader.finish () rest).map fun a => (a, [])) := computes_finish
    exact ⟨left, hfinish.bind (.pure ())⟩
  | run sort =>
    have hcut : rest.takeWhile sort ++ rest.dropWhile sort = rest :=
      List.takeWhile_append_dropWhile
    have hoffset := Text.offset_of_append (hcut.symm ▸ hrest)
    rw [hcut] at hoffset
    refine ⟨rest.dropWhile sort, answers_position.bind (answers_rest.bind ?_)⟩
    rw [← hoffset]
    exact answers_goTo ((List.dropWhile_suffix sort).trans hrest)
  | goTo offset =>
    obtain ⟨tail, htail, rfl⟩ := hrequest offset rfl
    exact ⟨tail, answers_goTo htail⟩

/-- A request leads from one tail of the text to another. -/
theorem exists_act (hpasses : text.length < passes) {rest : Text} (hs : s.Stands text rest)
    (hseen : ∀ n ∈ seen, ∃ tail, tail <:+ text ∧ n = text.offset tail) (request : Request)
    (hrequest : ∀ offset, request = .goTo offset → offset ∈ seen) :
    ∃ left t, act passes request s = some ((), t) ∧ t.Stands text left := by
  have hlength := hs.suffix.length_le
  obtain ⟨left, hanswers⟩ : ∃ left, Answers text (act passes request) rest () left :=
    exists_answers_act (by omega) hs.suffix request
      fun offset hoffset => hseen offset (hrequest offset hoffset)
  obtain ⟨t, ht, hstands⟩ := hanswers s hs
  exact ⟨left, t, ht, hstands⟩

/-- **A reachable scanner stands at a tail of its text**, and so it did before. -/
theorem Reachable.stands (h : Reachable text passes seen s) (hpasses : text.length < passes) :
    (∃ rest, s.Stands text rest) ∧ s.offset ∈ seen ∧
      ∀ n ∈ seen, ∃ tail, tail <:+ text ∧ n = text.offset tail := by
  induction h with
  | start =>
    refine ⟨⟨text, stands_start text⟩, List.mem_cons_self .., fun n hn => ?_⟩
    obtain rfl := List.mem_singleton.1 hn
    exact ⟨text, List.suffix_refl text, text.offset_self.symm⟩
  | step request h hrequest hact ih =>
    obtain ⟨⟨rest, hs⟩, -, hseen⟩ := ih
    obtain ⟨left, t', ht', hstands⟩ := exists_act hpasses hs hseen request hrequest
    obtain rfl := (Prod.mk.inj (Option.some.inj (ht'.symm.trans hact))).2
    -- the new place joins those that a later request may go back to
    refine ⟨⟨left, hstands⟩, List.mem_cons_self .., fun n hn => ?_⟩
    rcases List.mem_cons.1 hn with rfl | hn
    · exact ⟨left, hstands.suffix, hstands.offset_eq⟩
    · exact hseen n hn

theorem Stands.read_cases {rest : Text} (hs : s.Stands text rest) (hpasses : text.length < passes)
    {k : Kind} (part : Part k) : ∃ t,
      (∃ content, (Script.read passes part).run s = some (.ok content, t) ∧
        s.offset < t.offset ∧ t.offset ≤ text.bytes) ∨
      ∃ f, (Script.read passes part).run s = some (.error f, t) ∧ t.offset = s.offset ∧
        s.offset ≤ f.offset ∧ f.offset ≤ text.bytes ∧ text.IsBoundary f.offset := by
  have hlength := hs.suffix.length_le
  obtain ⟨t, ht, hstands⟩ := gives_read (by omega : rest.length < passes) part s hs
  refine ⟨t, ?_⟩
  cases hread : part.read rest with
  | ok found =>
    obtain ⟨content, behind⟩ := found
    rw [hread] at ht hstands
    refine .inl ⟨content, ht, ?_, ?_⟩
    · rw [hs.offset_eq, hstands.offset_eq, Text.offset_lt_iff hs.suffix hstands.suffix]
      exact part.length_lt_of_read hread
    · rw [hstands.offset_eq]
      exact Nat.sub_le ..
  | error m =>
    rw [hread] at ht hstands
    obtain ⟨left, hleft, hsuffix⟩ := part.within_of_read hread
    have hfailure : (m.failure text).offset = text.offset left := by
      rw [Mismatch.failure, hleft]
      rfl
    have hboundary := Text.isBoundary_offset (hsuffix.trans hs.suffix)
    refine .inr ⟨m.failure text, ht, hstands.offset_eq.trans hs.offset_eq.symm, ?_, ?_, ?_⟩
    · rw [hfailure, hs.offset_eq]
      exact Text.offset_le_of_suffix hs.suffix hsuffix
    · rw [hfailure]
      exact hboundary.le_bytes
    · rw [hfailure]
      exact hboundary

/-- **Every scanner that requests lead to is safe.** -/
theorem Reachable.safe (h : Reachable text passes seen s) (hpasses : text.length < passes) :
    s.Safe text passes seen := by
  obtain ⟨⟨rest, hs⟩, hstanding, hseen⟩ := h.stands hpasses
  refine ⟨hstanding, fun n hn => ?_, fun part => hs.read_cases hpasses part,
    fun request hrequest => ?_, fun a ha b hb hle => ?_⟩
  · obtain ⟨tail, htail, rfl⟩ := hseen n hn
    exact ⟨Text.isBoundary_offset htail, (Text.isBoundary_offset htail).le_bytes⟩
  · obtain ⟨left, t, ht, -⟩ := exists_act hpasses hs hseen request hrequest
    exact ⟨t, ht⟩
  · obtain ⟨r, hr, rfl⟩ := hseen a ha
    obtain ⟨r', hr', rfl⟩ := hseen b hb
    have hlength : r'.length ≤ r.length := by
      refine Nat.le_of_not_lt fun hlt => ?_
      exact absurd ((Text.offset_lt_iff hr' hr).2 hlt) (Nat.not_lt_of_le hle)
    rw [Text.slice_offset hr (Text.suffix_of_length_le hr hr' hlength)]
    rfl

end Scanner

/-! ## What is reported -/

/-- A mismatch as it is reported. -/
def Mismatch.reported (argument : Text) (m : Mismatch) : SyntaxFailure :=
  ⟨m.message, m.column argument⟩

namespace Grammar

open Script

variable {argument text rest : Text} {passes : Nat} {m : Mismatch}

/-- The column of a failure counts the characters in front of it. -/
theorem report_failure (h : m.Within argument) :
    report argument (m.failure argument) = some (m.reported argument) := by
  obtain ⟨rest, hrest, hsuffix⟩ := h
  obtain ⟨before, rfl⟩ := hsuffix
  have hfailure : (m.failure (before ++ rest)).offset = Text.bytes before := by
    rw [Mismatch.failure, hrest]
    exact Text.offset_append before rest
  have hmin : min (Text.bytes before) (Text.bytes (before ++ rest)) = Text.bytes before := by
    rw [Text.bytes_append]
    omega
  have hcolumn : m.column (before ++ rest) = some (before.length + 1) := by
    rw [Mismatch.column, hrest, Option.map_some, List.length_append, Nat.add_sub_cancel]
  rw [report, Failure.column, hfailure, hmin, Text.toByte_append, Mismatch.reported, hcolumn]
  rfl

theorem parseForm_eq (f : Form) (hpasses : argument.length < passes) :
    parseForm passes f argument =
      some ((f.read argument).mapError (Mismatch.reported argument)) := by
  obtain ⟨left, hanswers⟩ : Ends argument (operand passes f) argument (f.read argument) :=
    ends_operand f hpasses
  obtain ⟨t, ht, -⟩ := hanswers (Scanner.start argument) (Scanner.stands_start argument)
  rw [parseForm, ht]
  cases hread : f.read argument with
  | ok operand => rfl
  | error m =>
    simp only [Except.mapError, report_failure (f.located_read hread)]
    rfl

theorem computes_argumentOffset :
    Computes text argumentOffset rest
      (if Text.startsBlank rest then .ok (text.offset (Text.trimLeft rest), Text.trimLeft rest)
        else .error (.expected .whitespace rest)) := by
  refine .bind (.lift answers_rest) ?_
  by_cases hblank : Text.startsBlank rest = true
  · rw [if_pos hblank, if_pos hblank]
    exact .bind (.lift answers_skip) (.lift answers_position)
  · rw [if_neg hblank, if_neg hblank]
    exact .bind (.lift answers_position) (.throw (.expected .whitespace rest))

/-- The keyword and its argument are found where they are wrapped, or it is reported why not. -/
theorem trigger_cases (hrest : rest <:+ text) :
    (∃ m, Ends text trigger rest (.error m) ∧ Args.wrapped rest = .error m ∧ m.Within rest) ∨
    ∃ word inner, Ends text trigger rest (.ok (word, text.offset inner)) ∧ inner <:+ rest ∧
      Args.wrapped rest = match Keyword.ofText? word with
        | none => .error (.unknownKeyword word)
        | some k => .ok (k, inner) := by
  -- the text behind the blanks, its letters and what follows them
  obtain ⟨start, hstart⟩ : ∃ start, Text.trimLeft rest = start := ⟨_, rfl⟩
  obtain ⟨word, hword⟩ : ∃ word, start.takeWhile Char.isUpper = word := ⟨_, rfl⟩
  obtain ⟨behind, hbehind⟩ : ∃ behind, start.dropWhile Char.isUpper = behind := ⟨_, rfl⟩
  have hcut : word ++ behind = start := by
    rw [← hword, ← hbehind, List.takeWhile_append_dropWhile]
  have hsuffix : start <:+ rest := hstart ▸ Text.trimLeft_suffix rest
  have hsuffix' : behind <:+ start := hcut ▸ List.suffix_append word behind
  have hoffset : text.offset behind = text.offset start + Text.bytes word := by
    subst hcut
    exact Text.offset_of_append (hsuffix.trans hrest)
  have hbegin : ∀ {f : Nat → Text → Attempt (Text × Nat)} {o : Except Mismatch (Text × Nat)},
      Ends text (f (text.offset start) start) start o →
      Ends text (do skip; let s ← position; let t ← Script.rest; f s t) rest o := by
    subst hstart
    exact fun h => .bind (.lift answers_skip)
      (.bind (.lift answers_position) (.bind (.lift answers_rest) h))
  rw [Args.wrapped]
  simp only [hstart, hword, hbehind]
  cases hfind : Args.unwrappable.find? fun k => Text.startsWith k.text start with
  | some k =>
    refine .inl ⟨.unwanted k start, hbegin ?_, rfl, ⟨start, rfl, hsuffix⟩⟩
    simp only [hfind]
    exact .throw (.unwanted k start)
  | none =>
    by_cases hnil : word = []
    · refine .inl ⟨.expected .keyword start, hbegin ?_, by rw [if_pos hnil], ⟨start, rfl, hsuffix⟩⟩
      simp only [hfind, hword, hnil]
      exact .throw (.expected .keyword start)
    · have hlength : Text.bytes word ≠ 0 := fun hzero => hnil (Text.bytes_eq_zero_iff.1 hzero)
      have hgo : Answers text (goTo (text.offset start + Text.bytes word)) start () behind := by
        rw [← hoffset]
        exact answers_goTo (hsuffix'.trans (hsuffix.trans hrest))
      have hslice : Answers text (slice (text.offset start)) behind word behind :=
        answers_slice (hsuffix.trans hrest) hcut
      have hargument : Computes text argumentOffset behind _ := computes_argumentOffset
      rw [if_neg hnil]
      by_cases hblank : Text.startsBlank behind = true
      · rw [if_pos hblank] at hargument ⊢
        refine .inr ⟨word, Text.trimLeft behind, hbegin ?_,
          (Text.trimLeft_suffix behind).trans (hsuffix'.trans hsuffix), rfl⟩
        simp only [hfind, hword, if_neg hlength]
        exact .bind (.lift hgo) (.bind (.lift hslice) (.bind hargument (.pure _)))
      · rw [if_neg hblank] at hargument ⊢
        refine .inl ⟨.expected .whitespace behind, hbegin ?_, rfl,
          ⟨behind, rfl, hsuffix'.trans hsuffix⟩⟩
        simp only [hfind, hword, if_neg hlength]
        exact .bind (.lift hgo) (.bind (.lift hslice) (.bind_error hargument))

theorem parseTrigger_eq (hpasses : argument.length < passes) :
    parseTrigger passes argument =
      some ((Args.readTrigger argument).mapError (Mismatch.reported argument)) := by
  rw [parseTrigger]
  obtain ⟨m, ⟨left, hanswers⟩, hwrapped, hwithin⟩ |
      ⟨word, inner, ⟨left, hanswers⟩, hinner, hwrapped⟩ := trigger_cases (List.suffix_refl argument)
  · obtain ⟨t, ht, -⟩ := hanswers (Scanner.start argument) (Scanner.stands_start argument)
    rw [ht, Args.readTrigger_eq, hwrapped]
    simp only [Except.mapError, report_failure hwithin]
    rfl
  · obtain ⟨t, ht, -⟩ := hanswers (Scanner.start argument) (Scanner.stands_start argument)
    rw [ht]
    dsimp only [Except.mapError]
    cases hk : Keyword.ofText? word with
    | none =>
      rw [hk] at hwrapped
      rw [Args.readTrigger_eq, hwrapped]
      rfl
    | some k =>
      rw [hk] at hwrapped
      obtain ⟨f, hf⟩ := Args.exists_form_of_wrapped hwrapped
      obtain ⟨before, rfl⟩ := hinner
      have hcut : Text.splitByte (before ++ inner) (Text.offset (before ++ inner) inner) =
          some (before, inner) :=
        Text.splitByte_eq_some_iff.2 ⟨rfl, Text.offset_append before inner⟩
      have hparse : parseForm passes f inner =
          some ((f.read inner).mapError (Mismatch.reported inner)) := by
        rw [List.length_append] at hpasses
        exact parseForm_eq f (by omega)
      rw [Args.readTrigger_of_wrapped hwrapped hf, Args.read_eq_of_form hf,
        Keyword.text_of_ofText? hk]
      simp only [hf, hcut, hparse]
      cases hread : f.read inner with
      | ok operand => rfl
      | error m =>
        -- the column is moved by what stands in front of the argument
        obtain ⟨c, hc, hmoved⟩ := (f.located_read hread).column_append before
        simp only [Except.mapError, Except.map, Option.map_some, Mismatch.reported, hc, hmoved]

/-- **The scripts give what the readers give**, with the columns of the readers. -/
theorem parse_eq (k : Keyword) (hpasses : argument.length < passes) :
    parse passes k argument =
      some ((Args.read k argument).mapError (Mismatch.reported argument)) := by
  rw [parse, Args.read]
  cases k.form? with
  | none => exact parseTrigger_eq hpasses
  | some f =>
    simp only [parseForm_eq f hpasses]
    cases f.read argument with
    | ok operand => rfl
    | error m => rfl

/-! ## Loops -/

/-- The loops of the grammars. -/
inductive Loop where
  /-- The elements of an array. -/
  | elements (quotes : ElementQuotes)
  /-- The words of a value in the old style, or of a maintainer. -/
  | words (stops : List Char)
  /-- The assignments of an argument. -/
  | pairs
  /-- The ports of an argument. -/
  | ports (found : Bool)
  /-- The maintainers of an argument. -/
  | maintainers
  /-- The segments of an image. -/
  | segments
  /-- The flags of a transfer. -/
  | transferFlags
  /-- The flags of a health check. -/
  | settings
  /-- The sources and the destination of a transfer. -/
  | paths

/-- Goes through a loop, whatever comes of it. -/
def runLoop (passes : Nat) : Loop → Script Unit
  | .elements quotes => do
    let _ ← (elements quotes passes).run
    return ()
  | .words stops => do
    let _ ← words stops passes
    return ()
  | .pairs => do
    let _ ← pairs passes
    return ()
  | .ports found => do
    let _ ← (ports passes found).run
    return ()
  | .maintainers => do
    let _ ← (maintainers passes).run
    return ()
  | .segments => do
    let _ ← segments passes
    return ()
  | .transferFlags => do
    let _ ← options transferValue passes Transfer.flags
    return ()
  | .settings => do
    let _ ← options settingValue passes Healthcheck.flags
    return ()
  | .paths => do
    let _ ← (paths passes).run
    return ()

theorem exists_answers_runLoop (loop : Loop) (hpasses : rest.length < passes) :
    ∃ left, Answers text (runLoop passes loop) rest () left := by
  cases loop with
  | elements quotes =>
    obtain ⟨left, h, -⟩ : Computes text (elements quotes passes) rest _ :=
      computes_elements quotes hpasses
    exact ⟨left, h.bind (.pure ())⟩
  | words stops => exact ⟨_, (answers_words stops hpasses).bind (.pure ())⟩
  | pairs => exact ⟨_, (answers_pairs hpasses).bind (.pure ())⟩
  | ports found =>
    obtain ⟨left, h⟩ : Ends text (ports passes found) rest _ := ends_ports found hpasses
    exact ⟨left, h.bind (.pure ())⟩
  | maintainers =>
    obtain ⟨left, h⟩ : Ends text (maintainers passes) rest _ := ends_maintainers hpasses
    exact ⟨left, h.bind (.pure ())⟩
  | segments => exact ⟨_, (answers_segments hpasses).bind (.pure ())⟩
  | transferFlags => exact ⟨_, (answers_options scripted_transfer hpasses).bind (.pure ())⟩
  | settings => exact ⟨_, (answers_options scripted_settings hpasses).bind (.pure ())⟩
  | paths =>
    obtain ⟨left, h, -⟩ : Computes text (paths passes) rest _ := computes_paths hpasses
    exact ⟨left, h.bind (.pure ())⟩

/-- **Every loop ends** wherever a scanner can be, without cutting a character. -/
theorem exists_runLoop {seen : List Nat} {s : Scanner} (loop : Loop)
    (h : Scanner.Reachable text passes seen s) (hpasses : text.length < passes) :
    ∃ t, runLoop passes loop s = some ((), t) := by
  obtain ⟨⟨rest, hs⟩, -⟩ := h.stands hpasses
  have hlength := hs.suffix.length_le
  obtain ⟨left, hanswers⟩ : ∃ left, Answers text (runLoop passes loop) rest () left :=
    exists_answers_runLoop loop (by omega)
  obtain ⟨t, ht, -⟩ := hanswers s hs
  exact ⟨t, ht⟩

/-! ## Safety -/

/-- A mismatch lies in the argument, unless the wrapped keyword is unknown. -/
theorem within_of_read {k : Keyword} (h : Args.read k argument = .error m) :
    m.Within argument ∨ k = .onbuild ∧ ∃ word, m = .unknownKeyword word := by
  cases hform : k.form? with
  | some f =>
    rw [Args.read_eq_of_form hform] at h
    exact .inl (f.located_read (eq_error_of_map_eq_error h))
  | none =>
    obtain rfl := Keyword.eq_onbuild_of_form? hform
    obtain ⟨n, -, hwrapped, hwithin⟩ | ⟨word, inner, -, hinner, hwrapped⟩ :=
      trigger_cases (List.suffix_refl argument)
    · rw [Args.read_onbuild_eq, Args.readTrigger_eq, hwrapped] at h
      obtain rfl := Except.error.inj h
      exact .inl hwithin
    · cases hk : Keyword.ofText? word with
      | none =>
        rw [Args.read_onbuild_eq, Args.readTrigger_eq, hwrapped, hk] at h
        obtain rfl := Except.error.inj h
        exact .inr ⟨rfl, word, rfl⟩
      | some k =>
        rw [hk] at hwrapped
        obtain ⟨f, hf⟩ := Args.exists_form_of_wrapped hwrapped
        rw [Args.read_onbuild_eq, Args.readTrigger_of_wrapped hwrapped hf,
          Args.read_eq_of_form hf] at h
        have hread := eq_error_of_map_eq_error (eq_error_of_map_eq_error h)
        exact .inl ((f.located_read hread).mono hinner)

/-- **Scanning stays inside the argument.** Wherever scripts bring a scanner, it stands between two
characters of its text, a part that is read moves it forward, a part that cannot be read leaves it
and fails between there and the end, nothing that is asked cuts a character, and every loop ends.
So the argument of every keyword is read to an outcome, which is that of the readers, and a column
that is reported is one of the argument or the one behind it, also for a wrapped instruction; only
an unknown wrapped keyword is reported without a column. -/
theorem scanning_safe (text : Text) {passes : Nat} (hpasses : text.length < passes) :
    (∀ seen s, Scanner.Reachable text passes seen s →
      s.Safe text passes seen ∧ ∀ loop : Loop, ∃ t, runLoop passes loop s = some ((), t)) ∧
    ∀ k, parse passes k text = some ((Args.read k text).mapError (Mismatch.reported text)) ∧
      ∀ failure, parse passes k text = some (.error failure) →
        (∃ c, failure.column = some c ∧ 1 ≤ c ∧ c ≤ text.length + 1) ∨
        k = .onbuild ∧ ∃ word, failure = ⟨Keyword.unknownMessage word, none⟩ := by
  refine ⟨fun seen s h => ⟨h.safe hpasses, fun loop => exists_runLoop loop h hpasses⟩,
    fun k => ⟨parse_eq k hpasses, fun failure hfailure => ?_⟩⟩
  rw [parse_eq k hpasses] at hfailure
  cases hread : Args.read k text with
  | ok args =>
    rw [hread] at hfailure
    cases hfailure
  | error m =>
    rw [hread] at hfailure
    obtain rfl := Except.error.inj (Option.some.inj hfailure)
    obtain ⟨rest, hrest, hsuffix⟩ | ⟨hk, word, rfl⟩ := within_of_read hread
    · have hlength := hsuffix.length_le
      refine .inl ⟨text.length - rest.length + 1, ?_, by omega, by omega⟩
      rw [Mismatch.reported, Mismatch.column, hrest]
      rfl
    · exact .inr ⟨hk, word, rfl⟩

/-- An ideographic space has three bytes and one column. -/
theorem scanning_safe_wide : ∃ text, text = Char.ofNat 0x3000 :: "ARG \tA = 1".toList ∧
    (∃ s, Scanner.Reachable text 20 [3, 0] s ∧ s.Safe text 20 [3, 0]) ∧
    parse 20 .onbuild text = some (.error ⟨"Expected end of text", some 9⟩) := by
  refine ⟨_, rfl, ?_⟩
  obtain ⟨hreachable, hparse⟩ := scanning_safe (Char.ofNat 0x3000 :: "ARG \tA = 1".toList)
    (by decide : _ < 20)
  have hread : Args.read .onbuild (Char.ofNat 0x3000 :: "ARG \tA = 1".toList) =
      .error (.expected .endOfText "= 1".toList) := by
    cbv
  have hskip : Scanner.Reachable (Char.ofNat 0x3000 :: "ARG \tA = 1".toList) 20 [3, 0]
      ⟨Char.ofNat 0x3000 :: "ARG \tA = 1".toList, 3, [], []⟩ :=
    Scanner.Reachable.step (t := ⟨Char.ofNat 0x3000 :: "ARG \tA = 1".toList, 3, [], []⟩) .skip
      .start (by rintro _ ⟨⟩) rfl
  refine ⟨⟨_, hskip, (hreachable _ _ hskip).1⟩, ?_⟩
  rw [(hparse .onbuild).1, hread]
  rfl

end Grammar

end Dockerlint
