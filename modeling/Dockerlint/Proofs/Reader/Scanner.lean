import Dockerlint.Proofs.Reader.Session
import Dockerlint.Reader.Scanner

/-!
# What scripts answer

A script moves a scanner by bytes, and a reader leaves a tail of what it was given. A scanner stands
at a tail of its text if the tail begins at its byte and everything it keeps is what the readers
give. From there a script has one answer and leads to one other tail, whatever else the scanner read
before: this is shown for each step of a scanner, and a script is as good as its steps. So each part
is read as its reader reads it, and what is kept of it may be used again.

## Main definitions

* `Scanner.Stands`: a scanner at a tail of its text
* `Script.Answers`: what a script gives, and where it leads
* `Script.Gives`, `Script.Computes`, `Script.Ends`: attempts with the outcome of a reader, by what
  is known of the place behind them

## Main results

* `Script.Answers.bind`: scripts one behind the other
* `Script.gives_remember`: remembering an attempt does not change it
* `Script.gives_read`: every part is read as its reader reads it
-/

namespace Dockerlint

/-! ## Standing in a text -/

/-- A mismatch as a failure at a byte of the text. -/
def Mismatch.failure (text : Text) (m : Mismatch) : Failure :=
  ⟨m.rest?.elim 0 text.offset, m.message⟩

namespace Reader

variable {α : Type}

/-- The outcome of a reader as that of an attempt. -/
def result (text : Text) (o : Outcome α) : Except Failure α :=
  (o.map (·.1)).mapError (Mismatch.failure text)

/-- What a reader leaves of `rest`; a reader that fails takes nothing. -/
def left (rest : Text) : Outcome α → Text
  | .ok (_, behind) => behind
  | .error _ => rest

end Reader

/-- What is to be kept of a part where a tail of the text begins. -/
def Part.recollection {k : Kind} (text : Text) (part : Part k) (tail : Text) : Recollection k :=
  ⟨text.offset (Reader.left tail (part.read tail)), Reader.result text (part.read tail)⟩

theorem Part.left_suffix {k : Kind} (part : Part k) (tail : Text) :
    Reader.left tail (part.read tail) <:+ tail := by
  cases hread : part.read tail with
  | ok found => exact Part.suffix_of_read hread
  | error m => exact List.suffix_refl tail

/-- A scanner of `text` that stands where the tail `rest` begins and keeps only what the readers
give. -/
structure Scanner.Stands (text rest : Text) (s : Scanner) : Prop where
  text_eq : s.text = text
  suffix : rest <:+ text
  offset_eq : s.offset = text.offset rest
  sound : ∀ k, ∀ e ∈ s.recollections k, ∀ tail, tail <:+ text → e.1.1 = text.offset tail →
    e.2 = e.1.2.recollection text tail

namespace Scanner

theorem stands_start (text : Text) : (start text).Stands text text where
  text_eq := rfl
  suffix := List.suffix_refl text
  offset_eq := text.offset_self.symm
  sound := by
    intro k e he
    cases k with
    | text => cases he
    | list => cases he

namespace Stands

variable {text rest left : Text} {s : Scanner}

/-- Only the byte changes where a scanner moves. -/
theorem move (hs : s.Stands text rest) (hleft : left <:+ text) :
    Stands text left { s with offset := text.offset left } where
  text_eq := hs.text_eq
  suffix := hleft
  offset_eq := rfl
  sound := by
    intro k e he
    cases k with
    | text => exact hs.sound .text e he
    | list => exact hs.sound .list e he

/-- What the readers give may be kept. -/
theorem keep (hs : s.Stands text rest) {k : Kind} (part : Part k) {tail : Text}
    (htail : tail <:+ text) :
    (s.keep (text.offset tail, part) (part.recollection text tail)).Stands text rest := by
  -- a byte is the beginning of one tail only
  have hnew : ∀ tail', tail' <:+ text → text.offset tail = text.offset tail' →
      part.recollection text tail = part.recollection text tail' := by
    intro tail' htail' hoffset
    rw [Text.eq_of_offset_eq htail htail' hoffset]
  cases k with
  | text =>
    refine ⟨hs.text_eq, hs.suffix, hs.offset_eq, fun k' e he => ?_⟩
    cases k' with
    | text =>
      rcases List.mem_cons.1 he with rfl | he
      · exact hnew
      · exact hs.sound .text e he
    | list => exact hs.sound .list e he
  | list =>
    refine ⟨hs.text_eq, hs.suffix, hs.offset_eq, fun k' e he => ?_⟩
    cases k' with
    | text => exact hs.sound .text e he
    | list =>
      rcases List.mem_cons.1 he with rfl | he
      · exact hnew
      · exact hs.sound .list e he

end Stands

end Scanner

/-! ## Answers -/

namespace Script

/-- From every scanner that stands at `rest` the script gives `a`, and the scanner then stands at
`left`. -/
def Answers {α : Type} (text : Text) (p : Script α) (rest : Text) (a : α) (left : Text) : Prop :=
  ∀ s : Scanner, s.Stands text rest → ∃ t, p s = some (a, t) ∧ t.Stands text left

variable {α β : Type} {text rest left last front behind literal : Text} {a : α} {b : β}

theorem Answers.pure (a : α) : Answers text (Pure.pure a : Script α) rest a rest :=
  fun s hs => ⟨s, rfl, hs⟩

theorem Answers.bind {p : Script α} {f : α → Script β} (hp : Answers text p rest a left)
    (hf : Answers text (f a) left b last) : Answers text (p >>= f) rest b last := by
  intro s hs
  obtain ⟨t, hpt, ht⟩ := hp s hs
  obtain ⟨u, hfu, hu⟩ := hf t ht
  refine ⟨u, ?_, hu⟩
  change (p s).bind (fun x => f x.1 x.2) = some (b, u)
  rw [hpt]
  exact hfu

/-- A scanner stands only at tails of its text. -/
theorem Answers.of_suffix {p : Script α} (h : rest <:+ text → Answers text p rest a left) :
    Answers text p rest a left :=
  fun s hs => h hs.suffix s hs

theorem answers_position : Answers text position rest (text.offset rest) rest :=
  fun s hs => ⟨s, by rw [position, hs.offset_eq], hs⟩

theorem answers_rest : Answers text Script.rest rest rest rest := by
  intro s hs
  refine ⟨s, ?_, hs⟩
  rw [Script.rest, hs.text_eq, hs.offset_eq, Text.fromByte_offset hs.suffix]
  rfl

theorem answers_goTo (hleft : left <:+ text) :
    Answers text (goTo (text.offset left)) rest () left :=
  fun _ hs => ⟨_, rfl, hs.move hleft⟩

theorem answers_between {r s : Text} (hr : r <:+ text) (h : front ++ s = r) :
    Answers text (between (text.offset r) (text.offset s)) rest front rest := by
  subst h
  intro sc hsc
  refine ⟨sc, ?_, hsc⟩
  rw [between, hsc.text_eq, Text.slice_offset hr (List.suffix_append front s), Text.upTo_append]
  rfl

theorem answers_slice {r : Text} (hr : r <:+ text) (h : front ++ rest = r) :
    Answers text (slice (text.offset r)) rest front rest :=
  answers_position.bind (answers_between hr h)

theorem answers_advance (h : front ++ behind = rest) :
    Answers text (advance (Text.bytes front)) rest () behind := by
  subst h
  intro s hs
  have hmove := hs.move ((List.suffix_append front behind).trans hs.suffix)
  refine ⟨_, ?_, hmove⟩
  rw [advance, hs.offset_eq, Text.offset_of_append hs.suffix]

theorem answers_atEnd : Answers text atEnd rest (decide (rest = [])) rest := by
  intro s hs
  refine ⟨s, ?_, hs⟩
  have hend := Text.offset_add_bytes hs.suffix
  have hiff : Text.bytes s.text ≤ s.offset ↔ rest = [] := by
    rw [hs.text_eq, hs.offset_eq, ← Text.bytes_eq_zero_iff]
    omega
  rw [atEnd, decide_eq_decide.2 hiff]

theorem answers_skip : Answers text skip rest () (Text.trimLeft rest) := by
  refine answers_rest.bind ?_
  obtain ⟨blanks, hblanks⟩ := Text.trimLeft_suffix rest
  have hbytes : Text.bytes rest - Text.bytes (Text.trimLeft rest) = Text.bytes blanks := by
    rw [← congrArg Text.bytes hblanks, Text.bytes_append]
    omega
  rw [hbytes]
  exact answers_advance hblanks

theorem answers_eat (h : Text.after literal rest = some behind) :
    Answers text (eat literal) rest true behind := by
  have hstarts : Text.startsWith literal rest := by
    rw [Text.startsWith, h]
    rfl
  refine answers_rest.bind ?_
  rw [if_pos hstarts]
  exact (answers_advance (Text.after_eq_some_iff.1 h).symm).bind (.pure true)

theorem answers_eat_none (h : Text.after literal rest = none) :
    Answers text (eat literal) rest false rest := by
  have hstarts : ¬ Text.startsWith literal rest := by
    rw [Text.startsWith, h]
    exact Bool.false_ne_true
  refine answers_rest.bind ?_
  rw [if_neg hstarts]
  exact .pure false

/-- Letters that have a case have one byte in either. -/
theorem utf8Size_toLower (c : Char) : c.toLower.utf8Size = c.utf8Size := by
  have hone : ∀ {d : Char}, d.toNat ≤ 127 → d.utf8Size = 1 := fun h =>
    Char.utf8Size_eq_one_iff.2 (UInt32.le_iff_toNat_le.2 h)
  obtain ⟨-, hhigh, hlower⟩ | hsame := Text.toLower_cases c
  · rw [hone (by omega), hone (by omega)]
  · rw [hsame]

theorem bytes_map_toLower (t : Text) : Text.bytes (t.map Char.toLower) = Text.bytes t := by
  induction t with
  | nil => rfl
  | cons c t ih =>
    rw [List.map_cons, Text.bytes_cons, Text.bytes_cons, ih, utf8Size_toLower]

theorem answers_eatCaseless (h : Text.afterCaseless literal rest = some behind) :
    Answers text (eatCaseless literal) rest true behind := by
  obtain ⟨letters, rfl, hletters⟩ := Text.afterCaseless_eq_some_iff.1 h
  have hbytes : Text.bytes literal = Text.bytes letters := by
    rw [← bytes_map_toLower letters, hletters, bytes_map_toLower]
  have hsame : Text.sameCaseless literal letters := by
    rw [Text.sameCaseless, hletters, beq_self_eq_true]
  refine answers_rest.bind ?_
  rw [hbytes, Text.toByte_append]
  dsimp only
  rw [if_pos hsame]
  exact (answers_advance rfl).bind (.pure true)

theorem answers_eatCaseless_none (h : Text.afterCaseless literal rest = none) :
    Answers text (eatCaseless literal) rest false rest := by
  refine answers_rest.bind ?_
  cases hcut : Text.splitByte rest (Text.bytes literal) with
  | none =>
    rw [Text.toByte, hcut]
    exact .pure false
  | some parts =>
    obtain ⟨letters, behind⟩ := parts
    have hsame : ¬ Text.sameCaseless literal letters := by
      intro hsame
      rw [Text.afterCaseless_eq_some_iff.2 ⟨letters, (Text.splitByte_eq_some_iff.1 hcut).1,
        (beq_iff_eq.1 hsame).symm⟩] at h
      cases h
    rw [Text.toByte, hcut, Option.map_some]
    dsimp only
    rw [if_neg hsame]
    exact .pure false

/-! ## Attempts -/

/-- What the script answers is what the reader of its part gives, and if that succeeds, the scanner
stands behind the part. -/
def Computes (text : Text) (p : Attempt α) (rest : Text) (o : Outcome α) : Prop :=
  ∃ left, Answers text p.run rest (Reader.result text o) left ∧
    ∀ a behind, o = .ok (a, behind) → left = behind

/-- What the script answers is the outcome of a grammar. -/
def Ends (text : Text) (p : Attempt α) (rest : Text) (o : Except Mismatch α) : Prop :=
  ∃ left, Answers text p.run rest (o.mapError (Mismatch.failure text)) left

section Attempts

variable {p : Attempt α} {f : α → Attempt β} {m : Mismatch} {o : Outcome β}
  {d : Except Mismatch α} {e : Except Mismatch β}

theorem Answers.run_bind {r : Except Failure β} (hp : Answers text p.run rest (.ok a) left)
    (hf : Answers text (f a).run left r last) : Answers text (p >>= f).run rest r last := by
  rw [ExceptT.run_bind]
  exact hp.bind hf

theorem Answers.run_bind_error {failure : Failure}
    (hp : Answers text p.run rest (.error failure) left) :
    Answers text (p >>= f).run rest (.error failure) left := by
  rw [ExceptT.run_bind]
  exact hp.bind (.pure _)

theorem Answers.run_lift {s : Script α} (hs : Answers text s rest a left) :
    Answers text (liftM s : Attempt α).run rest (.ok a) left := by
  intro sc hsc
  obtain ⟨t, ht, hstands⟩ := hs sc hsc
  refine ⟨t, ?_, hstands⟩
  change (s sc).bind (fun x => some (Except.ok x.1, x.2)) = _
  rw [ht]
  rfl

theorem Computes.bind (hp : Computes text p rest (.ok (a, left)))
    (hf : Computes text (f a) left o) : Computes text (p >>= f) rest o := by
  obtain ⟨left, hp, hleft⟩ := hp
  obtain rfl := hleft _ _ rfl
  obtain ⟨last, hf, hlast⟩ := hf
  exact ⟨last, hp.run_bind hf, hlast⟩

theorem Computes.bind_error (hp : Computes text p rest (.error m)) :
    Computes text (p >>= f) rest (.error m) := by
  obtain ⟨left, hp, -⟩ := hp
  exact ⟨left, hp.run_bind_error, nofun⟩

theorem Computes.lift {s : Script α} (hs : Answers text s rest a left) :
    Computes text (liftM s : Attempt α) rest (.ok (a, left)) := by
  refine ⟨left, hs.run_lift, ?_⟩
  rintro _ _ ⟨⟩
  rfl

theorem Computes.pure (a : α) : Computes text (Pure.pure a : Attempt α) rest (.ok (a, rest)) := by
  refine ⟨rest, .pure _, ?_⟩
  rintro _ _ ⟨⟩
  rfl

theorem Computes.throw (m : Mismatch) :
    Computes text (throw (m.failure text) : Attempt α) rest (.error m) :=
  ⟨rest, .pure _, nofun⟩

theorem Ends.bind (hp : Computes text p rest (.ok (a, left))) (hf : Ends text (f a) left e) :
    Ends text (p >>= f) rest e := by
  obtain ⟨left, hp, hleft⟩ := hp
  obtain rfl := hleft _ _ rfl
  obtain ⟨last, hf⟩ := hf
  exact ⟨last, hp.run_bind hf⟩

theorem Ends.bind_error (hp : Computes text p rest (.error m)) :
    Ends text (p >>= f) rest (.error m) := by
  obtain ⟨left, hp, -⟩ := hp
  exact ⟨left, hp.run_bind_error⟩

theorem Ends.pure (a : α) : Ends text (Pure.pure a : Attempt α) rest (.ok a) := ⟨rest, .pure _⟩

theorem Ends.throw (m : Mismatch) :
    Ends text (throw (m.failure text) : Attempt α) rest (.error m) :=
  ⟨rest, .pure _⟩

theorem Ends.of_suffix (h : rest <:+ text → Ends text p rest d) : Ends text p rest d := by
  by_cases hrest : rest <:+ text
  · exact h hrest
  · exact ⟨rest, fun s hs => absurd hs.suffix hrest⟩

/-- The value of a script can be mapped. -/
theorem Ends.map (hp : Ends text p rest d) (g : α → β) :
    Ends text (p >>= fun a => Pure.pure (g a)) rest (d.map g) := by
  obtain ⟨left, hp⟩ := hp
  cases d with
  | ok a => exact ⟨left, Answers.run_bind hp (.pure _)⟩
  | error m => exact ⟨left, Answers.run_bind_error hp⟩

end Attempts

/-- What the script answers is what the reader of its part gives, and if that fails, it takes
nothing. -/
def Gives (text : Text) (p : Attempt α) (rest : Text) (o : Outcome α) : Prop :=
  Answers text p.run rest (Reader.result text o) (Reader.left rest o)

section Gives

variable {p : Attempt α} {m : Mismatch} {o : Outcome α}

theorem Gives.computes (h : Gives text p rest o) : Computes text p rest o := by
  refine ⟨_, h, ?_⟩
  rintro a behind rfl
  rfl

theorem Gives.attempt (h : Gives text p rest (.ok (a, left))) :
    Answers text (attempt p) rest (some a) left :=
  Answers.bind h (.pure _)

theorem Gives.attempt_none (h : Gives text p rest (.error m)) :
    Answers text (Script.attempt p) rest none rest :=
  Answers.bind h (.pure _)

end Gives

theorem computes_finish :
    Computes text finish rest ((Reader.finish () rest).map fun a => (a, [])) := by
  refine .bind (.lift answers_skip) (.bind (.lift answers_atEnd) ?_)
  rw [Reader.finish]
  cases htrim : Text.trimLeft rest with
  | nil => exact .pure ()
  | cons c behind =>
    exact .bind (.lift answers_position) (.throw (.expected .endOfText (c :: behind)))

/-- A value with only blanks behind it. -/
theorem ends_finish (a : α) :
    Ends text (finish >>= fun _ => Pure.pure a) rest (Reader.finish a rest) := by
  have hfinish : Computes text finish rest ((Reader.finish () rest).map fun a => (a, [])) :=
    computes_finish
  rw [Reader.finish] at hfinish ⊢
  cases htrim : Text.trimLeft rest with
  | nil =>
    rw [htrim] at hfinish
    exact Ends.bind hfinish (.pure a)
  | cons c behind =>
    rw [htrim] at hfinish
    exact Ends.bind_error hfinish

/-! ## Remembered attempts -/

/-- **Remembering an attempt does not change it.** -/
theorem gives_remember {k : Kind} {part : Part k} {p : Attempt k.Content}
    (hp : Computes text p rest (part.read rest)) :
    Gives text (remember part p) rest (part.read rest) := by
  intro s hs
  rw [remember, ExceptT.run_mk]
  split
  · next found hlookup =>
    -- what is kept is right, so the scanner goes where the reader ends
    obtain ⟨before, others, hkept, -⟩ := List.lookup_eq_some_iff.1 hlookup
    have hfound : found = part.recollection text rest :=
      hs.sound k ((s.offset, part), found) (by rw [hkept]; simp) rest hs.suffix hs.offset_eq
    rw [hfound]
    exact ⟨_, rfl, hs.move ((part.left_suffix rest).trans hs.suffix)⟩
  · obtain ⟨left, hanswers, hleft⟩ := hp
    obtain ⟨t, ht, hstands⟩ := hanswers s hs
    rw [ht]
    cases hread : part.read rest with
    | ok found =>
      obtain ⟨content, behind⟩ := found
      obtain rfl := hleft content behind hread
      refine ⟨_, rfl, ?_⟩
      have hkeep := hstands.keep part hs.suffix
      rwa [Part.recollection, hread, ← hs.offset_eq, Reader.left, ← hstands.offset_eq] at hkeep
    | error m =>
      -- a failure is kept with the place where the part should begin
      refine ⟨_, rfl, ?_⟩
      have hkeep := (hstands.move hs.suffix).keep part hs.suffix
      rwa [Part.recollection, hread, ← hs.offset_eq, Reader.left, ← hs.offset_eq] at hkeep

/-! ## Quoted strings and words -/

/-- The search for the closing quote ends where the body of the string does. -/
theorem closeOffset_eq {q : Char} (hq : q ≠ '\\') (t : Text) :
    closeOffset q t = (Quoted.body q t).map fun (inner, _) => Text.bytes inner := by
  fun_induction Quoted.body q t with
  | case1 => rfl
  | case2 c rest ih =>
    rw [closeOffset, ih, Option.map_map, Option.map_map]
    congr 1
    funext found
    simp only [Function.comp_apply, Text.bytes_cons, Text.bytes_nil]
    omega
  | case3 rest hesc => rfl
  | case4 rest hesc hline =>
    rw [closeOffset, if_neg hline, if_pos rfl]
    · rfl
    · exact fun hb _ => hq hb
    · exact hesc
  | case5 c rest hesc hline hne ih =>
    by_cases hlast : c = '\\' ∧ rest = []
    · obtain ⟨rfl, rfl⟩ := hlast
      rfl
    · rw [closeOffset, if_neg hline, if_neg hne, ih, Option.map_map, Option.map_map]
      · rfl
      · exact fun hb hnil => hlast ⟨hb, hnil⟩
      · exact hesc

theorem closeOffset_backslash (t : Text) : closeOffset '\\' t = none := by
  fun_induction closeOffset '\\' t with
  | case1 => rfl
  | case2 => rfl
  | case3 c rest ih => rw [ih]; rfl
  | case4 => rfl
  | case5 rest hlast hesc _ =>
    -- a backslash is the last character or begins an escape
    cases rest with
    | nil => exact absurd rfl (hlast rfl)
    | cons c rest => exact absurd rfl (hesc c rest rfl)
  | case6 c rest _ _ _ _ ih => rw [ih]; rfl

/-- A string that closes is found where its closing quote is. -/
theorem closeOffset_of_between {q : Char} {inner behind : Text}
    (h : Quoted.between q (q :: rest) = some (inner, behind)) :
    closeOffset q rest = some (Text.bytes inner) := by
  rw [Quoted.between] at h
  split at h
  · next hq => rw [closeOffset_eq hq.2, h]; rfl
  · cases h

theorem closeOffset_of_between_eq_none {q : Char} (h : Quoted.between q (q :: rest) = none) :
    closeOffset q rest = none := by
  by_cases hq : q = '\\'
  · subst hq
    exact closeOffset_backslash rest
  · rw [Quoted.between, if_pos ⟨rfl, hq⟩] at h
    rw [closeOffset_eq hq, h]
    rfl

theorem gives_quoted (q : Char) (taking : Taking) :
    Gives text (quoted q taking) rest ((Part.quoted q taking).read rest) := by
  refine Answers.of_suffix fun hrest => gives_remember (.bind (.lift answers_position) ?_)
  rw [Part.read, Reader.quoted]
  cases hafter : Text.after [q] rest with
  | none =>
    have hnone : Quoted.between q rest = none := by
      cases hbetween : Quoted.between q rest with
      | none => rfl
      | some found =>
        rw [Quoted.between_eq_some hbetween] at hafter
        simp [Text.after] at hafter
    rw [hnone]
    exact .bind (.lift (answers_eat_none hafter)) (.throw (.expected (.enclosed q) rest))
  | some opened =>
    obtain rfl : rest = q :: opened := Text.after_eq_some_iff.1 hafter
    refine .bind (.lift (answers_eat hafter)) (.bind (.lift answers_position)
      (.bind (.lift answers_rest) ?_))
    cases hbetween : Quoted.between q (q :: opened) with
    | none =>
      rw [closeOffset_of_between_eq_none hbetween]
      exact .throw (.expected (.enclosed q) (q :: opened))
    | some found =>
      obtain ⟨inner, behind⟩ := found
      rw [closeOffset_of_between hbetween]
      obtain rfl : opened = inner ++ q :: behind :=
        (List.cons.inj (Quoted.between_eq_some hbetween)).2
      -- the three places: behind the opening quote, at the closing one and behind it
      have hopened : inner ++ q :: behind <:+ text := (List.suffix_cons _ _).trans hrest
      have hclose : q :: behind <:+ text := (List.suffix_append _ _).trans hopened
      have hbehind : behind <:+ text := (List.suffix_cons _ _).trans hclose
      have hat := Text.offset_of_append hopened
      have hpast : text.offset behind = text.offset (q :: behind) + q.utf8Size := by
        have hquote : [q] ++ behind <:+ text := hclose
        exact Text.offset_of_append hquote
      simp only [← hat, ← hpast]
      refine .bind (.lift (answers_goTo hbehind)) ?_
      cases taking with
      | value => exact .bind (.lift (answers_between hopened rfl)) (.pure _)
      | written => exact .lift (answers_slice hrest (by simp [Quoted.take]))

section Words

variable {stops : List Char} {w : Word} {q : Char} {inner : Text}

theorem gives_quoted_some (h : Quoted.between q rest = some (inner, behind)) (taking : Taking) :
    Gives text (quoted q taking) rest (.ok (Quoted.take q inner taking, behind)) := by
  have hquoted : Gives text (quoted q taking) rest ((Part.quoted q taking).read rest) :=
    gives_quoted q taking
  rwa [Part.read, Reader.quoted, h] at hquoted

theorem gives_quoted_none (h : Quoted.between q rest = none) (taking : Taking) :
    Gives text (quoted q taking) rest (.error (.expected (.enclosed q) rest)) := by
  have hquoted : Gives text (quoted q taking) rest ((Part.quoted q taking).read rest) :=
    gives_quoted q taking
  rwa [Part.read, Reader.quoted, h] at hquoted

theorem gives_word (stops : List Char) (taking : Taking) :
    Gives text (word stops taking) rest ((Part.word stops taking).read rest) := by
  refine Answers.of_suffix fun hrest => gives_remember (.bind (.lift answers_position)
    (.bind (.lift answers_rest) ?_))
  rw [Part.read, Reader.word, Word.read]
  by_cases hhead : rest.head? = some '"'
  · have hread : Quoted.read .double rest = Quoted.between '"' rest := rfl
    rw [if_pos hhead, if_pos hhead, hread]
    cases hbetween : Quoted.between '"' rest with
    | none =>
      exact .bind (.lift (gives_quoted_none hbetween taking).attempt_none)
        (.throw (.expected (.word stops) rest))
    | some found =>
      obtain ⟨inner, behind⟩ := found
      have hword : (Word.quoted inner).take taking = Quoted.take '"' inner taking :=
        Word.take_quoted inner taking
      refine .bind (.lift (gives_quoted_some hbetween taking).attempt) ?_
      rw [← hword]
      exact .pure _
  · rw [if_neg hhead, if_neg hhead, Word.readBare]
    dsimp only
    by_cases hnil : rest.takeWhile (Word.inRun stops) = []
    · rw [if_pos hnil, hnil, if_pos Text.bytes_nil]
      exact .throw (.expected (.word stops) rest)
    · have hlength : Text.bytes (rest.takeWhile (Word.inRun stops)) ≠ 0 :=
        fun hzero => hnil (Text.bytes_eq_zero_iff.1 hzero)
      have hcut : rest.takeWhile (Word.inRun stops) ++ rest.dropWhile (Word.inRun stops) = rest :=
        List.takeWhile_append_dropWhile
      rw [if_neg hnil, if_neg hlength]
      refine .bind (.lift (answers_advance hcut)) ?_
      -- a bare word is taken as it is, either way
      cases taking with
      | written => exact .lift (answers_slice hrest hcut)
      | value => exact .lift (answers_slice hrest hcut)

theorem gives_word_some (h : Word.read stops rest = some (w, behind)) (taking : Taking) :
    Gives text (word stops taking) rest (.ok (w.take taking, behind)) := by
  have hword : Gives text (word stops taking) rest ((Part.word stops taking).read rest) :=
    gives_word stops taking
  rwa [Part.read, Reader.word, h] at hword

theorem gives_word_none (h : Word.read stops rest = none) (taking : Taking) :
    Gives text (word stops taking) rest (.error (.expected (.word stops) rest)) := by
  have hword : Gives text (word stops taking) rest ((Part.word stops taking).read rest) :=
    gives_word stops taking
  rwa [Part.read, Reader.word, h] at hword

end Words

/-! ## Paths -/

theorem dropWhile_slash_of_after_eq_none (h : Text.after ['/'] rest = none) :
    rest.dropWhile (· == '/') = rest := by
  cases rest with
  | nil => rfl
  | cons c behind =>
    have hc : c ≠ '/' := by
      rintro rfl
      simp [Text.after] at h
    rw [List.dropWhile_cons_of_neg (by simpa using hc)]

/-- The slashes at the end of a path. -/
theorem answers_slashes {passes : Nat} (hpasses : rest.length < passes) :
    Answers text (slashes passes) rest () (rest.dropWhile (· == '/')) := by
  induction passes generalizing rest with
  | zero => exact absurd hpasses (Nat.not_lt_zero _)
  | succ passes ih =>
    cases hafter : Text.after ['/'] rest with
    | none =>
      rw [dropWhile_slash_of_after_eq_none hafter]
      exact (answers_eat_none hafter).bind (.pure ())
    | some behind =>
      obtain rfl : rest = '/' :: behind := Text.after_eq_some_iff.1 hafter
      exact (answers_eat hafter).bind (ih (by simpa using hpasses))

/-- The words of a path behind its first one. What is left are the slashes at its end and what
follows them. -/
theorem exists_answers_pathWords {passes : Nat} (hrest : rest <:+ text)
    (hpasses : rest.length < passes) :
    ∃ left, Answers text (pathWords passes) rest () left ∧ left.length ≤ rest.length ∧
      left.dropWhile (· == '/') = (Path.readTail rest).2 := by
  induction passes generalizing rest with
  | zero => exact absurd hpasses (Nat.not_lt_zero _)
  | succ passes ih =>
    cases hafter : Text.after ['/'] rest with
    | none =>
      rw [Path.readTail_of_after_eq_none hafter]
      exact ⟨rest, answers_position.bind ((answers_eat_none hafter).bind (.pure ())), Nat.le_refl _,
        dropWhile_slash_of_after_eq_none hafter⟩
    | some behind =>
      obtain rfl : rest = '/' :: behind := Text.after_eq_some_iff.1 hafter
      rw [Path.readTail_slash]
      cases hword : Word.read ['/'] behind with
      | none =>
        -- the slash belongs to those at the end
        have hnone : Answers text (Script.attempt (word ['/'] .written)) behind none behind :=
          (gives_word_none hword .written).attempt_none
        exact ⟨'/' :: behind, answers_position.bind ((answers_eat hafter).bind
          (hnone.bind (answers_goTo hrest))), Nat.le_refl _, rfl⟩
      | some found =>
        obtain ⟨w, after⟩ := found
        have hlength := Word.read_length_lt hword
        have hsuffix : after <:+ text :=
          (Word.suffix_of_read hword).trans ((List.suffix_cons '/' behind).trans hrest)
        rw [List.length_cons] at hpasses
        obtain ⟨left, hleft, hle, hdrop⟩ := ih hsuffix (by omega)
        have hsome : Answers text (Script.attempt (word ['/'] .written)) behind
            (some (w.take .written)) after := (gives_word_some hword .written).attempt
        exact ⟨left, answers_position.bind ((answers_eat hafter).bind (hsome.bind hleft)),
          by rw [List.length_cons]; omega, hdrop⟩

theorem answers_relativePath_none {passes : Nat} (h : Path.readRelative rest = none) :
    Answers text (relativePath passes) rest false rest :=
  (gives_word_none (Option.map_eq_none_iff.1 h) .written).attempt_none.bind (.pure false)

theorem answers_relativePath {passes : Nat} (hpasses : rest.length < passes) {path : Text}
    (h : Path.readRelative rest = some (path, behind)) :
    Answers text (relativePath passes) rest true behind := by
  refine Answers.of_suffix fun hrest => ?_
  obtain ⟨⟨w, after⟩, hword, hpair⟩ := Option.map_eq_some_iff.1 h
  obtain ⟨-, rfl⟩ := Prod.mk.inj hpair
  have hlength := Word.read_length_lt hword
  have hsuffix : after <:+ text := (Word.suffix_of_read hword).trans hrest
  obtain ⟨left, hleft, hle, hdrop⟩ :=
    exists_answers_pathWords hsuffix (by omega : after.length < passes)
  have hslashes : Answers text (slashes passes) left () (left.dropWhile (· == '/')) :=
    answers_slashes (by omega)
  rw [hdrop] at hslashes
  exact (gives_word_some hword .written).attempt.bind
    (hleft.bind (hslashes.bind (.pure true)))

theorem gives_path {passes : Nat} (hpasses : rest.length < passes) :
    Gives text (path passes) rest (Part.path.read rest) := by
  refine Answers.of_suffix fun hrest => gives_remember (.bind (.lift answers_position) ?_)
  rw [Part.read, Reader.path]
  cases hafter : Text.after ['/'] rest with
  | none =>
    rw [Path.read_of_after_eq_none hafter]
    refine .bind (.lift (answers_eat_none hafter)) ?_
    cases hread : Path.readRelative rest with
    | none =>
      exact .bind (.lift (answers_relativePath_none hread)) (.throw (.expected .path rest))
    | some found =>
      obtain ⟨path, behind⟩ := found
      have hcut := (Path.readRelative_eq_some hread).1
      exact .bind (.lift (answers_relativePath hpasses hread))
        (.lift (answers_slice hrest hcut.symm))
  | some behind =>
    obtain rfl : rest = '/' :: behind := Text.after_eq_some_iff.1 hafter
    rw [List.length_cons] at hpasses
    rw [Path.read, if_pos rfl]
    refine .bind (.lift (answers_eat hafter)) ?_
    cases hread : Path.readRelative behind with
    | none =>
      -- a slash alone is a path
      exact .bind (.lift (answers_relativePath_none hread)) (.lift (answers_slice hrest rfl))
    | some found =>
      obtain ⟨path, last⟩ := found
      obtain ⟨rfl, -⟩ := Path.readRelative_eq_some hread
      exact .bind (.lift (answers_relativePath (by omega) hread)) (.lift (answers_slice hrest rfl))

/-! ## Arrays -/

/-- What follows an element, asked for one delimiter at a time. -/
theorem elements_of_read {quotes : ElementQuotes} {t inner behind : Text} {q : Quote}
    (hquote : Reader.elementQuote quotes (Text.trimLeft t) = some q)
    (hread : Quoted.read q (Text.trimLeft t) = some (inner, behind)) :
    Reader.elements quotes t =
      match Text.after [','] (Text.trimLeft behind), Text.after [']'] (Text.trimLeft behind) with
      | some tail, _ => (Reader.elements quotes tail).map fun (more, last) =>
          (⟨q, Quoted.unescape inner⟩ :: more, last)
      | none, some tail => .ok ([⟨q, Quoted.unescape inner⟩], tail)
      | none, none => .error (.expected .delimiter (Text.trimLeft behind)) := by
  rw [Reader.elements_eq, hquote]
  simp only [hread]
  cases Text.trimLeft behind with
  | nil => rfl
  | cons c tail =>
    by_cases hcomma : c = ','
    · subst hcomma
      rfl
    · by_cases hbracket : c = ']'
      · subst hbracket
        rfl
      · simp [Text.after, hcomma, hbracket, Ne.symm hcomma, Ne.symm hbracket]

theorem computes_elements (quotes : ElementQuotes) {passes : Nat} (hpasses : rest.length < passes) :
    Computes text (elements quotes passes) rest (Reader.elements quotes rest) := by
  induction passes generalizing rest with
  | zero => exact absurd hpasses (Nat.not_lt_zero _)
  | succ passes ih =>
    refine .bind (.lift answers_skip) (.bind (.lift answers_position)
      (.bind (.lift answers_rest) ?_))
    cases hquote : Reader.elementQuote quotes (Text.trimLeft rest) with
    | none =>
      rw [Reader.elements_eq, hquote]
      exact .throw (.expected (Reader.elementExpectation quotes) (Text.trimLeft rest))
    | some q =>
      cases hread : Quoted.read q (Text.trimLeft rest) with
      | none =>
        rw [Reader.elements_eq, hquote]
        simp only [hread]
        exact .bind_error (gives_quoted_none hread .value).computes
      | some found =>
        obtain ⟨inner, behind⟩ := found
        have hlength := Quoted.read_length_lt hread
        have hlength' := Text.trimLeft_length_le rest
        have hleft := Text.trimLeft_length_le behind
        rw [elements_of_read hquote hread]
        refine .bind (gives_quoted_some hread .value).computes (.bind (.lift answers_skip) ?_)
        cases hcomma : Text.after [','] (Text.trimLeft behind) with
        | some tail =>
          have htail := congrArg List.length (Text.after_eq_some_iff.1 hcomma)
          rw [List.length_append] at htail
          have hmore := ih (by omega : tail.length < passes)
          refine .bind (.lift (answers_eat hcomma)) ?_
          dsimp only
          cases helements : Reader.elements quotes tail with
          | error m =>
            rw [helements] at hmore
            exact .bind_error hmore
          | ok pair =>
            rw [helements] at hmore
            exact .bind hmore (.pure _)
        | none =>
          refine .bind (.lift (answers_eat_none hcomma)) ?_
          cases hbracket : Text.after [']'] (Text.trimLeft behind) with
          | some tail => exact .bind (.lift (answers_eat hbracket)) (.pure _)
          | none =>
            exact .bind (.lift (answers_eat_none hbracket)) (.bind (.lift answers_position)
              (.throw (.expected .delimiter (Text.trimLeft behind))))

theorem gives_array {passes : Nat} (hpasses : rest.length < passes) (quotes : ElementQuotes) :
    Gives text (array passes quotes) rest ((Part.array quotes).read rest) := by
  refine gives_remember ?_
  rw [Part.read]
  cases hafter : Text.after ['['] rest with
  | none =>
    rw [Reader.array_of_after_eq_none quotes hafter]
    exact .bind (.lift (answers_eat_none hafter)) (.bind (.lift answers_position)
      (.throw (.expected .openingBracket rest)))
  | some behind =>
    obtain rfl : rest = '[' :: behind := Text.after_eq_some_iff.1 hafter
    rw [List.length_cons] at hpasses
    rw [Reader.array_eq]
    exact .bind (.lift (answers_eat hafter)) (computes_elements quotes (by omega))

/-- **Every part is read as its reader reads it**, in as many rounds as the text is long. -/
theorem gives_read {k : Kind} {passes : Nat} (hpasses : rest.length < passes) (part : Part k) :
    Gives text (read passes part) rest (part.read rest) := by
  cases part with
  | word stops taking => exact gives_word stops taking
  | quoted q taking => exact gives_quoted q taking
  | path => exact gives_path hpasses
  | array quotes => exact gives_array hpasses quotes

end Script

end Dockerlint
