import Dockerlint.Proofs.Operand.Array
import Dockerlint.Reader.Session

/-!
# A remembering session reads as a plain one

A remembering session answers a reading from what it kept, where it can. What it kept was computed
from other kept readings at other times, so its answers are right only if all that is kept is: the
invariant is that every memory is what reading the part afresh at its position leaves. Each reading
is shown to agree with the plain one and to keep the invariant, the readings inside it first. Steps
then agree, and by induction so do runs, whatever the order of the operations.

## Main definitions

* `Memory.afresh`: what a part leaves when it is read afresh
* `Session.Faithful`: a session inside its text whose memories are all as read afresh
* `Session.Computes`, `Session.Agrees`: a reading that answers as the plain readers do

## Main results

* `Session.agrees_remember`: remembering a reading does not change it
* `Session.agrees_read`: every part is read as by a plain session
* `Session.step_spec`: a step answers as a plain step and keeps the invariant
* `Session.run_start`: a remembering session and a plain one give the same answers
-/

namespace Dockerlint

/-! ## Places -/

namespace Place

variable {p : Place} {behind : Text}

theorem position_moveTo_le (p : Place) (behind : Text) :
    (p.moveTo behind).position ≤ p.text.length :=
  Nat.sub_le ..

theorem rest_suffix (p : Place) : p.rest <:+ p.text := List.drop_suffix ..

theorem rest_moveTo (h : behind <:+ p.text) : (p.moveTo behind).rest = behind :=
  (List.suffix_iff_eq_drop.1 h).symm

/-- A place in a text is known by what stands behind it. -/
theorem eq_moveTo {q : Place} (htext : q.text = p.text) (hinside : q.position ≤ q.text.length) :
    q = p.moveTo q.rest := by
  obtain ⟨text, position⟩ := q
  obtain rfl : text = p.text := htext
  have hposition : p.text.length - (p.text.length - position) = position := by
    simp only at hinside
    omega
  simp [moveTo, rest, hposition]

end Place

namespace Place

variable {p : Place}

theorem attempt_spec (h : p.position ≤ p.text.length) (found : Option Text) :
    (p.attempt found).2.text = p.text ∧ (p.attempt found).2.position ≤ p.text.length := by
  cases found with
  | none => exact ⟨rfl, h⟩
  | some behind => exact ⟨rfl, p.position_moveTo_le behind⟩

/-- Moving stays inside the text. -/
theorem move_spec (h : p.position ≤ p.text.length) (m : Move) :
    (p.move m).2.text = p.text ∧ (p.move m).2.position ≤ p.text.length := by
  cases m with
  | skip => exact ⟨rfl, p.position_moveTo_le _⟩
  | eat word => exact attempt_spec h _
  | eatCaseless word => exact attempt_spec h _
  | finish => exact ⟨rfl, p.position_moveTo_le _⟩
  | reset position => exact ⟨rfl, Nat.min_le_right ..⟩

end Place

/-! ## What parts leave -/

theorem Word.take_quoted (inner : Text) (taking : Taking) :
    (Word.quoted inner).take taking = Quoted.take '"' inner taking := by
  cases taking with
  | written => rfl
  | value => rfl

theorem Reader.array_of_after_eq_none (quotes : ElementQuotes) {t : Text}
    (h : Text.after ['['] t = none) : array quotes t = .error (.expected .openingBracket t) := by
  cases t with
  | nil => rfl
  | cons c rest =>
    have hc : c ≠ '[' := by
      rintro rfl
      simp [Text.after] at h
    rw [array, if_neg hc]

theorem Text.suffix_of_trimLeft {t rest : Text} {c : Char} (h : trimLeft t = c :: rest) :
    rest <:+ t :=
  (h ▸ List.suffix_cons c rest : rest <:+ trimLeft t).trans (trimLeft_suffix t)

theorem Word.suffix_of_read {stops : List Char} {t rest : Text} {w : Word}
    (h : read stops t = some (w, rest)) : rest <:+ t := by
  rw [(read_eq_some h).1]
  exact List.suffix_append ..

theorem Path.suffix_of_read {t path rest : Text} (h : read t = some (path, rest)) : rest <:+ t := by
  rw [(read_eq_some h).1]
  exact List.suffix_append ..

theorem Quoted.suffix_of_between {q : Char} {t inner behind : Text}
    (h : between q t = some (inner, behind)) : behind <:+ t := by
  rw [between_eq_some h]
  exact ⟨q :: (inner ++ [q]), by simp⟩

theorem Reader.suffix_of_elements {quotes : ElementQuotes} {t behind : Text} {es : List Element}
    (h : elements quotes t = .ok (es, behind)) : behind <:+ t := by
  -- what an element leaves is a tail of what was left before it
  have hleaves : ∀ {q : Quote} {t inner behind rest : Text} {c : Char},
      Quoted.read q (Text.trimLeft t) = some (inner, behind) →
      Text.trimLeft behind = c :: rest → rest <:+ t := by
    intro q t inner behind rest c hq ht
    have hbehind : behind <:+ Text.trimLeft t := Quoted.suffix_of_between hq
    exact ((Text.suffix_of_trimLeft ht).trans hbehind).trans (Text.trimLeft_suffix t)
  fun_induction Reader.elements quotes t generalizing es
  case case3 hq _ rest ht more last hmore ih =>
    obtain ⟨-, rfl⟩ := Prod.mk.inj (Except.ok.inj h)
    exact (ih hmore).trans (hleaves hq ht)
  case case5 hq _ rest ht =>
    obtain ⟨-, rfl⟩ := Prod.mk.inj (Except.ok.inj h)
    exact hleaves hq ht
  all_goals cases h

/-- What a part leaves is a tail of the text that it was read from. -/
theorem Part.suffix_of_read {k : Kind} {part : Part k} {t behind : Text} {content : k.Content}
    (h : part.read t = .ok (content, behind)) : behind <:+ t := by
  cases part with
  | word stops taking =>
    obtain ⟨⟨w, rest⟩, hw, hpair⟩ := exists_of_map_eq_ok h
    obtain ⟨-, rfl⟩ := Prod.mk.inj hpair
    exact Word.suffix_of_read (Expectation.require_eq_ok_iff.1 hw)
  | quoted q taking =>
    obtain ⟨⟨inner, rest⟩, hq, hpair⟩ := exists_of_map_eq_ok h
    obtain ⟨-, rfl⟩ := Prod.mk.inj hpair
    exact Quoted.suffix_of_between (Expectation.require_eq_ok_iff.1 hq)
  | path => exact Path.suffix_of_read (Expectation.require_eq_ok_iff.1 h)
  | array quotes =>
    cases t with
    | nil => cases h
    | cons c t =>
      rw [Part.read, Reader.array] at h
      split at h
      · exact (Reader.suffix_of_elements h).trans (List.suffix_cons c t)
      · cases h

theorem Place.position_read_le {k : Kind} {p : Place} (h : p.position ≤ p.text.length)
    (part : Part k) : (p.read part).2.position ≤ p.text.length := by
  rw [Place.read]
  split
  · exact p.position_moveTo_le _
  · exact h

theorem Place.text_read {k : Kind} (p : Place) (part : Part k) :
    (p.read part).2.text = p.text := by
  rw [Place.read]
  split
  · rfl
  · rfl

/-- What is kept of a part that is read afresh at a position of a text. -/
def Memory.afresh {k : Kind} (text : Text) (position : Nat) (part : Part k) : Memory k :=
  ⟨((⟨text, position⟩ : Place).read part).2.position, ((⟨text, position⟩ : Place).read part).1⟩

namespace Session

/-! ## Faithful sessions -/

/-- A session inside its text whose memories are all as read afresh. -/
structure Faithful (s : Session) : Prop where
  inside : s.position ≤ s.text.length
  memories : ∀ k, ∀ e ∈ s.memories k, e.2 = Memory.afresh s.text e.1.1 e.1.2

theorem faithful_start (text : Text) : (start text).Faithful where
  inside := Nat.zero_le _
  memories := by
    intro k e he
    cases k with
    | text => cases he
    | list => cases he

/-- Only what is kept counts, as long as the place is inside the text. -/
theorem Faithful.of_place {s : Session} (h : s.Faithful) {place : Place}
    (htext : place.text = s.text) (hinside : place.position ≤ place.text.length) :
    Faithful { s with toPlace := place } where
  inside := hinside
  memories := by
    intro k e he
    have hmem : e ∈ s.memories k := by
      cases k with
      | text => exact he
      | list => exact he
    rw [h.memories k e hmem, ← htext]

theorem Faithful.moveTo {s : Session} (h : s.Faithful) (behind : Text) :
    (s.moveTo behind).Faithful :=
  h.of_place rfl (s.position_moveTo_le behind)

theorem toPlace_keep {k : Kind} (s : Session) (key : Nat × Part k) (memory : Memory k) :
    (s.keep key memory).toPlace = s.toPlace := by
  cases k with
  | text => rfl
  | list => rfl

theorem Faithful.keep {k : Kind} {s : Session} (h : s.Faithful) {key : Nat × Part k}
    {memory : Memory k} (hmemory : memory = Memory.afresh s.text key.1 key.2) :
    (s.keep key memory).Faithful where
  inside := by
    rw [toPlace_keep]
    exact h.inside
  memories := by
    intro k' e he
    rw [toPlace_keep]
    -- the new memory is in the table of its kind, and the other table is as it was
    cases k with
    | text =>
      cases k' with
      | text =>
        rcases List.mem_cons.1 he with rfl | he
        · exact hmemory
        · exact h.memories .text e he
      | list => exact h.memories .list e he
    | list =>
      cases k' with
      | text => exact h.memories .text e he
      | list =>
        rcases List.mem_cons.1 he with rfl | he
        · exact hmemory
        · exact h.memories .list e he

/-! ## Readings that agree

Inside a remembered reading a failure may leave the session anywhere in the text, because
remembering takes it back to where it began. So there are two relations to the plain readers: a
computation gives the same result and, if it succeeds, leaves the same text; a reading also leaves
the same place if it fails. -/

/-- An answer from `s` with the result of a plain reader, behind what that reader took. -/
inductive Computes {α : Type} (s : Session) : Outcome α → Except Mismatch α × Session → Prop where
  | ok {a : α} {t : Session} (htext : t.text = s.text) (hfaithful : t.Faithful) :
      Computes s (.ok (a, t.rest)) (.ok a, t)
  | error {m : Mismatch} {t : Session} (htext : t.text = s.text) (hfaithful : t.Faithful) :
      Computes s (.error m) (.error m, t)

/-- An answer from `s` that is the answer of a plain session at the same place. -/
structure Agrees {k : Kind} (s : Session) (part : Part k)
    (answer : Except Mismatch k.Content × Session) : Prop where
  result : answer.1 = (s.toPlace.read part).1
  place : answer.2.toPlace = (s.toPlace.read part).2
  faithful : answer.2.Faithful

section Remember

variable {k : Kind} {s : Session} {part : Part k}

/-- A reading succeeds as the plain reader does and ends behind what that took, or it fails as
that does and leaves the place. -/
theorem Agrees.cases {answer : Except Mismatch k.Content × Session} (h : Agrees s part answer) :
    (∃ content t, part.read s.rest = .ok (content, t.rest) ∧ answer = (.ok content, t) ∧
      t.text = s.text ∧ t.Faithful) ∨
    ∃ m t, part.read s.rest = .error m ∧ answer = (.error m, t) ∧ t.toPlace = s.toPlace ∧
      t.Faithful := by
  obtain ⟨result, t⟩ := answer
  obtain ⟨hresult, hplace, hfaithful⟩ := h
  rw [Place.read] at hresult hplace
  cases hread : part.read s.rest with
  | ok pair =>
    obtain ⟨content, behind⟩ := pair
    simp only [hread] at hresult hplace
    obtain rfl : t.rest = behind := by
      rw [hplace]
      exact Place.rest_moveTo ((Part.suffix_of_read hread).trans s.rest_suffix)
    exact .inl ⟨content, t, rfl, by rw [hresult], by rw [hplace]; rfl, hfaithful⟩
  | error m =>
    simp only [hread] at hresult hplace
    exact .inr ⟨m, t, rfl, by rw [hresult], hplace, hfaithful⟩

/-- A memory that is found answers as the plain session does. -/
theorem agrees_recall (hs : s.Faithful) {memory : Memory k}
    (hlookup : (s.memories k).lookup (s.position, part) = some memory) :
    Agrees s part (memory.result, { s with position := memory.ending }) := by
  obtain ⟨before, others, hmemories, -⟩ := List.lookup_eq_some_iff.1 hlookup
  have hmemory : memory = Memory.afresh s.text s.position part :=
    hs.memories k ((s.position, part), memory) (by rw [hmemories]; simp)
  have hending : memory.ending = (s.toPlace.read part).2.position := by rw [hmemory]; rfl
  have hplace : ({ s with position := memory.ending } : Session).toPlace =
      (s.toPlace.read part).2 := by
    rw [hending, ← s.toPlace.text_read part]
  refine ⟨by rw [hmemory]; rfl, hplace, hs.of_place rfl ?_⟩
  rw [hending]
  exact Place.position_read_le hs.inside part

/-- What was just read as by a plain session can be kept. -/
theorem agrees_keep {result : Except Mismatch k.Content} {t : Session}
    (hplain : s.toPlace.read part = (result, t.toPlace)) (ht : t.Faithful) :
    Agrees s part (result, t.keep (s.position, part) ⟨t.position, result⟩) := by
  have htext : t.text = s.text := by
    rw [← s.toPlace.text_read part, hplain]
  refine ⟨by rw [hplain], by rw [hplain, toPlace_keep], ht.keep ?_⟩
  rw [Memory.afresh, htext, hplain]

/-- **Remembering a reading does not change it**, if the reading is as the plain one. -/
theorem agrees_remember (hs : s.Faithful)
    {compute : Session → Except Mismatch k.Content × Session}
    (hcompute : Computes s (part.read s.rest) (compute s)) :
    Agrees s part (remember part s compute) := by
  rw [remember]
  split
  · next memory hlookup => exact agrees_recall hs hlookup
  · generalize hread : part.read s.rest = outcome at hcompute
    generalize compute s = answer at hcompute
    cases hcompute with
    | @ok content t htext hfaithful =>
      -- the computation ended where the plain reading does
      have hplace : s.toPlace.moveTo t.rest = t.toPlace :=
        (Place.eq_moveTo htext hfaithful.inside).symm
      refine agrees_keep ?_ hfaithful
      simp only [Place.read, hread, hplace]
    | @error m t htext hfaithful =>
      refine agrees_keep (t := { t with position := s.position }) ?_ (hfaithful.of_place rfl ?_)
      · rw [Place.read, hread, htext]
      · rw [htext]
        exact hs.inside

end Remember

theorem rest_moveTo {s : Session} {behind : Text} (h : behind <:+ s.rest) :
    (s.moveTo behind).rest = behind :=
  Place.rest_moveTo (h.trans s.rest_suffix)

theorem Computes.moveTo {α : Type} {s t : Session} (htext : t.text = s.text) (ht : t.Faithful)
    (a : α) {behind : Text} (h : behind <:+ t.rest) :
    Computes s (.ok (a, behind)) (.ok a, t.moveTo behind) := by
  have hmoved : Computes s (.ok (a, (t.moveTo behind).rest)) (.ok a, t.moveTo behind) :=
    .ok htext (ht.moveTo behind)
  rwa [rest_moveTo h] at hmoved

/-! ## Quoted strings and words -/

section Words

variable {s : Session}

theorem agrees_quoted (hs : s.Faithful) (q : Char) (taking : Taking) :
    Agrees s (.quoted q taking) (s.quoted q taking) := by
  refine agrees_remember hs ?_
  rw [Part.read, Reader.quoted]
  cases hq : Quoted.between q s.rest with
  | none => exact .error rfl hs
  | some found =>
    obtain ⟨inner, behind⟩ := found
    refine .moveTo rfl hs _ ?_
    rw [Quoted.between_eq_some hq]
    exact ⟨q :: (inner ++ [q]), by simp⟩

theorem quoted_cases (hs : s.Faithful) (q : Char) (taking : Taking) :
    (∃ inner t, Quoted.between q s.rest = some (inner, t.rest) ∧
      s.quoted q taking = (.ok (Quoted.take q inner taking), t) ∧ t.text = s.text ∧ t.Faithful) ∨
    ∃ t, Quoted.between q s.rest = none ∧
      s.quoted q taking = (.error (.expected (.enclosed q) s.rest), t) ∧ t.toPlace = s.toPlace ∧
      t.Faithful := by
  have hagrees := (agrees_quoted hs q taking).cases
  rw [Part.read, Reader.quoted] at hagrees
  cases hq : Quoted.between q s.rest with
  | none =>
    rw [hq] at hagrees
    obtain ⟨content, t, hread, -⟩ | ⟨m, t, hread, hanswer, hplace, ht⟩ := hagrees
    · cases hread
    · obtain rfl := Except.error.inj hread
      exact .inr ⟨t, rfl, hanswer, hplace, ht⟩
  | some found =>
    obtain ⟨inner, behind⟩ := found
    rw [hq] at hagrees
    obtain ⟨content, t, hread, hanswer, htext, ht⟩ | ⟨m, t, hread, -⟩ := hagrees
    · obtain ⟨rfl, rfl⟩ := Prod.mk.inj (Except.ok.inj hread)
      exact .inl ⟨inner, t, rfl, hanswer, htext, ht⟩
    · cases hread

theorem agrees_word (hs : s.Faithful) (stops : List Char) (taking : Taking) :
    Agrees s (.word stops taking) (s.word stops taking) := by
  refine agrees_remember hs ?_
  rw [Part.read, Reader.word, Word.read]
  by_cases hhead : s.rest.head? = some '"'
  · -- the quoted string may have been read before, with the same result
    have hread : Quoted.read .double s.rest = Quoted.between '"' s.rest := rfl
    rw [if_pos hhead, if_pos hhead, hread]
    obtain ⟨inner, t, hq, hanswer, htext, ht⟩ | ⟨t, hq, hanswer, hplace, ht⟩ :=
      quoted_cases hs '"' taking
    · rw [hq, hanswer, ← Word.take_quoted]
      exact .ok htext ht
    · rw [hq, hanswer]
      exact .error (by rw [hplace]) ht
  · rw [if_neg hhead, if_neg hhead]
    cases hw : Word.readBare stops s.rest with
    | none => exact .error rfl hs
    | some found =>
      obtain ⟨w, behind⟩ := found
      refine .moveTo rfl hs _ ?_
      rw [(Word.readBare_eq_some hw).1]
      exact List.suffix_append ..

theorem word_cases (hs : s.Faithful) (stops : List Char) (taking : Taking) :
    (∃ w t, Word.read stops s.rest = some (w, t.rest) ∧
      s.word stops taking = (.ok (w.take taking), t) ∧ t.text = s.text ∧ t.Faithful) ∨
    ∃ m t, Word.read stops s.rest = none ∧ s.word stops taking = (.error m, t) ∧
      t.toPlace = s.toPlace ∧ t.Faithful := by
  have hagrees := (agrees_word hs stops taking).cases
  rw [Part.read, Reader.word] at hagrees
  cases hw : Word.read stops s.rest with
  | none =>
    rw [hw] at hagrees
    obtain ⟨content, t, hread, -⟩ | ⟨m, t, -, hanswer, hplace, ht⟩ := hagrees
    · cases hread
    · exact .inr ⟨m, t, rfl, hanswer, hplace, ht⟩
  | some found =>
    obtain ⟨w, behind⟩ := found
    rw [hw] at hagrees
    obtain ⟨content, t, hread, hanswer, htext, ht⟩ | ⟨m, t, hread, -⟩ := hagrees
    · obtain ⟨rfl, rfl⟩ := Prod.mk.inj (Except.ok.inj hread)
      exact .inl ⟨w, t, rfl, hanswer, htext, ht⟩
    · cases hread

end Words

/-! ## Paths -/

section Paths

variable {s : Session}

/-- Behind one of its words a path is read on as by the plain reader. The fuel suffices, because
each word takes a character. -/
theorem pathTail_spec {fuel : Nat} (hs : s.Faithful) (hfuel : s.rest.length ≤ fuel) :
    (pathTail fuel s).text = s.text ∧ (pathTail fuel s).rest = (Path.readTail s.rest).2 ∧
      (pathTail fuel s).Faithful := by
  induction fuel generalizing s with
  | zero =>
    have hnil : s.rest = [] := List.eq_nil_of_length_eq_zero (Nat.le_zero.1 hfuel)
    rw [pathTail, hnil, Path.readTail]
    exact ⟨rfl, rfl, hs⟩
  | succ fuel ih =>
    rw [pathTail]
    cases hafter : Text.after ['/'] s.rest with
    | none =>
      rw [Path.readTail_of_after_eq_none hafter]
      exact ⟨rfl, rfl, hs⟩
    | some behind =>
      have hrest : s.rest = '/' :: behind := Text.after_eq_some_iff.1 hafter
      have hbehind : (s.moveTo behind).rest = behind :=
        rest_moveTo (hrest ▸ List.suffix_cons '/' behind)
      simp only [hrest, Path.readTail_slash]
      obtain ⟨w, t, hw, hanswer, htext, ht⟩ | ⟨m, t, hw, hanswer, hplace, ht⟩ :=
        word_cases (hs.moveTo behind) ['/'] .written
      · rw [hbehind] at hw
        have hlength := Word.read_length_lt hw
        rw [hrest, List.length_cons] at hfuel
        obtain ⟨htext', hrest', ht'⟩ := ih ht (by omega)
        rw [hw, hanswer]
        exact ⟨htext'.trans htext, hrest', ht'⟩
      · rw [hbehind] at hw
        have htext : t.text = s.text := by rw [hplace]; rfl
        have hslashes : ('/' :: behind).dropWhile (· == '/') <:+ t.text := by
          rw [htext, ← hrest]
          exact (List.dropWhile_suffix _).trans s.rest_suffix
        rw [hw, hanswer]
        exact ⟨htext, Place.rest_moveTo hslashes, ht.moveTo _⟩

theorem relative_cases (hs : s.Faithful) :
    (∃ path t, Path.readRelative s.rest = some (path, t.rest) ∧ s.relative = (true, t) ∧
      t.text = s.text ∧ t.Faithful) ∨
    ∃ t, Path.readRelative s.rest = none ∧ s.relative = (false, t) ∧ t.toPlace = s.toPlace ∧
      t.Faithful := by
  rw [relative, Path.readRelative]
  obtain ⟨w, t, hw, hanswer, htext, ht⟩ | ⟨m, t, hw, hanswer, hplace, ht⟩ :=
    word_cases hs ['/'] .written
  · obtain ⟨htext', hrest', ht'⟩ := pathTail_spec ht (Nat.le_refl _)
    rw [hw, hanswer]
    refine .inl ⟨w.written ++ (Path.readTail t.rest).1, pathTail t.rest.length t, ?_, rfl,
      htext'.trans htext, ht'⟩
    rw [hrest']
    rfl
  · rw [hw, hanswer]
    exact .inr ⟨t, rfl, rfl, hplace, ht⟩

theorem agrees_path (hs : s.Faithful) : Agrees s .path s.path := by
  refine agrees_remember hs ?_
  rw [Part.read, Reader.path]
  cases hafter : Text.after ['/'] s.rest with
  | none =>
    rw [Path.read_of_after_eq_none hafter]
    obtain ⟨path, t, hread, hanswer, htext, ht⟩ | ⟨t, hread, hanswer, hplace, ht⟩ :=
      relative_cases hs
    · have htaken : Text.upTo s.rest t.rest = path := by
        rw [(Path.readRelative_eq_some hread).1, Text.upTo_append]
      simp only [hread, hanswer, htaken]
      exact .ok htext ht
    · simp only [hread, hanswer]
      exact .error (by rw [hplace]) ht
  | some behind =>
    have hrest : s.rest = '/' :: behind := Text.after_eq_some_iff.1 hafter
    have hbehind : (s.moveTo behind).rest = behind :=
      rest_moveTo (hrest ▸ List.suffix_cons '/' behind)
    simp only [hrest, Path.read, if_true]
    obtain ⟨path, t, hread, hanswer, htext, ht⟩ | ⟨t, hread, hanswer, hplace, ht⟩ :=
      relative_cases (hs.moveTo behind)
    · rw [hbehind] at hread
      have htaken : Text.upTo ('/' :: behind) t.rest = '/' :: path := by
        rw [(Path.readRelative_eq_some hread).1, ← List.cons_append, Text.upTo_append]
      simp only [hread, hanswer, htaken]
      exact .ok htext ht
    · -- a slash alone is a path
      rw [hbehind] at hread
      have hleft : t.rest = behind := by rw [hplace, hbehind]
      have htaken : Text.upTo ('/' :: behind) t.rest = ['/'] := by
        rw [hleft]
        exact Text.upTo_append ['/'] behind
      simp only [hread, hanswer, htaken]
      rw [← hleft]
      exact .ok (by rw [hplace]; rfl) ht

end Paths

/-! ## Arrays -/

section Arrays

variable {s : Session}

/-- The elements of an array are read as by the plain reader. The fuel suffices, because each
element takes a character. -/
theorem computes_elements (quotes : ElementQuotes) {fuel : Nat} (hs : s.Faithful)
    (hfuel : s.rest.length < fuel) :
    Computes s (Reader.elements quotes s.rest) (elements quotes fuel s) := by
  induction fuel generalizing s with
  | zero => exact absurd hfuel (Nat.not_lt_zero _)
  | succ fuel ih =>
    have hstart : (s.moveTo (Text.trimLeft s.rest)).rest = Text.trimLeft s.rest :=
      rest_moveTo (Text.trimLeft_suffix _)
    rw [Reader.elements_eq, elements]
    simp only [hstart]
    cases hquote : Reader.elementQuote quotes (Text.trimLeft s.rest) with
    | none => exact .error rfl (hs.moveTo _)
    | some q =>
      obtain ⟨inner, t, hread, hanswer, htext, ht⟩ | ⟨t, hread, hanswer, hplace, ht⟩ :=
        quoted_cases (hs.moveTo (Text.trimLeft s.rest)) q.char .value
      · rw [hstart] at hread
        change Quoted.read q _ = _ at hread
        change t.text = s.text at htext
        have hlength := Quoted.read_length_lt hread
        have hlength' := Text.trimLeft_length_le s.rest
        have hleft := Text.trimLeft_length_le t.rest
        simp only [hread, hanswer]
        -- both readers look at the character behind the blanks
        cases hdelimiter : Text.trimLeft t.rest with
        | nil => exact .error htext ht
        | cons c behind =>
          have hsuffix := Text.suffix_of_trimLeft hdelimiter
          have hbehind : (t.moveTo behind).rest = behind := rest_moveTo hsuffix
          by_cases hcomma : c = ','
          · subst hcomma
            rw [hdelimiter, List.length_cons] at hleft
            have hmore := ih (ht.moveTo behind) (by rw [hbehind]; omega)
            rw [hbehind] at hmore
            simp only
            generalize Reader.elements quotes behind = outcome at hmore ⊢
            generalize elements quotes fuel (t.moveTo behind) = answer at hmore ⊢
            cases hmore with
            | ok htext' hlast => exact .ok (htext'.trans htext) hlast
            | error htext' hlast => exact .error (htext'.trans htext) hlast
          · by_cases hbracket : c = ']'
            · subst hbracket
              exact .moveTo htext ht _ hsuffix
            · simp only [List.cons.injEq, hcomma, hbracket, false_and, imp_self, implies_true]
              exact .error htext ht
      · rw [hstart] at hread hanswer
        change Quoted.read q _ = _ at hread
        simp only [hread, hanswer]
        exact .error (by rw [hplace]; rfl) ht

theorem agrees_array (hs : s.Faithful) (quotes : ElementQuotes) :
    Agrees s (.array quotes) (s.array quotes) := by
  refine agrees_remember hs ?_
  rw [Part.read]
  cases hafter : Text.after ['['] s.rest with
  | none =>
    rw [Reader.array_of_after_eq_none quotes hafter]
    exact .error rfl hs
  | some behind =>
    have hrest : s.rest = '[' :: behind := Text.after_eq_some_iff.1 hafter
    have hbehind : (s.moveTo behind).rest = behind :=
      rest_moveTo (hrest ▸ List.suffix_cons '[' behind)
    have hfuel : (s.moveTo behind).rest.length < s.rest.length := by
      rw [hbehind, hrest]
      exact Nat.lt_succ_self _
    have helements := computes_elements quotes (hs.moveTo behind) hfuel
    rw [hbehind] at helements
    rw [hrest, Reader.array_eq, ← hrest]
    simp only
    generalize Reader.elements quotes behind = outcome at helements ⊢
    generalize elements quotes s.rest.length (s.moveTo behind) = answer at helements ⊢
    cases helements with
    | ok htext ht => exact .ok htext ht
    | error htext ht => exact .error htext ht

end Arrays

/-! ## Steps and runs -/

section Runs

variable {s : Session}

/-- **Every part is read as by a plain session.** -/
theorem agrees_read {k : Kind} (hs : s.Faithful) (part : Part k) : Agrees s part (s.read part) := by
  cases part with
  | word stops taking => exact agrees_word hs stops taking
  | quoted q taking => exact agrees_quoted hs q taking
  | path => exact agrees_path hs
  | array quotes => exact agrees_array hs quotes

/-- **A step answers as a plain step** and leaves a faithful session at the same place. -/
theorem step_spec (hs : s.Faithful) (op : Operation) :
    (s.step op).1 = (s.toPlace.step op).1 ∧ (s.step op).2.toPlace = (s.toPlace.step op).2 ∧
      (s.step op).2.text = s.text ∧ (s.step op).2.Faithful := by
  cases op with
  | read part =>
    obtain ⟨hresult, hplace, hfaithful⟩ := agrees_read hs part
    refine ⟨congrArg Answer.content hresult, hplace, ?_, hfaithful⟩
    rw [← s.toPlace.text_read part, ← hplace]
    rfl
  | move m =>
    obtain ⟨htext, hinside⟩ := Place.move_spec hs.inside m
    exact ⟨rfl, rfl, htext, hs.of_place htext (by rwa [htext])⟩

/-- What holds of a step holds of a run: the answers and the positions are those of the plain
session, and the session behind the run is faithful to the same text. -/
theorem run_spec (hs : s.Faithful) (ops : List Operation) :
    s.run ops = s.toPlace.run ops ∧ (s.after ops).text = s.text ∧ (s.after ops).Faithful := by
  induction ops generalizing s with
  | nil => exact ⟨rfl, rfl, hs⟩
  | cons op ops ih =>
    obtain ⟨hanswer, hplace, htext, hfaithful⟩ := step_spec hs op
    obtain ⟨hrun, htext', hafter⟩ := ih hfaithful
    rw [Session.run, Place.run, Session.after]
    refine ⟨?_, htext'.trans htext, hafter⟩
    rw [hanswer, hrun, hplace]

/-- **A remembering session answers as a plain one.** For every text and all operations, in any
order and with any returns to earlier places, the answers are those of the session that reads every
part afresh, with the same position behind each of them; and every memory of the session behind the
operations is what its part leaves when it is read afresh at its position. -/
theorem run_start (text : Text) (ops : List Operation) :
    (start text).run ops = (Place.mk text 0).run ops ∧
      ∀ k, ∀ e ∈ ((start text).after ops).memories k,
        e.2 = Memory.afresh text e.1.1 e.1.2 := by
  obtain ⟨hrun, htext, hafter⟩ := run_spec (faithful_start text) ops
  refine ⟨hrun, fun k e he => ?_⟩
  rw [hafter.memories k e he, htext]
  rfl

-- a word that is read again at its place is looked up, so that it is kept once
example : ((start "alpha beta".toList).after [.read (.word ['='] .value), .move (.reset 0),
    .read (.word ['='] .value)]).texts.length = 1 := by
  decide

end Runs

end Session

end Dockerlint
