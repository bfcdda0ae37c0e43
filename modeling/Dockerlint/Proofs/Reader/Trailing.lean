import Dockerlint.Proofs.Operand.Array
import Dockerlint.Proofs.Word

/-!
# Blanks at the end of a text

No part of an argument ends in a blank: a word ends before it, a quoted string ends in its quote
and a path in a word or a slash. So a reader cannot tell apart two texts that differ only in the
blanks at their end. It finds the same part in both, and what it leaves differs again only in the
blanks at the end. Here this is proved of the readers that the grammars are made of.

## Main definitions

* `Text.Alike`: texts that differ only in the blanks at their end
* `Text.Agree`: the same part, with such texts behind it
* `Reader.Steady`: readers that give parts that agree on texts that are alike

## Main results

* `Text.Alike.exists_append`: texts that are alike begin with the same parts
* `Word.steady_read`, `Path.steady_read`, `Quoted.steady_read`: the readers of the parts are steady
* `Reader.array_of_alike`: so is the reader of arrays
-/

namespace Dockerlint

namespace Text

/-! ## Texts that are alike -/

/-- Texts that differ only in the blanks at their end. -/
def Alike (s t : Text) : Prop := trimRight s = trimRight t

namespace Alike

variable {s t : Text}

theorem symm (h : Alike s t) : Alike t s := Eq.symm h

theorem trimLeft (h : Alike s t) : Alike (Text.trimLeft s) (Text.trimLeft t) := by
  rw [Alike, trimRight_trimLeft, trimRight_trimLeft, h]

theorem append {x r r' : Text} (hx : trimRight x = x) (h : Alike r r') :
    Alike (x ++ r) (x ++ r') := by
  rw [Alike, trimRight_append_of_eq_self hx, trimRight_append_of_eq_self hx, h]

/-- **Texts that are alike begin with the same parts**, as long as these do not end in a blank. -/
theorem exists_append {x r : Text} (hx : trimRight x = x) (h : Alike (x ++ r) t) :
    ∃ r', t = x ++ r' ∧ Alike r r' := by
  -- `t` is its trimmed part, which begins with `x`, and blanks
  obtain ⟨blanks, heq, hblanks⟩ := exists_trimRight_append t
  rw [← h, trimRight_append_of_eq_self hx, List.append_assoc] at heq
  refine ⟨trimRight r ++ blanks, heq, ?_⟩
  rw [Alike, trimRight_append_blanks _ hblanks, trimRight_trimRight]

theorem exists_cons {c : Char} (hc : isBlank c = false) (h : Alike (c :: s) t) :
    ∃ t', t = c :: t' ∧ Alike s t' :=
  exists_append (trimRight_singleton hc) h

theorem head?_eq_some {c : Char} (hc : isBlank c = false) (h : Alike s t)
    (hs : s.head? = some c) : t.head? = some c := by
  obtain ⟨s, rfl⟩ := List.head?_eq_some_iff.1 hs
  obtain ⟨t', rfl, -⟩ := h.exists_cons hc
  rfl

/-- A text is blank if it is like a blank one. -/
theorem trimLeft_eq_nil (h : Alike s t) (hs : Text.trimLeft s = []) : Text.trimLeft t = [] := by
  have htrim := h.trimLeft.symm
  rw [hs] at htrim
  cases ht : Text.trimLeft t with
  | nil => rfl
  | cons c rest =>
    -- what is left begins with a character that is not blank
    have hc : isBlank c = false := by
      have hself : Text.trimLeft (c :: rest) = c :: rest := by rw [← ht, trimLeft_trimLeft]
      exact trimLeft_eq_self_iff.1 hself
    rw [ht] at htrim
    obtain ⟨rest', hnil, -⟩ := htrim.exists_cons hc
    cases hnil

/-- Where something is found in every text that is like one in which it is found, it is also missing
in every text that is like one in which it is missing. -/
theorem eq_none {β : Type} {find : Text → Option β}
    (hfind : ∀ ⦃s t : Text⦄, Alike s t → ∀ ⦃b : β⦄, find s = some b → ∃ b', find t = some b')
    (h : Alike s t) (hs : find s = none) : find t = none := by
  rw [Option.eq_none_iff_forall_ne_some]
  intro b ht
  obtain ⟨b', hs'⟩ := hfind h.symm ht
  rw [hs] at hs'
  cases hs'

end Alike

/-- The same part, with texts that are alike behind it. -/
def Agree {α : Type} (x y : α × Text) : Prop := x.1 = y.1 ∧ Alike x.2 y.2

end Text

open Text (Alike Agree)

/-! ## Steady readers -/

namespace Reader

variable {α β : Type}

/-- A reader that gives parts that agree on texts that are alike. -/
def Steady (read : Text → Option (α × Text)) : Prop :=
  ∀ ⦃s t : Text⦄, Alike s t → ∀ ⦃a : α⦄ ⦃rest : Text⦄, read s = some (a, rest) →
    ∃ rest', read t = some (a, rest') ∧ Alike rest rest'

/-- A steady reader finds nothing in a text if it finds nothing in one that is like it. -/
theorem Steady.eq_none {read : Text → Option (α × Text)} (h : Steady read) {s t : Text}
    (hst : Alike s t) (hs : read s = none) : read t = none := by
  refine hst.eq_none ?_ hs
  rintro s t hst ⟨a, rest⟩ ha
  obtain ⟨rest', ht, -⟩ := h hst ha
  exact ⟨(a, rest'), ht⟩

theorem Steady.trimLeft {read : Text → Option (α × Text)} (h : Steady read) :
    Steady fun t => read (Text.trimLeft t) :=
  fun _ _ hst => h hst.trimLeft

theorem Steady.map {read : Text → Option (α × Text)} (h : Steady read) (f : α → β) :
    Steady fun t => (read t).map fun (a, rest) => (f a, rest) := by
  intro s t hst b rest hb
  obtain ⟨⟨a, rest⟩, ha, hpair⟩ := Option.map_eq_some_iff.1 hb
  obtain ⟨rfl, rfl⟩ := Prod.mk.inj hpair
  obtain ⟨rest', ht, hrest⟩ := h hst ha
  exact ⟨rest', by simp only [ht, Option.map_some], hrest⟩

theorem finish_of_alike {a b : α} {s t : Text} (hst : Alike s t) (h : finish a s = .ok b) :
    finish a t = .ok b := by
  rw [finish_eq_ok_iff] at h ⊢
  exact ⟨h.1, hst.trimLeft_eq_nil h.2⟩

end Reader

open Reader (Steady)

/-! ## Fixed words -/

/-- What follows a fixed word that does not end in a blank. -/
theorem Text.after_of_alike {word s t rest : Text} (hword : trimRight word = word)
    (hst : Alike s t) (h : after word s = some rest) :
    ∃ rest', after word t = some rest' ∧ Alike rest rest' := by
  obtain rfl := after_eq_some_iff.1 h
  obtain ⟨rest', rfl, hrest⟩ := hst.exists_append hword
  exact ⟨rest', after_append word rest', hrest⟩

theorem Text.after_eq_none_of_alike {word s t : Text} (hword : trimRight word = word)
    (hst : Alike s t) (h : after word s = none) : after word t = none := by
  refine hst.eq_none ?_ h
  intro s t hst rest hs
  obtain ⟨rest', ht, -⟩ := after_of_alike hword hst hs
  exact ⟨rest', ht⟩

/-- A steady reader behind a fixed word is steady. -/
theorem Reader.Steady.after {α : Type} {read : Text → Option (α × Text)} (h : Steady read)
    {word : Text} (hword : Text.trimRight word = word) :
    Steady fun t => (Text.after word t).bind read := by
  intro s t hst a rest ha
  obtain ⟨behind, hs, hread⟩ := Option.bind_eq_some_iff.1 ha
  obtain ⟨behind', ht, hbehind⟩ := Text.after_of_alike hword hst hs
  obtain ⟨rest', hread', hrest⟩ := h hbehind hread
  exact ⟨rest', by simp only [ht, Option.bind_some, hread'], hrest⟩

theorem isBlank_eq_false_of_le {c : Char} (hlow : 65 ≤ c.toNat) (hhigh : c.toNat ≤ 122) :
    isBlank c = false := by
  simp only [isBlank, Bool.or_eq_false_iff, Bool.and_eq_false_iff, decide_eq_false_iff_not,
    beq_eq_false_iff_ne]
  omega

/-- Lower case makes no blank and unmakes none. -/
theorem isBlank_toLower (c : Char) : isBlank c.toLower = isBlank c := by
  obtain ⟨hlow, hhigh, hlower⟩ | hsame := Text.toLower_cases c
  · -- a letter becomes another letter
    rw [isBlank_eq_false_of_le hlow (by omega), isBlank_eq_false_of_le (by omega) (by omega)]
  · rw [hsame]

theorem Text.afterCaseless_of_alike {word s t rest : Text} (hword : ∀ c ∈ word, isBlank c = false)
    (hst : Alike s t) (h : afterCaseless word s = some rest) :
    ∃ rest', afterCaseless word t = some rest' ∧ Alike rest rest' := by
  induction word generalizing s t with
  | nil =>
    obtain rfl := Option.some.inj h
    exact ⟨t, rfl, hst⟩
  | cons w word ih =>
    obtain ⟨hw, hword⟩ := List.forall_mem_cons.1 hword
    cases s with
    | nil => cases h
    | cons c s =>
      rw [afterCaseless] at h
      split at h
      · next hlower =>
        have hc : isBlank c = false := by
          rw [← isBlank_toLower, ← hlower, isBlank_toLower, hw]
        obtain ⟨t, rfl, ht⟩ := hst.exists_cons hc
        rw [afterCaseless, if_pos hlower]
        exact ih hword ht h
      · cases h

/-! ## Quoted strings and words -/

theorem Quoted.trimRight_string (q : Quote) (inner : Text) :
    Text.trimRight (q.char :: (inner ++ [q.char])) = q.char :: (inner ++ [q.char]) := by
  have hquote : isBlank q.char = false := by cases q <;> rfl
  exact Text.trimRight_concat (q.char :: inner) hquote

theorem Quoted.read_eq_some_iff {q : Quote} {t inner behind : Text} :
    Quoted.read q t = some (inner, behind) ↔
      t = q.char :: (inner ++ q.char :: behind) ∧ IsBody q.char inner := by
  have hline : q.char ≠ '\n' := by cases q <;> decide
  have hcons : ∀ rest, Quoted.read q (q.char :: rest) = body q.char rest := fun rest => by
    rw [Quoted.read, between, if_pos ⟨rfl, q.char_ne_backslash⟩]
  constructor
  · intro h
    obtain rfl := read_eq_some h
    rw [hcons] at h
    exact ⟨rfl, isBody_of_body h⟩
  · rintro ⟨rfl, hinner⟩
    rw [hcons]
    exact hinner.body_append q.char_ne_backslash hline behind

/-- **The reader of quoted strings is steady.** -/
theorem Quoted.steady_read (q : Quote) : Steady (Quoted.read q) := by
  intro s t hst inner behind h
  obtain ⟨hs, hinner⟩ := read_eq_some_iff.1 h
  have hsplit : s = (q.char :: (inner ++ [q.char])) ++ behind := by rw [hs]; simp
  rw [hsplit] at hst
  obtain ⟨behind', rfl, hbehind⟩ := hst.exists_append (trimRight_string q inner)
  exact ⟨behind', read_eq_some_iff.2 ⟨by simp, hinner⟩, hbehind⟩

namespace Word

theorem Fits.trimRight {stops : List Char} {w : Word} (h : w.Fits stops) :
    Text.trimRight w.written = w.written := by
  cases w with
  | quoted inner => exact Quoted.trimRight_string .double inner
  | bare run =>
    refine Text.trimRight_eq_self_iff.2 fun c hc => ?_
    have hrun := h.inRun c (List.mem_of_getLast? hc)
    simp only [Word.inRun, Bool.and_eq_true, Bool.not_eq_true'] at hrun
    exact hrun.1

/-- A word ends before a text if it ends before one that is like it. -/
theorem Ends.of_alike {stops : List Char} {w : Word} {r r' : Text} (hr : Alike r r')
    (h : w.Ends stops r) : w.Ends stops r' := by
  cases w with
  | quoted inner => trivial
  | bare run =>
    intro c hc
    -- a blank ends the word, and any other character begins both texts
    cases hblank : isBlank c with
    | true => rw [inRun, hblank]; rfl
    | false => exact h c (hr.symm.head?_eq_some hblank hc)

/-- **The reader of words is steady.** -/
theorem steady_read (stops : List Char) : Steady (Word.read stops) := by
  intro s t hst w rest h
  obtain ⟨rfl, hfits, hends⟩ := read_eq_some_iff.1 h
  obtain ⟨rest', rfl, hrest⟩ := hst.exists_append hfits.trimRight
  exact ⟨rest', read_eq_some_iff.2 ⟨rfl, hfits, hends.of_alike hrest⟩, hrest⟩

/-- A word behind a separator. -/
theorem steady_behind {sep : Char} (hsep : isBlank sep = false) :
    Steady fun t => (Text.after [sep] t).bind (Word.read []) :=
  (steady_read []).after (Text.trimRight_singleton hsep)

theorem agree_readMany (stops : List Char) {s t : Text} (hst : Alike s t) :
    Agree (readMany stops s) (readMany stops t) := by
  -- the induction follows the reader, word by word
  fun_induction readMany stops s generalizing t with
  | case1 s h =>
    rw [readMany_eq, (steady_read stops).eq_none hst.trimLeft h]
    exact ⟨rfl, hst⟩
  | case2 s w rest h ws behind hmany ih =>
    obtain ⟨rest', ht, hrest⟩ := steady_read stops hst.trimLeft h
    have hmore := ih hrest
    rw [hmany] at hmore
    rw [readMany_eq, ht]
    exact ⟨congrArg (w :: ·) hmore.1, hmore.2⟩

end Word

/-! ## Paths -/

namespace Path

theorem agree_slashes {s t : Text} (hst : Alike s t) : Agree (slashes s) (slashes t) := by
  have hrun : ∀ c ∈ s.takeWhile (· == '/'), (c == '/') = true :=
    List.all_eq_true.1 List.all_takeWhile
  have htrim : Text.trimRight (s.takeWhile (· == '/')) = s.takeWhile (· == '/') := by
    refine Text.trimRight_eq_self_iff.2 fun c hc => ?_
    rw [beq_iff_eq.1 (hrun c (List.mem_of_getLast? hc))]
    rfl
  rw [← List.takeWhile_append_dropWhile (p := (· == '/')) (l := s)] at hst
  obtain ⟨rest, rfl, hrest⟩ := hst.exists_append htrim
  -- no slash follows in either text, since a slash in one of them would be in the other
  have hstop : ∀ c, rest.head? = some c → (c == '/') = false := by
    intro c hc
    cases hslash : c == '/' with
    | false => rfl
    | true =>
      rw [beq_iff_eq.1 hslash] at hc
      have hhead := hrest.symm.head?_eq_some rfl hc
      have hnot := Text.eq_false_of_head?_dropWhile hhead
      cases hnot
  rw [slashes, slashes, Text.takeWhile_run hrun hstop, Text.dropWhile_run hrun hstop]
  exact ⟨rfl, hrest⟩

theorem agree_readTail {s t : Text} (hst : Alike s t) : Agree (readTail s) (readTail t) := by
  -- a slash that no word follows ends the path in both texts, together with the slashes behind it
  fun_induction readTail s generalizing t with
  | case1 =>
    rw [readTail_of_after_eq_none (Text.after_eq_none_of_alike rfl hst rfl)]
    exact ⟨rfl, hst⟩
  | case2 rest h =>
    have hboth := agree_slashes hst
    obtain ⟨rest', rfl, hrest⟩ := hst.exists_cons rfl
    rw [readTail_slash, (Word.steady_read ['/']).eq_none hrest h]
    exact hboth
  | case3 rest w after h tail behind htail ih =>
    obtain ⟨rest', rfl, hrest⟩ := hst.exists_cons rfl
    obtain ⟨after', hread, hafter⟩ := Word.steady_read ['/'] hrest h
    have hmore := ih hafter
    rw [htail] at hmore
    rw [readTail_slash, hread]
    exact ⟨congrArg ('/' :: w.written ++ ·) hmore.1, hmore.2⟩
  | case4 c rest hc =>
    have hnone : Text.after ['/'] (c :: rest) = none := by simp [Text.after, Ne.symm hc]
    rw [readTail_of_after_eq_none (Text.after_eq_none_of_alike rfl hst hnone)]
    exact ⟨rfl, hst⟩

theorem steady_readRelative : Steady readRelative := by
  intro s t hst path rest h
  obtain ⟨⟨w, after⟩, hw, hpair⟩ := Option.map_eq_some_iff.1 h
  obtain ⟨rfl, rfl⟩ := Prod.mk.inj hpair
  obtain ⟨after', hw', hafter⟩ := Word.steady_read ['/'] hst hw
  obtain ⟨htail, hrest⟩ := agree_readTail hafter
  refine ⟨(readTail after').2, ?_, hrest⟩
  rw [readRelative, hw', htail]
  rfl

/-- **The reader of paths is steady.** -/
theorem steady_read : Steady Path.read := by
  intro s t hst path rest h
  cases hslash : Text.after ['/'] s with
  | none =>
    rw [read_of_after_eq_none hslash] at h
    rw [read_of_after_eq_none (Text.after_eq_none_of_alike rfl hst hslash)]
    exact steady_readRelative hst h
  | some s' =>
    obtain rfl := Text.after_eq_some_iff.1 hslash
    obtain ⟨t, rfl, ht⟩ := hst.exists_cons rfl
    rw [List.singleton_append, Path.read, if_pos rfl] at h
    rw [Path.read, if_pos rfl]
    split at h
    · next hnone =>
      obtain ⟨rfl, rfl⟩ := Prod.mk.inj (Option.some.inj h)
      rw [steady_readRelative.eq_none ht hnone]
      exact ⟨t, rfl, ht⟩
    · next relative behind hsome =>
      obtain ⟨rfl, rfl⟩ := Prod.mk.inj (Option.some.inj h)
      obtain ⟨behind', hread, hbehind⟩ := steady_readRelative ht hsome
      rw [hread]
      exact ⟨behind', rfl, hbehind⟩

end Path

/-! ## Arrays -/

namespace Reader

theorem elementQuote_of_alike {quotes : ElementQuotes} {q : Quote} {s t : Text} (hst : Alike s t)
    (h : elementQuote quotes s = some q) : elementQuote quotes t = some q := by
  cases s with
  | nil => cases h
  | cons c s =>
    -- only a quote decides, and a quote is not blank
    have hc : isBlank c = false := by
      rw [elementQuote] at h
      split at h
      · next hc => rw [hc]; rfl
      · split at h
        · next hc => rw [hc.1]; rfl
        · cases h
    obtain ⟨t, rfl, -⟩ := hst.exists_cons hc
    exact h

theorem elements_of_alike {quotes : ElementQuotes} {es : List Element} {s t rest : Text}
    (hst : Alike s t) (h : elements quotes s = .ok (es, rest)) :
    ∃ rest', elements quotes t = .ok (es, rest') ∧ Alike rest rest' := by
  -- the induction is on the elements, one of which is read before the others
  induction es generalizing s t with
  | nil => exact absurd rfl (ne_nil_of_elements h)
  | cons e es ih =>
    rw [elements_eq] at h
    split at h
    · cases h
    · next q hq =>
      split at h
      · cases h
      · next inner behind hread =>
        have hq' := elementQuote_of_alike hst.trimLeft hq
        obtain ⟨behind', hread', hbehind⟩ := Quoted.steady_read q hst.trimLeft hread
        rw [elements_eq, hq']
        simp only [hread']
        split at h
        · next more hcomma =>
          obtain ⟨⟨others, last⟩, hothers, hpair⟩ := exists_of_map_eq_ok h
          obtain ⟨hes, rfl⟩ := Prod.mk.inj hpair
          obtain ⟨rfl, rfl⟩ := List.cons.inj hes
          have hmore := hbehind.trimLeft
          rw [hcomma] at hmore
          obtain ⟨more', hcomma', hmore⟩ := hmore.exists_cons rfl
          obtain ⟨last', hothers', hlast⟩ := ih hmore hothers
          simp only [hcomma', hothers']
          exact ⟨last', rfl, hlast⟩
        · next last hclose =>
          obtain ⟨hes, rfl⟩ := Prod.mk.inj (Except.ok.inj h)
          have hlast := hbehind.trimLeft
          rw [hclose] at hlast
          obtain ⟨last', hclose', hlast⟩ := hlast.exists_cons rfl
          simp only [hclose']
          exact ⟨last', by rw [hes], hlast⟩
        · cases h

/-- **The reader of arrays gives the same elements** on texts that are alike. -/
theorem array_of_alike {quotes : ElementQuotes} {es : List Element} {s t rest : Text}
    (hst : Alike s t) (h : array quotes s = .ok (es, rest)) :
    ∃ rest', array quotes t = .ok (es, rest') ∧ Alike rest rest' := by
  cases s with
  | nil => cases h
  | cons c s =>
    rw [array] at h
    split at h
    · next hc =>
      obtain rfl := hc
      obtain ⟨t, rfl, ht⟩ := hst.exists_cons rfl
      rw [array_eq]
      exact elements_of_alike ht h
    · cases h

end Reader

end Dockerlint
