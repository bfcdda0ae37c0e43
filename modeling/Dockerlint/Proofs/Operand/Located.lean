import Dockerlint.Operand.Basic
import Dockerlint.Proofs.Operand.Image
import Dockerlint.Proofs.Reader.Session

/-!
# Where mismatches lie

A mismatch carries the text that was left when a grammar stopped. Here that text is shown to be a
tail of the argument, whatever the grammar and wherever it stopped: every part that is read leaves a
tail of what it was read from, a grammar stops at a tail that a part has left, and of two
alternatives the mismatch that counts is one of theirs. So a mismatch has a column in the argument,
and text in front of the argument moves that column by its length.

## Main definitions

* `Mismatch.Within`: the mismatches in a text
* `Reader.Leaves`: the readers that leave a tail of what they were given
* `Reader.Located`: the grammars that stop only within what they were given

## Main results

* `Mismatch.Within.column_append`: text in front of an argument moves the columns in it
* `Flag.suffix_readAll`: what flags leave
* `Form.located_read`: every grammar stops within its argument
-/

namespace Dockerlint

/-! ## Mismatches in a text -/

/-- An error of a mapped outcome is one of the outcome. -/
theorem eq_error_of_map_eq_error {ε α β : Type} {f : α → β} {outcome : Except ε α} {e : ε}
    (h : outcome.map f = .error e) : outcome = .error e := by
  cases outcome with
  | error d => exact congrArg _ (Except.error.inj h)
  | ok a => cases h

namespace Mismatch

/-- A mismatch in a text: what was left at it is a tail of the text. -/
def Within (t : Text) (m : Mismatch) : Prop := ∃ rest, m.rest? = some rest ∧ rest <:+ t

variable {s t : Text} {m n : Mismatch}

theorem within_expected (what : Expectation) {rest : Text} (h : rest <:+ t) :
    (Mismatch.expected what rest).Within t :=
  ⟨rest, rfl, h⟩

theorem Within.mono (h : m.Within s) (hst : s <:+ t) : m.Within t := by
  obtain ⟨rest, hrest, hs⟩ := h
  exact ⟨rest, hrest, hs.trans hst⟩

/-- The mismatch that got further is one of the two. -/
theorem Within.furthest (hm : m.Within t) (hn : n.Within t) : (m.furthest n).Within t := by
  obtain ⟨left, hleft, -⟩ := id hm
  obtain ⟨right, hright, -⟩ := id hn
  simp only [Mismatch.furthest, hleft, hright]
  split
  · exact hn
  · exact hm

/-- **Text in front of an argument moves the columns in it** by its length. -/
theorem Within.column_append (h : m.Within t) (front : Text) :
    ∃ c, m.column t = some c ∧ m.column (front ++ t) = some (c + front.length) := by
  obtain ⟨rest, hrest, hsuffix⟩ := h
  have hle : rest.length ≤ t.length := hsuffix.length_le
  refine ⟨t.length - rest.length + 1, by rw [column, hrest]; rfl, ?_⟩
  rw [column, hrest, Option.map_some, List.length_append]
  congr 1
  omega

end Mismatch

namespace Reader

/-! ## What readers leave, and where they stop -/

/-- A reader that leaves a tail of what it was given. -/
def Leaves {α : Type} (read : Text → Option (α × Text)) : Prop :=
  ∀ ⦃t : Text⦄ ⦃a : α⦄ ⦃rest : Text⦄, read t = some (a, rest) → rest <:+ t

/-- A grammar that stops only within what it was given. -/
def Located {α : Type} (read : Text → Except Mismatch α) : Prop :=
  ∀ ⦃t : Text⦄ ⦃m : Mismatch⦄, read t = .error m → m.Within t

variable {α β : Type}

theorem Leaves.map {read : Text → Option (α × Text)} (h : Leaves read) (f : α → β) :
    Leaves fun t => (read t).map fun (a, behind) => (f a, behind) := by
  intro t b rest hb
  obtain ⟨⟨a, behind⟩, ha, hpair⟩ := Option.map_eq_some_iff.1 hb
  obtain ⟨-, rfl⟩ := Prod.mk.inj hpair
  exact h ha

theorem Leaves.trimLeft {read : Text → Option (α × Text)} (h : Leaves read) :
    Leaves fun t => read (Text.trimLeft t) :=
  fun t _ _ ha => (h ha).trans (Text.trimLeft_suffix t)

/-- A reader behind a fixed word. -/
theorem Leaves.after {read : Text → Option (α × Text)} (h : Leaves read) (word : Text) :
    Leaves fun t => (Text.after word t).bind read := by
  intro t a rest ha
  obtain ⟨behind, hbehind, hread⟩ := Option.bind_eq_some_iff.1 ha
  rw [Text.after_eq_some_iff.1 hbehind]
  exact (h hread).trans (List.suffix_append word behind)

theorem Located.map {read : Text → Except Mismatch α} (h : Located read) (f : α → β) :
    Located fun t => (read t).map f :=
  fun _ _ hm => h (eq_error_of_map_eq_error hm)

theorem located_finish (a : α) : Located (finish a) := by
  intro t m h
  unfold finish at h
  split at h
  · cases h
  · obtain rfl := Except.error.inj h
    exact Mismatch.within_expected _ (Text.trimLeft_suffix t)

/-- What is required stands where the text begins. -/
theorem located_require (what : Expectation) (read : Text → Option α) :
    Located fun t => what.require t (read t) := by
  intro t m h
  cases hread : read t with
  | some a =>
    simp only [hread] at h
    cases h
  | none =>
    simp only [hread] at h
    obtain rfl := Except.error.inj h
    exact Mismatch.within_expected what (List.suffix_refl t)

theorem located_word (stops : List Char) : Located (word stops) := located_require _ _

theorem located_path : Located path := located_require _ _

end Reader

open Reader (Leaves Located)

theorem Word.leaves_read (stops : List Char) : Leaves (Word.read stops) :=
  fun _ _ _ h => Word.suffix_of_read h

theorem Word.suffix_readMany (stops : List Char) (t : Text) : (readMany stops t).2 <:+ t := by
  fun_induction readMany stops t with
  | case1 t h => exact List.suffix_refl t
  | case2 t w rest h ws behind hmany ih =>
    rw [hmany] at ih
    exact ih.trans ((Word.leaves_read stops).trimLeft h)

theorem Path.leaves_read : Leaves Path.read := fun _ _ _ h => Path.suffix_of_read h

theorem Quoted.leaves_read (q : Quote) : Leaves (Quoted.read q) :=
  fun _ _ _ h => Quoted.suffix_of_between h

namespace Reader

/-! ## Arrays -/

theorem located_elements (quotes : ElementQuotes) : Located (elements quotes) := by
  intro t m h
  -- an element stops where it begins or at what follows it, and the others stop within that
  have hbehind : ∀ {t : Text} {q : Quote} {inner behind : Text},
      Quoted.read q (Text.trimLeft t) = some (inner, behind) → Text.trimLeft behind <:+ t :=
    fun hq => (Text.trimLeft_suffix _).trans ((Quoted.leaves_read _).trimLeft hq)
  fun_induction elements quotes t
  case case1 t start hquote =>
    obtain rfl := Except.error.inj h
    exact Mismatch.within_expected _ (Text.trimLeft_suffix t)
  case case2 t start q hquote hread =>
    obtain rfl := Except.error.inj h
    exact Mismatch.within_expected _ (Text.trimLeft_suffix t)
  case case4 inner behind hread rest hcomma n hmore ih =>
    obtain rfl := Except.error.inj h
    have hrest : rest <:+ Text.trimLeft behind := hcomma ▸ List.suffix_cons ',' rest
    exact (ih hmore).mono (hrest.trans (hbehind hread))
  case case6 hread hcomma hbracket =>
    obtain rfl := Except.error.inj h
    exact Mismatch.within_expected _ (hbehind hread)
  all_goals cases h

theorem located_array (quotes : ElementQuotes) : Located (array quotes) := by
  intro t m h
  cases t with
  | nil =>
    obtain rfl := Except.error.inj h
    exact Mismatch.within_expected _ (List.suffix_refl _)
  | cons c t =>
    rw [array] at h
    split at h
    · exact (located_elements quotes h).mono (List.suffix_cons c t)
    · obtain rfl := Except.error.inj h
      exact Mismatch.within_expected _ (List.suffix_refl _)

end Reader

/-! ## Words, pairs, ports and maintainers -/

/-- A word at the beginning of an argument, and what it leaves. -/
theorem Reader.suffix_of_word {stops : List Char} {t : Text} {w : Word} {rest : Text}
    (h : Reader.word stops (Text.trimLeft t) = .ok (w, rest)) : rest <:+ t :=
  (Word.leaves_read stops).trimLeft (Expectation.require_eq_ok_iff.1 h)

theorem StopSignal.located_read : Located StopSignal.read := by
  intro t m h
  rw [StopSignal.read] at h
  split at h
  · next n hw =>
    obtain rfl := Except.error.inj h
    exact (Reader.located_word [] hw).mono (Text.trimLeft_suffix t)
  · next w rest hw => exact (Reader.located_finish _ h).mono (Reader.suffix_of_word hw)

theorem Workdir.located_read : Located Workdir.read := by
  intro t m h
  rw [Workdir.read] at h
  split at h
  · next n hpath =>
    obtain rfl := Except.error.inj h
    exact (Reader.located_path hpath).mono (Text.trimLeft_suffix t)
  · next path rest hpath =>
    exact (Reader.located_finish _ h).mono
      (Path.leaves_read.trimLeft (Expectation.require_eq_ok_iff.1 hpath))

theorem Pair.located_read (sep : Char) : Located (Pair.read sep) := by
  intro t m h
  rw [Pair.read] at h
  split at h
  · next n hw =>
    obtain rfl := Except.error.inj h
    exact (Reader.located_word [sep] hw).mono (Text.trimLeft_suffix t)
  · next w rest hw =>
    have hrest : rest <:+ t := Reader.suffix_of_word hw
    split at h
    · next v behind hv =>
      have hbehind : behind <:+ rest := (Word.leaves_read []).after [sep] hv
      exact (Reader.located_finish _ h).mono (hbehind.trans hrest)
    · exact (Reader.located_finish _ h).mono hrest

theorem Ports.located_read : Located Ports.read := by
  intro t m h
  fun_induction Ports.read t
  case case1 t start hw =>
    obtain rfl := Except.error.inj h
    exact Mismatch.within_expected _ (Text.trimLeft_suffix t)
  case case2 => cases h
  case case3 t start w rest hw hport hend ih =>
    have hrest : rest <:+ t := (Word.leaves_read []).trimLeft hw
    exact (ih (eq_error_of_map_eq_error h)).mono hrest
  case case4 t start w rest hw hport =>
    obtain rfl := Except.error.inj h
    exact Mismatch.within_expected _ (Text.trimLeft_suffix t)

theorem Maintainers.located_read : Located Maintainers.read := by
  intro t m h
  -- an entry takes words, and each of them leaves a tail
  have hmany : ∀ {t : Text} {w : Word} {rest : Text},
      Word.read [','] (Text.trimLeft t) = some (w, rest) → (Word.readMany [','] rest).2 <:+ t :=
    fun hw => (Word.suffix_readMany [','] _).trans ((Word.leaves_read [',']).trimLeft hw)
  fun_induction Maintainers.read t
  case case1 t start hw =>
    obtain rfl := Except.error.inj h
    exact Mismatch.within_expected _ (Text.trimLeft_suffix t)
  case case2 t start w rest hw more entry hcomma =>
    exact (Reader.located_finish _ h).mono (hmany hw)
  case case3 t start w rest hw more entry behind hcomma ih =>
    have hbehind : behind <:+ Text.trimLeft more.2 := by
      rw [Text.after_eq_some_iff.1 hcomma]
      exact List.suffix_append ..
    have hmore : Text.trimLeft more.2 <:+ t := (Text.trimLeft_suffix _).trans (hmany hw)
    exact (ih (eq_error_of_map_eq_error h)).mono (hbehind.trans hmore)

/-! ## Assignments and commands -/

namespace Assignments

theorem suffix_readValue (t : Text) : (readValue t).2 <:+ t := by
  unfold readValue
  split
  · next w behind hw => exact Word.leaves_read [] hw
  · exact List.suffix_refl t

theorem suffix_readPairs (t : Text) : (readPairs t).2 <:+ t := by
  fun_induction readPairs t with
  | case1 t hkey => exact List.suffix_refl t
  | case2 t key rest hkey hequals => exact List.suffix_refl t
  | case3 t key rest hkey behind hequals value more ih =>
    have hbehind : behind <:+ rest := by
      rw [Text.after_eq_some_iff.1 hequals]
      exact List.suffix_append ..
    have hrest : rest <:+ t := (Word.leaves_read ['=']).trimLeft hkey
    exact ih.trans ((suffix_readValue behind).trans (hbehind.trans hrest))

theorem leaves_readOldStyle : Leaves readOldStyle := by
  intro t p rest h
  rw [readOldStyle] at h
  split at h
  · cases h
  · next key behind hkey =>
    have hmany := Word.suffix_readMany [] behind
    split at h
    · cases h
    · next w ws left hleft =>
      obtain ⟨-, rfl⟩ := Prod.mk.inj (Option.some.inj h)
      rw [hleft] at hmany
      exact hmany.trans (Word.leaves_read [] hkey)

theorem located_read : Located Assignments.read := by
  intro t m h
  have hpairs := suffix_readPairs (Text.trimLeft t)
  have hstart := Text.trimLeft_suffix t
  rw [Assignments.read] at h
  split at h
  · next p ps rest hread =>
    rw [hread] at hpairs
    exact (Reader.located_finish _ h).mono (hpairs.trans hstart)
  · split at h
    · next p rest hold =>
      exact (Reader.located_finish _ h).mono ((leaves_readOldStyle hold).trans hstart)
    · obtain rfl := Except.error.inj h
      exact Mismatch.within_expected _ hstart

end Assignments

/-- What an array leaves. -/
theorem Reader.suffix_of_array {quotes : ElementQuotes} {t rest : Text} {es : List Element}
    (h : Reader.array quotes t = .ok (es, rest)) : rest <:+ t := by
  have hpart : (Part.array quotes).read t = .ok (es, rest) := h
  exact Part.suffix_of_read hpart

theorem Command.located_read : Located Command.read := by
  intro t m h
  have hstart := Text.trimLeft_suffix t
  rw [Command.read] at h
  split at h
  · split at h
    · next n harray =>
      obtain rfl := Except.error.inj h
      exact (Reader.located_array _ harray).mono hstart
    · next es rest harray =>
      exact (Reader.located_finish _ h).mono ((Reader.suffix_of_array harray).trans hstart)
  · cases h

/-! ## Flags, transfers and health checks -/

/-- **What flags leave** is a tail, if their values leave tails. -/
theorem Flag.suffix_readAll {ι : Type} {flags : List (Flag ι)}
    (hflags : ∀ f ∈ flags, Leaves f.value) (t : Text) : (readAll flags t).2 <:+ t := by
  fun_induction readAll flags t with
  | case1 flags t h => exact List.suffix_refl t
  | case2 flags t found h more ih =>
    obtain ⟨⟨f, hf, -, hread⟩, hothers⟩ := pick_spec h
    have hbehind : found.behind <:+ t := ((hflags f hf).after f.opening).trimLeft hread
    exact (ih fun g hg => hflags g (hothers g hg)).trans hbehind

namespace Transfer

theorem leaves_readOwner : Leaves readOwner := by
  intro t value rest h
  rw [readOwner] at h
  split at h
  · cases h
  · next user behind huser =>
    split at h
    · cases h
    · next group left hleft =>
      obtain ⟨-, rfl⟩ := Prod.mk.inj (Option.some.inj h)
      exact ((Word.leaves_read []).after [':'] hleft).trans (Word.leaves_read [':'] huser)

theorem leaves_flags : ∀ f ∈ flags, Leaves f.value := by
  refine List.forall_mem_cons.2 ⟨leaves_readOwner, List.forall_mem_singleton.2 ?_⟩
  exact (Word.leaves_read []).map Word.written

theorem located_readArray : Located readArray := by
  intro t m h
  rw [readArray] at h
  split at h
  · next n harray =>
    obtain rfl := Except.error.inj h
    exact Reader.located_array _ harray
  · next es rest harray =>
    have hrest := Reader.suffix_of_array harray
    split at h
    · obtain rfl := Except.error.inj h
      exact Mismatch.within_expected _ hrest
    · exact (Reader.located_finish _ h).mono hrest

theorem located_readPaths : Located readPaths := by
  intro t m h
  fun_induction readPaths t
  case case1 t hpath =>
    obtain rfl := Except.error.inj h
    exact Mismatch.within_expected _ (List.suffix_refl t)
  case case2 => cases h
  case case3 t path rest hpath hend ih =>
    have hrest : Text.trimLeft rest <:+ t :=
      (Text.trimLeft_suffix rest).trans (Path.leaves_read hpath)
    exact (ih (eq_error_of_map_eq_error h)).mono hrest

theorem located_readShell : Located readShell := by
  intro t m h
  rw [readShell] at h
  split at h
  · next n hpaths =>
    obtain rfl := Except.error.inj h
    exact located_readPaths hpaths
  · next paths hpaths =>
    -- with too few paths the end of the text is the place
    exact (Reader.located_require .path (fun _ => divide paths) h).mono List.nil_suffix

theorem located_readParts : Located readParts := by
  intro t m h
  rw [readParts] at h
  split at h
  · cases h
  · next n harray =>
    split at h
    · cases h
    · next o hshell =>
      obtain rfl := Except.error.inj h
      exact (located_readArray harray).furthest (located_readShell hshell)

theorem located_read : Located Transfer.read := by
  intro t m h
  have hbehind := Flag.suffix_readAll leaves_flags t
  exact (located_readParts (eq_error_of_map_eq_error h)).mono
    ((Text.trimLeft_suffix _).trans hbehind)

end Transfer

namespace Healthcheck

theorem leaves_flags : ∀ f ∈ flags, Leaves f.value := by
  intro f hf
  obtain ⟨setting, -, rfl⟩ := List.mem_map.1 hf
  exact (Word.leaves_read []).trimLeft.map Word.written

theorem located_readCheck : Located readCheck := by
  intro t m h
  rw [readCheck] at h
  split at h
  · next rest hnone =>
    have hrest : rest <:+ t := by
      rw [Text.after_eq_some_iff.1 hnone]
      exact List.suffix_append ..
    exact (Reader.located_finish _ h).mono hrest
  · split at h
    · cases h
    · obtain rfl := Except.error.inj h
      exact Mismatch.within_expected _ (List.suffix_refl t)

theorem located_read : Located Healthcheck.read := by
  intro t m h
  have hbehind := Flag.suffix_readAll leaves_flags t
  exact (located_readCheck (eq_error_of_map_eq_error h)).mono
    ((Text.trimLeft_suffix _).trans hbehind)

end Healthcheck

/-! ## Images -/

namespace Image

theorem suffix_readTag (t : Text) : (readTag t).2 <:+ t :=
  ⟨tagText (readTag t).1, (readTag_eq t).symm⟩

theorem suffix_readStageName (t : Text) : (readStageName t).2 <:+ t := by
  unfold readStageName
  split
  · next w behind h =>
    obtain ⟨rest, has, hw⟩ := Option.bind_eq_some_iff.1 h
    obtain ⟨letters, hletters, -⟩ := Text.afterCaseless_eq_some_iff.1 has
    have hrest : rest <:+ Text.trimLeft t := ⟨letters, hletters.symm⟩
    have hbehind : behind <:+ rest := (Word.leaves_read []).trimLeft hw
    exact hbehind.trans (hrest.trans (Text.trimLeft_suffix t))
  · exact List.suffix_refl t

theorem located_read : Located Image.read := by
  intro t m h
  -- the image stands behind the segments
  have hsegments : (readSegments (Text.trimLeft t)).2 <:+ t :=
    List.IsSuffix.trans ⟨_, (readSegments_spec (Text.trimLeft t)).1.symm⟩ (Text.trimLeft_suffix t)
  rw [Image.read] at h
  dsimp only at h
  split at h
  · next n himage =>
    obtain rfl := Except.error.inj h
    exact (Reader.located_word _ himage).mono hsegments
  · next image rest himage =>
    have hrest : rest <:+ t :=
      (Word.leaves_read _ (Expectation.require_eq_ok_iff.1 himage)).trans hsegments
    have hend : (readStageName (readTag rest).2).2 <:+ rest :=
      (suffix_readStageName _).trans (suffix_readTag rest)
    exact (Reader.located_finish _ h).mono (hend.trans hrest)

end Image

/-- **Every grammar stops within its argument.** -/
theorem Form.located_read (f : Form) : Located f.read := by
  cases f with
  | assignments => exact Assignments.located_read.map Operand.assignments
  | command => exact Command.located_read.map Operand.command
  | healthcheck => exact Healthcheck.located_read.map Operand.healthcheck
  | image => exact Image.located_read.map Operand.image
  | maintainers => exact Maintainers.located_read.map Operand.maintainers
  | parameter => exact (Pair.located_read '=').map fun p => Operand.parameter p.first p.second
  | ports => exact Ports.located_read.map Operand.ports
  | stopSignal => exact StopSignal.located_read.map Operand.stopSignal
  | transfer => exact Transfer.located_read.map Operand.transfer
  | user => exact (Pair.located_read ':').map fun p => Operand.user p.first p.second
  | workdir => exact Workdir.located_read.map Operand.workdir

end Dockerlint
