import Dockerlint.Proofs.Operand.WellFormed
import Dockerlint.Proofs.Reader.Trailing

/-!
# Blanks around an argument

Every grammar but that of `ONBUILD` skips the blanks in front of its first part and, behind its
last part, accepts nothing but blanks. In between it is made of steady readers, so two arguments
that differ only in their outer blanks are read part by part alike, whichever alternative each of
the parts takes. `ONBUILD` is different: it asks for a blank behind the wrapped keyword, and where
nothing else follows the keyword that blank is at the end of the argument.

## Main definitions

* `Reader.IgnoresBlanks`: the grammars to which outer blanks make no difference
* `Flag.IsSteady`: the flags whose values are read by steady readers

## Main results

* `Flag.readAll_of_trim`: flags are read alike
* `Form.ignoresBlanks_read`: no form of argument depends on its outer blanks
* `Args.read_blanks`: blanks around an argument make no difference
-/

namespace Dockerlint

open Text (Alike Agree)
open Reader (Steady)

/-- A grammar that accepts arguments alike if they differ only in their outer blanks. -/
def Reader.IgnoresBlanks {α : Type} (read : Text → Except Mismatch α) : Prop :=
  ∀ ⦃s t : Text⦄, Text.trim s = Text.trim t → ∀ ⦃a : α⦄, read s = .ok a → read t = .ok a

open Reader (IgnoresBlanks)

theorem Reader.IgnoresBlanks.map {α β : Type} {read : Text → Except Mismatch α}
    (h : IgnoresBlanks read) (f : α → β) : IgnoresBlanks fun t => (read t).map f := by
  intro s t hst b hb
  obtain ⟨a, ha, rfl⟩ := exists_of_map_eq_ok hb
  simp only [h hst ha]
  rfl

/-- Such a grammar is known by the trimmed arguments. -/
theorem Reader.IgnoresBlanks.read_trim {α : Type} {read : Text → Except Mismatch α}
    (h : IgnoresBlanks read) {t : Text} {a : α} : read t = .ok a ↔ read (Text.trim t) = .ok a :=
  ⟨fun ha => h (Text.trim_trim t).symm ha, fun ha => h (Text.trim_trim t) ha⟩

theorem Text.alike_trimLeft {s t : Text} (h : trim s = trim t) : Alike (trimLeft s) (trimLeft t) :=
  h

theorem Text.Alike.trim {s t : Text} (h : Alike s t) : Text.trim s = Text.trim t := h.trimLeft

/-! ## Words, pairs, ports and maintainers -/

theorem StopSignal.ignoresBlanks_read : IgnoresBlanks StopSignal.read := by
  intro s t hst signal h
  rw [StopSignal.read] at h ⊢
  split at h
  · cases h
  · next w rest hw =>
    obtain ⟨rest', hw', hrest⟩ :=
      Word.steady_read [] (Text.alike_trimLeft hst) (Expectation.require_eq_ok_iff.1 hw)
    rw [Reader.word, hw']
    exact Reader.finish_of_alike hrest h

theorem Workdir.ignoresBlanks_read : IgnoresBlanks Workdir.read := by
  intro s t hst path h
  rw [Workdir.read] at h ⊢
  split at h
  · cases h
  · next found rest hpath =>
    obtain ⟨rest', hpath', hrest⟩ :=
      Path.steady_read (Text.alike_trimLeft hst) (Expectation.require_eq_ok_iff.1 hpath)
    rw [Reader.path, hpath']
    exact Reader.finish_of_alike hrest h

theorem Pair.ignoresBlanks_read {sep : Char} (hsep : isBlank sep = false) :
    IgnoresBlanks (Pair.read sep) := by
  have hsecond : Steady (readSecond sep) := Word.steady_behind hsep
  intro s t hst p h
  rw [Pair.read] at h ⊢
  split at h
  · cases h
  · next w rest hw =>
    obtain ⟨rest', hw', hrest⟩ :=
      Word.steady_read [sep] (Text.alike_trimLeft hst) (Expectation.require_eq_ok_iff.1 hw)
    rw [Reader.word, hw']
    simp only [Expectation.require]
    -- both texts have a second word, or neither has
    split at h
    · next v behind hv =>
      obtain ⟨behind', hv', hbehind⟩ := hsecond hrest hv
      rw [hv']
      exact Reader.finish_of_alike hbehind h
    · next hv =>
      rw [hsecond.eq_none hrest hv]
      exact Reader.finish_of_alike hrest h

/-- The ports of an argument, one at a time. -/
theorem Ports.read_eq (t : Text) : Ports.read t =
    match Word.read [] (Text.trimLeft t) with
    | none => .error (.expected (.word []) (Text.trimLeft t))
    | some (w, rest) =>
      if isPort w.written then
        if Text.trimLeft rest = [] then .ok [w.written]
        else (Ports.read rest).map (w.written :: ·)
      else .error (.expected .port (Text.trimLeft t)) := by
  rw [Ports.read]
  split
  · next h => simp only [h]
  · next w rest h => simp only [h]

theorem Ports.ignoresBlanks_read : IgnoresBlanks Ports.read := by
  intro s t hst list h
  -- the induction is on the ports, each of which is a word
  induction list generalizing s t with
  | nil => exact absurd rfl (Ports.ne_nil_of_read h)
  | cons port list ih =>
    rw [Ports.read_eq] at h ⊢
    split at h
    · cases h
    · next w rest hw =>
      obtain ⟨rest', hw', hrest⟩ := Word.steady_read [] (Text.alike_trimLeft hst) hw
      simp only [hw']
      split at h
      · next hport =>
        rw [if_pos hport]
        split at h
        · next hend =>
          rw [if_pos (hrest.trimLeft_eq_nil hend), h]
        · next hend =>
          rw [if_neg fun hend' => hend (hrest.symm.trimLeft_eq_nil hend')]
          obtain ⟨others, hothers, heq⟩ := exists_of_map_eq_ok h
          obtain ⟨rfl, rfl⟩ := List.cons.inj heq
          rw [ih hrest.trim hothers]
          rfl
      · cases h

/-- The entries of an argument, one at a time. -/
theorem Maintainers.read_eq (t : Text) : Maintainers.read t =
    match Word.read [','] (Text.trimLeft t) with
    | none => .error (.expected (.word [',']) (Text.trimLeft t))
    | some (w, rest) =>
      match Text.after [','] (Text.trimLeft (Word.readMany [','] rest).2) with
      | none =>
        Reader.finish [Word.phrase (w :: (Word.readMany [','] rest).1)]
          (Word.readMany [','] rest).2
      | some behind =>
        (Maintainers.read behind).map (Word.phrase (w :: (Word.readMany [','] rest).1) :: ·) := by
  rw [Maintainers.read]
  split
  · next h => simp only [h]
  · next w rest h =>
    simp only [h]
    split
    · next ha => simp only [ha]
    · next behind ha => simp only [ha]

theorem Maintainers.ignoresBlanks_read : IgnoresBlanks Maintainers.read := by
  intro s t hst entries h
  -- the induction is on the entries, each of which takes words up to a comma
  induction entries generalizing s t with
  | nil => exact absurd rfl (Maintainers.wellFormed_of_read h).1
  | cons entry entries ih =>
    rw [Maintainers.read_eq] at h ⊢
    split at h
    · cases h
    · next w rest hw =>
      obtain ⟨rest', hw', hrest⟩ := Word.steady_read [','] (Text.alike_trimLeft hst) hw
      obtain ⟨hwords, hbehind⟩ := Word.agree_readMany [','] hrest
      simp only [hw', ← hwords]
      split at h
      · next hcomma =>
        rw [Text.after_eq_none_of_alike rfl hbehind.trimLeft hcomma]
        exact Reader.finish_of_alike hbehind h
      · next behind hcomma =>
        obtain ⟨behind', hcomma', hrest⟩ := Text.after_of_alike rfl hbehind.trimLeft hcomma
        obtain ⟨others, hothers, heq⟩ := exists_of_map_eq_ok h
        obtain ⟨rfl, rfl⟩ := List.cons.inj heq
        rw [hcomma']
        simp only [ih hrest.trim hothers]
        rfl

/-! ## Assignments -/

namespace Assignments

theorem agree_readValue {s t : Text} (hst : Alike s t) : Agree (readValue s) (readValue t) := by
  rw [readValue, readValue]
  split
  · next w behind hw =>
    obtain ⟨behind', hw', hbehind⟩ := Word.steady_read [] hst hw
    rw [hw']
    exact ⟨rfl, hbehind⟩
  · next hw =>
    rw [(Word.steady_read []).eq_none hst hw]
    exact ⟨rfl, hst⟩

theorem agree_readPairs {s t : Text} (hst : Alike s t) : Agree (readPairs s) (readPairs t) := by
  -- the induction follows the reader, one assignment at a time
  fun_induction readPairs s generalizing t
  case case1 s h =>
    rw [readPairs_eq, (Word.steady_read ['=']).eq_none hst.trimLeft h]
    exact ⟨rfl, hst⟩
  case case2 s key rest h hequals =>
    obtain ⟨rest', h', hrest⟩ := Word.steady_read ['='] hst.trimLeft h
    rw [readPairs_eq, h']
    simp only [Text.after_eq_none_of_alike rfl hrest hequals]
    exact ⟨rfl, hst⟩
  case case3 s key rest h behind hequals value more ih =>
    obtain ⟨rest', h', hrest⟩ := Word.steady_read ['='] hst.trimLeft h
    obtain ⟨behind', hequals', hbehind⟩ := Text.after_of_alike rfl hrest hequals
    obtain ⟨hvalue, hleft⟩ := agree_readValue hbehind
    obtain ⟨hmore, hend⟩ := ih hleft
    rw [readPairs_eq, h']
    simp only [hequals', ← hvalue, ← hmore]
    exact ⟨rfl, hend⟩

theorem steady_readOldStyle : Steady readOldStyle := by
  intro s t hst p rest h
  rw [readOldStyle] at h ⊢
  split at h
  · cases h
  · next key behind hkey =>
    obtain ⟨behind', hkey', hbehind⟩ := Word.steady_read [] hst hkey
    obtain ⟨hwords, hrest⟩ := Word.agree_readMany [] hbehind
    rw [hkey']
    simp only
    split at h
    · cases h
    · next w ws left hmany =>
      obtain ⟨rfl, rfl⟩ := Prod.mk.inj (Option.some.inj h)
      rw [hmany] at hwords hrest
      have hmany' : Word.readMany [] behind' = (w :: ws, (Word.readMany [] behind').2) :=
        Prod.ext hwords.symm rfl
      rw [hmany']
      exact ⟨_, rfl, hrest⟩

theorem ignoresBlanks_read : IgnoresBlanks Assignments.read := by
  intro s t hst pairs h
  have hstart := Text.alike_trimLeft hst
  obtain ⟨hpairs, hrest⟩ := agree_readPairs hstart
  rw [Assignments.read] at h ⊢
  split at h
  · next p ps rest hread =>
    rw [hread] at hpairs hrest
    have hread' : readPairs (Text.trimLeft t) = (p :: ps, (readPairs (Text.trimLeft t)).2) :=
      Prod.ext hpairs.symm rfl
    rw [hread']
    exact Reader.finish_of_alike hrest h
  · next rest hread =>
    rw [hread] at hpairs
    have hread' : readPairs (Text.trimLeft t) = ([], (readPairs (Text.trimLeft t)).2) :=
      Prod.ext hpairs.symm rfl
    rw [hread']
    simp only
    split at h
    · next p left hold =>
      obtain ⟨left', hold', hleft⟩ := steady_readOldStyle hstart hold
      rw [hold']
      exact Reader.finish_of_alike hleft h
    · cases h

end Assignments

/-! ## Commands -/

theorem Command.ignoresBlanks_read : IgnoresBlanks Command.read := by
  intro s t hst arguments h
  have hstart := Text.alike_trimLeft hst
  rw [Command.read] at h ⊢
  split at h
  · next hbracket =>
    rw [if_pos (hstart.head?_eq_some rfl hbracket)]
    split at h
    · cases h
    · next es rest harray =>
      obtain ⟨rest', harray', hrest⟩ := Reader.array_of_alike hstart harray
      rw [harray']
      exact Reader.finish_of_alike hrest h
  · next hbracket =>
    rw [if_neg fun hbracket' => hbracket (hstart.symm.head?_eq_some rfl hbracket'), ← h, hstart]

/-! ## Flags -/

namespace Flag

variable {ι : Type}

/-- A flag whose value is read by a steady reader, with no blank before it. -/
structure IsSteady (f : Flag ι) : Prop where
  opening : Text.trimRight f.opening = f.opening
  value : Steady f.value

theorem IsSteady.read {f : Flag ι} (h : f.IsSteady) : Steady f.read := h.value.after h.opening

theorem pick_of_alike {flags : List (Flag ι)} (hflags : ∀ f ∈ flags, f.IsSteady) {s t : Text}
    (hst : Alike s t) {found : Found ι} (h : pick s flags = some found) :
    ∃ behind, pick t flags = some { found with behind } ∧ Alike found.behind behind := by
  induction flags generalizing found with
  | nil => cases h
  | cons f flags ih =>
    obtain ⟨hf, hflags⟩ := List.forall_mem_cons.1 hflags
    rw [pick] at h ⊢
    -- a flag that is not at the beginning of one text is not at that of the other
    split at h
    · next value behind hread =>
      obtain rfl := Option.some.inj h
      obtain ⟨behind', hread', hbehind⟩ := hf.read hst hread
      rw [hread']
      exact ⟨behind', rfl, hbehind⟩
    · next hread =>
      obtain ⟨other, hother, rfl⟩ := Option.map_eq_some_iff.1 h
      obtain ⟨behind, hother', hbehind⟩ := ih hflags hother
      rw [hf.read.eq_none hst hread, hother']
      exact ⟨behind, rfl, hbehind⟩

theorem pick_eq_none_of_alike {flags : List (Flag ι)} (hflags : ∀ f ∈ flags, f.IsSteady)
    {s t : Text} (hst : Alike s t) (h : pick s flags = none) : pick t flags = none := by
  have hpick : ∀ ⦃s t : Text⦄, Alike s t → ∀ ⦃found⦄, pick s flags = some found →
      ∃ other, pick t flags = some other := by
    intro s t hst found hs
    obtain ⟨behind, ht, -⟩ := pick_of_alike hflags hst hs
    exact ⟨{ found with behind }, ht⟩
  exact hst.eq_none hpick h

/-- **Flags are read alike**: the same flags with the same values, and behind them texts that differ
only in their outer blanks. -/
theorem readAll_of_trim {flags : List (Flag ι)} (hflags : ∀ f ∈ flags, f.IsSteady) {s t : Text}
    (hst : Text.trim s = Text.trim t) :
    (readAll flags s).1 = (readAll flags t).1 ∧
      Text.trim (readAll flags s).2 = Text.trim (readAll flags t).2 := by
  -- each flag that is found leaves fewer to look for, the same ones in both texts
  fun_induction readAll flags s generalizing t with
  | case1 flags s h =>
    rw [readAll_eq, pick_eq_none_of_alike hflags (Text.alike_trimLeft hst) h]
    exact ⟨rfl, hst⟩
  | case2 flags s found h more ih =>
    obtain ⟨behind, h', hbehind⟩ := pick_of_alike hflags (Text.alike_trimLeft hst) h
    have hothers : ∀ f ∈ found.others, f.IsSteady := fun f hf => hflags f ((pick_spec h).2 f hf)
    obtain ⟨hmore, hend⟩ := ih hothers hbehind.trim
    rw [readAll_eq, h']
    exact ⟨congrArg (_ :: ·) hmore, hend⟩

end Flag

/-! ## Transfers -/

namespace Transfer

theorem steady_readOwner : Steady readOwner := by
  intro s t hst value rest h
  rw [readOwner] at h ⊢
  split at h
  · cases h
  · next user behind huser =>
    obtain ⟨behind', huser', hbehind⟩ := Word.steady_read [':'] hst huser
    rw [huser']
    simp only
    split at h
    · cases h
    · next group left hleft =>
      obtain ⟨rfl, rfl⟩ := Prod.mk.inj (Option.some.inj h)
      obtain ⟨left', hleft', hrest⟩ := Word.steady_behind rfl hbehind hleft
      simp only at hleft'
      rw [hleft']
      exact ⟨left', rfl, hrest⟩

theorem isSteady_flags : ∀ f ∈ flags, f.IsSteady := by
  refine List.forall_mem_cons.2 ⟨⟨rfl, steady_readOwner⟩, List.forall_mem_singleton.2 ⟨rfl, ?_⟩⟩
  exact (Word.steady_read []).map Word.written

theorem readArray_of_alike {s t : Text} (hst : Alike s t) {parts : List Text × Text}
    (h : readArray s = .ok parts) : readArray t = .ok parts := by
  rw [readArray] at h ⊢
  split at h
  · cases h
  · next es rest harray =>
    obtain ⟨rest', harray', hrest⟩ := Reader.array_of_alike hst harray
    rw [harray']
    simp only
    split at h
    · cases h
    · exact Reader.finish_of_alike hrest h

/-- Paths, one at a time. -/
theorem readPaths_eq (t : Text) : readPaths t =
    match Path.read t with
    | none => .error (.expected .path t)
    | some (path, rest) =>
      if Text.trimLeft rest = [] then .ok [path]
      else (readPaths (Text.trimLeft rest)).map (path :: ·) := by
  rw [readPaths]
  split
  · next h => simp only [h]
  · next path rest h => simp only [h]

theorem readPaths_of_alike {s t : Text} (hst : Alike s t) {paths : List Text}
    (h : readPaths s = .ok paths) : readPaths t = .ok paths := by
  -- the last path is the one with only blanks behind it, in both texts
  fun_induction readPaths s generalizing t paths with
  | case1 => cases h
  | case2 s path rest hread hend =>
    obtain ⟨rest', hread', hrest⟩ := Path.steady_read hst hread
    rw [readPaths_eq, hread']
    simp only [if_pos (hrest.trimLeft_eq_nil hend)]
    exact h
  | case3 s path rest hread hend ih =>
    obtain ⟨rest', hread', hrest⟩ := Path.steady_read hst hread
    obtain ⟨others, hothers, rfl⟩ := exists_of_map_eq_ok h
    rw [readPaths_eq, hread']
    simp only [if_neg fun hend' => hend (hrest.symm.trimLeft_eq_nil hend'),
      ih hrest.trimLeft hothers]
    rfl

theorem readShell_of_alike {s t : Text} (hst : Alike s t) {parts : List Text × Text}
    (h : readShell s = .ok parts) : readShell t = .ok parts := by
  rw [readShell] at h ⊢
  split at h
  · cases h
  · next paths hpaths =>
    rw [readPaths_of_alike hst hpaths]
    exact h

theorem readParts_of_alike {s t : Text} (hst : Alike s t) {parts : List Text × Text}
    (h : readParts s = .ok parts) : readParts t = .ok parts := by
  rw [readParts] at h ⊢
  split at h
  · next found harray =>
    rw [readArray_of_alike hst harray]
    exact h
  · next m harray =>
    -- then the other text is no array either, and both are tried as paths
    have herror : ∃ n, readArray t = .error n := by
      cases ht : readArray t with
      | error n => exact ⟨n, rfl⟩
      | ok found =>
        rw [readArray_of_alike hst.symm ht] at harray
        cases harray
    obtain ⟨n, hn⟩ := herror
    rw [hn]
    simp only
    split at h
    · next found hshell =>
      rw [readShell_of_alike hst hshell]
      exact h
    · cases h

theorem ignoresBlanks_read : IgnoresBlanks Transfer.read := by
  intro s t hst parts h
  obtain ⟨hfound, hbehind⟩ := Flag.readAll_of_trim isSteady_flags hst
  obtain ⟨found, hparts, rfl⟩ := exists_of_map_eq_ok h
  rw [Transfer.read, readParts_of_alike (Text.alike_trimLeft hbehind) hparts, ← hfound]
  rfl

end Transfer

/-! ## Health checks -/

namespace Healthcheck

theorem isSteady_flags : ∀ f ∈ flags, f.IsSteady := by
  intro f hf
  obtain ⟨setting, -, rfl⟩ := List.mem_map.1 hf
  refine ⟨?_, (Word.steady_read []).trimLeft.map Word.written⟩
  cases setting <;> rfl

/-- A text that is not blank begins with a blank if one that is like it does. -/
theorem startsBlank_of_alike {s t : Text} (hst : Alike s t) (hs : Text.startsBlank s)
    (hne : Text.trim s ≠ []) : Text.startsBlank t := by
  cases t with
  | nil => exact absurd hst.trim hne
  | cons c t =>
    rw [Text.startsBlank]
    by_contra hc
    have hc : isBlank c = false := Bool.eq_false_iff.2 hc
    obtain ⟨s, rfl, -⟩ := hst.symm.exists_cons hc
    rw [Text.startsBlank, hc] at hs
    cases hs

theorem readCommand_of_alike {s t : Text} (hst : Alike s t) {command : Text}
    (h : readCommand s = some command) : readCommand t = some command := by
  rw [readCommand] at h
  split at h
  · next hblank =>
    have hne : Text.trim s ≠ [] := by
      intro hnil
      rw [hnil] at h
      cases h
    rw [readCommand, if_pos (startsBlank_of_alike hst hblank hne), ← hst.trim]
    exact h
  · cases h

theorem readCheck_of_alike {s t : Text} (hst : Alike s t) {command : Option Text}
    (h : readCheck s = .ok command) : readCheck t = .ok command := by
  rw [readCheck] at h ⊢
  split at h
  · next rest hnone =>
    obtain ⟨rest', hnone', hrest⟩ := Text.after_of_alike rfl hst hnone
    rw [hnone']
    exact Reader.finish_of_alike hrest h
  · next hnone =>
    rw [Text.after_eq_none_of_alike rfl hst hnone]
    simp only
    split at h
    · next found hfound =>
      obtain ⟨rest, hcmd, hcommand⟩ := Option.bind_eq_some_iff.1 hfound
      obtain ⟨rest', hcmd', hrest⟩ := Text.after_of_alike rfl hst hcmd
      rw [hcmd', Option.bind_some, readCommand_of_alike hrest hcommand]
      exact h
    · cases h

theorem ignoresBlanks_read : IgnoresBlanks Healthcheck.read := by
  intro s t hst check h
  obtain ⟨hfound, hbehind⟩ := Flag.readAll_of_trim isSteady_flags hst
  obtain ⟨command, hcommand, rfl⟩ := exists_of_map_eq_ok h
  rw [Healthcheck.read, readCheck_of_alike (Text.alike_trimLeft hbehind) hcommand, ← hfound]
  rfl

end Healthcheck

/-! ## Images -/

namespace Image

theorem steady_readSegment : Steady readSegment := by
  intro s t hst segment behind h
  obtain ⟨hs, hsegment⟩ := readSegment_eq_some_iff.1 h
  -- the slash behind the segment is not blank
  have hsplit : s = (segment ++ ['/']) ++ behind := by rw [hs]; simp
  rw [hsplit] at hst
  obtain ⟨behind', rfl, hbehind⟩ := hst.exists_append (Text.trimRight_concat segment rfl)
  exact ⟨behind', readSegment_eq_some_iff.2 ⟨by simp, hsegment⟩, hbehind⟩

theorem agree_readTag {s t : Text} (hst : Alike s t) : Agree (readTag s) (readTag t) := by
  rw [readTag, readTag]
  split
  · next w behind h =>
    obtain ⟨behind', h', hbehind⟩ := Word.steady_behind rfl hst h
    simp only at h'
    rw [h']
    exact ⟨rfl, hbehind⟩
  · next h =>
    rw [(Word.steady_behind rfl).eq_none hst h]
    exact ⟨rfl, hst⟩

/-- The word behind the letters `as`. -/
theorem steady_stageWord : Steady fun t => (Text.afterCaseless ['a', 's'] t).bind
    fun rest => Word.read [] (Text.trimLeft rest) := by
  intro s t hst w behind h
  obtain ⟨rest, has, hw⟩ := Option.bind_eq_some_iff.1 h
  have hletters : ∀ c ∈ ['a', 's'], isBlank c = false :=
    List.forall_mem_cons.2 ⟨rfl, List.forall_mem_singleton.2 rfl⟩
  obtain ⟨rest', has', hrest⟩ := Text.afterCaseless_of_alike hletters hst has
  obtain ⟨behind', hw', hbehind⟩ := Word.steady_read [] hrest.trimLeft hw
  exact ⟨behind', by simp only [has', Option.bind_some, hw'], hbehind⟩

theorem agree_readStageName {s t : Text} (hst : Alike s t) :
    Agree (readStageName s) (readStageName t) := by
  rw [readStageName, readStageName]
  split
  · next w behind h =>
    obtain ⟨behind', h', hbehind⟩ := steady_stageWord hst.trimLeft h
    simp only at h'
    rw [h']
    exact ⟨rfl, hbehind⟩
  · next h =>
    rw [steady_stageWord.eq_none hst.trimLeft h]
    exact ⟨rfl, hst⟩

/-- A text that is like a cut one is cut in the same way. -/
theorem Cut.of_alike {s t rest : Text} {segments : List Text} {image : Word} (hst : Alike s t)
    (h : Cut s segments image rest) : ∃ rest', Cut t segments image rest' ∧ Alike rest rest' := by
  have himage := h.fits.trimRight
  have hfront : Text.trimRight (slashed segments ++ image.written) =
      slashed segments ++ image.written := by
    rw [Text.trimRight_append _ (by rw [himage]; exact h.fits.written_ne_nil), himage]
  rw [h.text, ← List.append_assoc] at hst
  obtain ⟨rest', rfl, hrest⟩ := hst.exists_append hfront
  refine ⟨rest', ⟨?_, h.isSegment, ?_, h.fits, h.ends.of_alike hrest⟩, hrest⟩
  · rw [List.append_assoc]
  · exact steady_readSegment.eq_none (hrest.append himage) h.stop

theorem ignoresBlanks_read : IgnoresBlanks Image.read := by
  intro s t hst i h
  obtain ⟨segments, image, rest, hcut⟩ := exists_cut_of_read h
  obtain ⟨rest', hcut', hrest⟩ := hcut.of_alike (Text.alike_trimLeft hst)
  -- the parts of the reference are those of the cut, and the tag and the stage name follow it
  obtain ⟨htag, hbehind⟩ := agree_readTag hrest
  obtain ⟨hname, hend⟩ := agree_readStageName hbehind
  rw [read_of_cut hcut, cutReference] at h
  rw [read_of_cut hcut', cutReference, ← htag, ← hname]
  exact Reader.finish_of_alike hend h

end Image

/-! ## Arguments -/

/-- **No form of argument depends on its outer blanks.** -/
theorem Form.ignoresBlanks_read (f : Form) : IgnoresBlanks f.read := by
  cases f with
  | assignments => exact Assignments.ignoresBlanks_read.map Operand.assignments
  | command => exact Command.ignoresBlanks_read.map Operand.command
  | healthcheck => exact Healthcheck.ignoresBlanks_read.map Operand.healthcheck
  | image => exact Image.ignoresBlanks_read.map Operand.image
  | maintainers => exact Maintainers.ignoresBlanks_read.map Operand.maintainers
  | parameter =>
    exact (Pair.ignoresBlanks_read rfl).map fun p => Operand.parameter p.first p.second
  | ports => exact Ports.ignoresBlanks_read.map Operand.ports
  | stopSignal => exact StopSignal.ignoresBlanks_read.map Operand.stopSignal
  | transfer => exact Transfer.ignoresBlanks_read.map Operand.transfer
  | user => exact (Pair.ignoresBlanks_read rfl).map fun p => Operand.user p.first p.second
  | workdir => exact Workdir.ignoresBlanks_read.map Operand.workdir

theorem Text.trim_blanks {u w : Text} (hu : ∀ c ∈ u, isBlank c) (hw : ∀ c ∈ w, isBlank c)
    (t : Text) : trim (u ++ t ++ w) = trim t := by
  have hleft : trim (u ++ t ++ w) = trim (t ++ w) := by
    rw [trim, trim, List.append_assoc, trimLeft_blanks_append hu]
  have hright : Alike (t ++ w) t := trimRight_append_blanks t hw
  rw [hleft, hright.trim]

theorem Keyword.exists_form {k : Keyword} (hk : k ≠ .onbuild) : ∃ f, k.form? = some f := by
  cases hf : k.form? with
  | some f => exact ⟨f, rfl⟩
  | none => exact absurd (eq_onbuild_of_form? hf) hk

/-- **Blanks around an argument make no difference.** Whatever the keyword, `ONBUILD` apart, an
argument with blanks around it is accepted if and only if it is accepted without them, and both have
the same meaning. -/
theorem Args.read_blanks {k : Keyword} (hk : k ≠ .onbuild) {u w : Text} (hu : ∀ c ∈ u, isBlank c)
    (hw : ∀ c ∈ w, isBlank c) (argument : Text) (args : Args) :
    Args.read k (u ++ argument ++ w) = .ok args ↔ Args.read k argument = .ok args := by
  obtain ⟨f, hf⟩ := Keyword.exists_form hk
  have hread : ∀ t, Args.read k t = (f.read t).map (ofOperand k) := read_eq_of_form hf
  have hignores : IgnoresBlanks fun t => (f.read t).map (ofOperand k) :=
    f.ignoresBlanks_read.map (ofOperand k)
  have htrim := Text.trim_blanks hu hw argument
  rw [hread, hread]
  exact ⟨fun h => hignores htrim h, fun h => hignores htrim.symm h⟩

/-- A flag, a path that ends in a slash, and an ideographic space behind it. -/
theorem Args.read_blanks_flag :
    ∃ args, Args.read .copy "--from=b c /d/".toList = .ok args ∧
      Args.read .copy ([' ', '\t'] ++ "--from=b c /d/".toList ++ ['\n', Char.ofNat 0x3000]) =
        .ok args := by
  have hread : Args.read .copy "--from=b c /d/".toList =
      .ok (.copy ⟨none, some ['b'], some [['c']], some "/d/".toList⟩) := by
    cbv
  have hfront : ∀ c ∈ [' ', '\t'], isBlank c := by simp [isBlank]
  have hbehind : ∀ c ∈ ['\n', Char.ofNat 0x3000], isBlank c := by simp [isBlank]
  have hkeyword : Keyword.copy ≠ .onbuild := by decide
  exact ⟨_, hread, (Args.read_blanks hkeyword hfront hbehind _ _).2 hread⟩

/-- Behind a wrapped keyword a blank counts, also at the end of the argument. -/
example : (Args.read .onbuild "RUN ".toList).toOption =
      some (.onbuild (some Keyword.run.text) (some (.run (some [[]])))) ∧
    (Args.read .onbuild "RUN".toList).toOption = none := by
  decide

end Dockerlint
