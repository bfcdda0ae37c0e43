import Dockerlint.Proofs.Operand.Paths

/-!
# The flags of an argument

`HEALTHCHECK`, `ADD` and `COPY` have flags in front of the rest of their argument. The reader looks for
any of the flags that it has not read yet, so it does not matter in which order they are written, and
what stands behind the last of them is read as if it stood alone. A flag that is written twice is not
looked for the second time. It then stands where the rest should begin, and the rest of a health check
begins with no dash.

Flags are described here by how they are written. Two things make them independent of each other: no
flag begins like another one, and a value goes on to the next blank.

## Main definitions

* `Flag.Style`, `Flag.Given`: how flags are written, and a flag as it is written
* `Flag.Style.IsRead`: the styles whose flags are told apart
* `Flag.Sets`: the values that given flags set
* `Args.ReadsSettings`, `Args.PassesFlags`: what flags do to the argument of a keyword

## Main results

* `Flag.pick_opening`: one given flag is picked, and only that flag is no longer looked for
* `Flag.readAll_line`: given flags are read, whatever their order and whatever follows
* `Args.readsFlags`: the flags of health checks and of transfers
-/

namespace Dockerlint

namespace Flag

variable {ι : Type}

/-- How flags are written: the text of each of them up to its value, and the values it can have. -/
structure Style (ι : Type) where
  opening : ι → Text
  IsValue : ι → Text → Prop

/-- The flags that are written in a style, each with the reader of its values. -/
def Style.flags (s : Style ι) (value : ι → Text → Option (Text × Text)) (kinds : List ι) :
    List (Flag ι) :=
  kinds.map fun k => ⟨k, s.opening k, value k⟩

/-- A style whose flags are told apart, and whose values are read up to the next blank. -/
structure Style.IsRead (s : Style ι) (value : ι → Text → Option (Text × Text)) : Prop where
  dashes : ∀ k, ['-', '-'] <+: s.opening k
  eq_of_prefix : ∀ j k, s.opening j <+: s.opening k → j = k
  value : ∀ k t rest, s.IsValue k t → Text.EndsToken rest → value k (t ++ rest) = some (t, rest)

/-- A flag as it is written, with its value and the blanks behind it. -/
structure Given (s : Style ι) where
  kind : ι
  value : Text
  blanks : Text
  isValue : s.IsValue kind value
  blanks_ne_nil : blanks ≠ []
  isBlank_blanks : ∀ c ∈ blanks, isBlank c

variable {s : Style ι}

/-- The text of a given flag. -/
def Given.text (g : Given s) : Text := s.opening g.kind ++ (g.value ++ g.blanks)

/-- Given flags, one behind the other. -/
def line (given : List (Given s)) : Text := given.flatMap Given.text

/-- Which flags are given. -/
def kinds (given : List (Given s)) : List ι := given.map Given.kind

/-- The values that given flags set: to each flag its own value, and nothing to the others. -/
structure Sets (given : List (Given s)) (found : ι → Option Text) : Prop where
  of_mem : ∀ g ∈ given, found g.kind = some g.value
  of_notMem : ∀ k, k ∉ kinds given → found k = none

/-! ## The values of given flags -/

/-- The entry of a flag that is given once. -/
theorem sets_lookup [DecidableEq ι] {given : List (Given s)} (h : (kinds given).Nodup) :
    Sets given fun k => (given.map fun g => (g.kind, g.value)).lookup k := by
  induction given with
  | nil => exact ⟨nofun, fun k _ => rfl⟩
  | cons g given ih =>
    obtain ⟨hg, hothers⟩ := List.nodup_cons.1 h
    obtain ⟨hgiven, hother⟩ := ih hothers
    constructor
    · intro f hf
      rw [List.map_cons, List.lookup_cons]
      rcases List.mem_cons.1 hf with rfl | hf
      · rw [beq_self_eq_true]
      · have hne : f.kind ≠ g.kind := fun hkind => hg (hkind ▸ List.mem_map_of_mem hf)
        rw [beq_false_of_ne hne]
        exact hgiven f hf
    · intro k hk
      obtain ⟨hne, hk⟩ := List.ne_and_not_mem_of_not_mem_cons hk
      rw [List.map_cons, List.lookup_cons, beq_false_of_ne hne]
      exact hother k hk

/-- The first flag that was given before. -/
theorem exists_repeated {given : List (Given s)} (h : ¬ (kinds given).Nodup) :
    ∃ front g back, given = front ++ g :: back ∧ (kinds front).Nodup ∧ g.kind ∈ kinds front := by
  -- the flags are taken one by one until the next one was given before
  induction given using List.reverseRecOn with
  | nil => exact absurd List.nodup_nil h
  | append_singleton given g ih =>
    by_cases hnodup : (kinds given).Nodup
    · refine ⟨given, g, [], rfl, hnodup, ?_⟩
      by_contra hg
      apply h
      rw [kinds, List.map_append, List.map_singleton, ← List.concat_eq_append]
      exact (List.nodup_concat _ _).2 ⟨hg, hnodup⟩
    · obtain ⟨front, f, back, rfl, hfront, hf⟩ := ih hnodup
      exact ⟨front, f, back ++ [g], List.append_assoc .., hfront, hf⟩

/-! ## Reading given flags -/

section Reading

variable {value : ι → Text → Option (Text × Text)} (hs : s.IsRead value)

include hs

/-- A flag does not begin with a blank. -/
theorem Style.IsRead.trimLeft_text (g : Given s) (rest : Text) :
    Text.trimLeft (g.text ++ rest) = g.text ++ rest := by
  obtain ⟨name, hname⟩ := hs.dashes g.kind
  rw [Given.text, ← hname]
  exact Text.trimLeft_eq_self rfl

/-- Where one flag stands there is no other. -/
theorem Style.IsRead.not_prefix {j k : ι} (h : j ≠ k) (rest : Text) :
    ¬ s.opening j <+: s.opening k ++ rest := by
  intro hj
  rcases List.prefix_or_prefix_of_prefix hj (List.prefix_append (s.opening k) rest) with hjk | hkj
  · exact h (hs.eq_of_prefix j k hjk)
  · exact h (hs.eq_of_prefix k j hkj).symm

omit hs in
theorem read_eq_none {k : ι} {t : Text} (h : ¬ s.opening k <+: t) :
    Flag.read ⟨k, s.opening k, value k⟩ t = none := by
  rw [Flag.read, Text.after_eq_none_iff.2 h, Option.bind_none]

omit hs in
/-- The flags are tried one after the other. -/
theorem pick_flags_cons (k : ι) (left : List ι) (t : Text) :
    pick t (s.flags value (k :: left)) =
      match Flag.read ⟨k, s.opening k, value k⟩ t with
      | some (v, behind) => some ⟨k, v, behind, s.flags value left⟩
      | none => (pick t (s.flags value left)).map fun found =>
        { found with others := ⟨k, s.opening k, value k⟩ :: found.others } := rfl

omit hs in
/-- Nothing is picked where none of the flags stands. -/
theorem pick_eq_none {left : List ι} {t : Text} (h : ∀ k ∈ left, ¬ s.opening k <+: t) :
    pick t (s.flags value left) = none := by
  induction left with
  | nil => rfl
  | cons k left ih =>
    obtain ⟨hk, hleft⟩ := List.forall_mem_cons.1 h
    rw [pick_flags_cons, read_eq_none hk, ih hleft]
    rfl

variable [DecidableEq ι]

/-- **One given flag is picked**, and then it is no longer looked for. -/
theorem pick_opening {left : List ι} (g : Given s) (hg : g.kind ∈ left) (rest : Text) :
    pick (g.text ++ rest) (s.flags value left) =
      some ⟨g.kind, g.value, g.blanks ++ rest, s.flags value (left.erase g.kind)⟩ := by
  have htext : g.text ++ rest = s.opening g.kind ++ (g.value ++ (g.blanks ++ rest)) := by
    rw [Given.text, List.append_assoc, List.append_assoc]
  have hends : Text.EndsToken (g.blanks ++ rest) := by
    obtain ⟨b, blanks, hblanks⟩ := List.exists_cons_of_ne_nil g.blanks_ne_nil
    rw [hblanks]
    rintro c ⟨⟩
    exact g.isBlank_blanks _ (by rw [hblanks]; exact List.mem_cons_self ..)
  induction left with
  | nil => cases hg
  | cons k left ih =>
    rw [pick_flags_cons]
    by_cases hk : k = g.kind
    · subst hk
      have hread : Flag.read ⟨g.kind, s.opening g.kind, value g.kind⟩ (g.text ++ rest) =
          some (g.value, g.blanks ++ rest) := by
        rw [htext, Flag.read, Text.after_append, Option.bind_some]
        exact hs.value g.kind g.value _ g.isValue hends
      rw [hread, List.erase_cons_head]
    · -- a flag that is looked for earlier begins differently, so it stays among the others
      have hnone : Flag.read ⟨k, s.opening k, value k⟩ (g.text ++ rest) = none := by
        rw [htext]
        exact read_eq_none (hs.not_prefix hk _)
      have hmem : g.kind ∈ left := (List.mem_cons.1 hg).resolve_left (Ne.symm hk)
      rw [hnone, ih hmem, List.erase_cons_tail (by simpa using hk)]
      rfl

/-- **Given flags are read**, whatever their order, if none of those that are left stands behind
them. -/
theorem readAll_line {left : List ι} (hleft : left.Nodup) {given : List (Given s)}
    (hnodup : (kinds given).Nodup) (hmem : ∀ g ∈ given, g.kind ∈ left) {rest : Text}
    (hrest : ∀ k ∈ left, k ∉ kinds given → ¬ s.opening k <+: Text.trimLeft rest) {lead : Text}
    (hlead : ∀ c ∈ lead, isBlank c) :
    (readAll (s.flags value left) (lead ++ (line given ++ rest))).1 =
        given.map (fun g => (g.kind, g.value)) ∧
      Text.trimLeft (readAll (s.flags value left) (lead ++ (line given ++ rest))).2 =
        Text.trimLeft rest := by
  -- each flag that is read takes one from those that are left, and its blanks lead to the next
  induction given generalizing left lead with
  | nil =>
    have htrim : Text.trimLeft (lead ++ ([] ++ rest)) = Text.trimLeft rest :=
      Text.trimLeft_blanks_append hlead rest
    have hnone : pick (Text.trimLeft rest) (s.flags value left) = none :=
      pick_eq_none fun k hk => hrest k hk List.not_mem_nil
    have hread : readAll (s.flags value left) (lead ++ ([] ++ rest)) =
        ([], lead ++ ([] ++ rest)) := by
      rw [readAll_eq, htrim, hnone]
    exact ⟨congrArg Prod.fst hread, (congrArg (Text.trimLeft ·.2) hread).trans htrim⟩
  | cons g given ih =>
    obtain ⟨hg, hothers⟩ := List.nodup_cons.1 hnodup
    obtain ⟨hgleft, hmem⟩ := List.forall_mem_cons.1 hmem
    have htext : Text.trimLeft (lead ++ (line (g :: given) ++ rest)) =
        g.text ++ (line given ++ rest) := by
      rw [Text.trimLeft_blanks_append hlead, line, List.flatMap_cons, List.append_assoc]
      exact hs.trimLeft_text g _
    have hmem' : ∀ f ∈ given, f.kind ∈ left.erase g.kind := by
      intro f hf
      have hne : f.kind ≠ g.kind := fun hkind => hg (hkind ▸ List.mem_map_of_mem hf)
      exact (List.mem_erase_of_ne hne).2 (hmem f hf)
    have hrest' : ∀ k ∈ left.erase g.kind, k ∉ kinds given →
        ¬ s.opening k <+: Text.trimLeft rest := by
      intro k hk hknot
      obtain ⟨hne, hk⟩ := hleft.mem_erase_iff.1 hk
      exact hrest k hk (List.not_mem_cons_of_ne_of_not_mem hne hknot)
    obtain ⟨hentries, hbehind⟩ :=
      ih (hleft.erase g.kind) hothers hmem' hrest' g.isBlank_blanks
    rw [readAll_eq, htext, pick_opening hs g hgleft]
    exact ⟨congrArg ((g.kind, g.value) :: ·) hentries, hbehind⟩

/-- The values that are found are those that given flags set, if the reader looks for every flag. -/
theorem sets_readAll {left : List ι} (hleft : left.Nodup) (hall : ∀ k, k ∈ left)
    {given : List (Given s)} (hnodup : (kinds given).Nodup) {rest : Text}
    (hrest : ∀ k, k ∉ kinds given → ¬ s.opening k <+: Text.trimLeft rest) {lead : Text}
    (hlead : ∀ c ∈ lead, isBlank c) :
    Sets given (fun k => (readAll (s.flags value left) (lead ++ (line given ++ rest))).1.lookup k) ∧
      Text.trimLeft (readAll (s.flags value left) (lead ++ (line given ++ rest))).2 =
        Text.trimLeft rest := by
  obtain ⟨hentries, hbehind⟩ :=
    readAll_line hs hleft hnodup (fun g _ => hall g.kind) (fun k _ => hrest k) hlead
  rw [hentries]
  exact ⟨sets_lookup hnodup, hbehind⟩

end Reading

end Flag

/-! ## The flags of a health check -/

namespace Healthcheck

/-- How the flags of a health check are written: each of them can have any bare word. -/
def style : Flag.Style Setting := ⟨Setting.opening, fun _ => Word.IsBare []⟩

/-- A setting of a health check. -/
def setting (check : Healthcheck) : Setting → Text
  | .interval => check.interval
  | .timeout => check.timeout
  | .startPeriod => check.startPeriod
  | .retries => check.retries

/-- The health check with the settings that were found and the defaults of the others. -/
def ofSettings (found : Setting → Option Text) (command : Option Text) : Healthcheck where
  interval := (found .interval).getD Setting.interval.fallback
  timeout := (found .timeout).getD Setting.timeout.fallback
  startPeriod := (found .startPeriod).getD Setting.startPeriod.fallback
  retries := (found .retries).getD Setting.retries.fallback
  command := command

theorem setting_ofSettings (found : Setting → Option Text) (command : Option Text) (k : Setting) :
    (ofSettings found command).setting k = (found k).getD k.fallback := by
  cases k <;> rfl

/-- What can follow the flags, and the command that it gives. -/
inductive Tail : Text → Option Text → Prop where
  | none : Tail (Text.ofString "NONE") none
  | cmd {blanks command : Text} (hne : blanks ≠ []) (hblanks : ∀ c ∈ blanks, isBlank c)
      (hcommand : ∃ c ∈ command, isBlank c = false) :
      Tail (Text.ofString "CMD" ++ (blanks ++ command)) (some (Text.trim command))

theorem flags_eq :
    flags = style.flags (fun _ => readSetting) [.interval, .timeout, .startPeriod, .retries] := rfl

theorem isRead_style : style.IsRead fun _ => readSetting where
  dashes := by
    intro k
    cases k <;> decide
  eq_of_prefix := by
    intro j k
    cases j <;> cases k <;> decide
  value := by
    intro k t rest ht hrest
    have htrim : Text.trimLeft (t ++ rest) = t ++ rest := Word.Fits.trimLeft (w := .bare t) ht rest
    rw [readSetting, htrim, Word.read_of_isBare ht hrest]
    rfl

/-- A health check with given flags: they are its settings, and the rest decides. -/
theorem read_line {given : List (Flag.Given style)} (hnodup : (Flag.kinds given).Nodup) {rest : Text}
    (hrest : ∀ k, k ∉ Flag.kinds given → ¬ style.opening k <+: Text.trimLeft rest) {lead : Text}
    (hlead : ∀ c ∈ lead, isBlank c) : ∃ found, Flag.Sets given found ∧
      Healthcheck.read (lead ++ (Flag.line given ++ rest)) =
        (readCheck (Text.trimLeft rest)).map (ofSettings found) := by
  have hall : ∀ k, k ∈ [Setting.interval, .timeout, .startPeriod, .retries] := by
    intro k
    cases k <;> decide
  obtain ⟨hsets, hbehind⟩ := Flag.sets_readAll isRead_style (by decide) hall hnodup hrest hlead
  refine ⟨_, hsets, ?_⟩
  rw [Healthcheck.read, flags_eq, hbehind]
  rfl

/-- `NONE` and `CMD` begin with no blank and with no dash. -/
theorem Tail.start {tail : Text} {command : Option Text} (h : Tail tail command) :
    Text.trimLeft tail = tail ∧ ¬ ['-', '-'] <+: tail := by
  cases h with
  | none => decide
  | cmd hne hblanks hcommand =>
    refine ⟨Text.trimLeft_eq_self rfl, ?_⟩
    rintro ⟨rest, hrest⟩
    cases hrest

theorem Tail.readCheck_eq {tail : Text} {command : Option Text} (h : Tail tail command) :
    readCheck tail = .ok command := by
  cases h with
  | none => rfl
  | @cmd blanks command hne hblanks hcommand =>
    have hnone : Text.after (Text.ofString "NONE") (Text.ofString "CMD" ++ (blanks ++ command)) =
        Option.none := rfl
    have hstarts : Text.startsBlank (blanks ++ command) := by
      obtain ⟨c, blanks, rfl⟩ := List.exists_cons_of_ne_nil hne
      exact hblanks c (List.mem_cons_self ..)
    have htrim : Text.trim (blanks ++ command) = Text.trim command := by
      rw [Text.trim, Text.trimLeft_blanks_append hblanks, ← Text.trim]
    have hread : readCommand (blanks ++ command) = some (Text.trim command) := by
      rw [readCommand, if_pos hstarts, htrim]
      split
      · next hnil =>
        obtain ⟨c, hc, hnot⟩ := hcommand
        rw [Text.trim_eq_nil_iff.1 hnil c hc] at hnot
        cases hnot
      · rfl
    rw [readCheck, hnone]
    simp only [Text.after_append, Option.bind_some, hread]

/-- A flag is neither `NONE` nor `CMD`. -/
theorem readCheck_of_dashes {t : Text} (h : ['-', '-'] <+: t) :
    readCheck t = .error (.expected .noneOrCmd t) := by
  obtain ⟨rest, rfl⟩ := h
  rfl

/-- **A flag that is given twice** stands where `NONE` or `CMD` should begin. -/
theorem exists_error_of_repeated {given : List (Flag.Given style)}
    (h : ¬ (Flag.kinds given).Nodup) {lead : Text} (hlead : ∀ c ∈ lead, isBlank c) (rest : Text) :
    ∃ m, Healthcheck.read (lead ++ (Flag.line given ++ rest)) = .error m := by
  obtain ⟨front, g, back, rfl, hfront, hg⟩ := Flag.exists_repeated h
  have htext : Flag.line (front ++ g :: back) ++ rest =
      Flag.line front ++ (g.text ++ (Flag.line back ++ rest)) := by
    simp [Flag.line]
  have htrim := isRead_style.trimLeft_text g (Flag.line back ++ rest)
  -- of the flags that are left, none stands where the repeated one does
  have hstop : ∀ k, k ∉ Flag.kinds front →
      ¬ style.opening k <+: Text.trimLeft (g.text ++ (Flag.line back ++ rest)) := by
    intro k hk
    have hne : k ≠ g.kind := by
      rintro rfl
      exact hk hg
    rw [htrim, Flag.Given.text, List.append_assoc]
    exact isRead_style.not_prefix hne _
  have hdashes : ['-', '-'] <+: g.text ++ (Flag.line back ++ rest) := by
    rw [Flag.Given.text, List.append_assoc]
    exact (isRead_style.dashes g.kind).trans (List.prefix_append _ _)
  obtain ⟨found, -, hread⟩ := read_line hfront hstop hlead
  rw [htext, hread, htrim, readCheck_of_dashes hdashes]
  exact ⟨_, rfl⟩

end Healthcheck

/-! ## The flags of a transfer -/

namespace Transfer

/-- The text of a flag up to its value. -/
def FlagKind.opening : FlagKind → Text
  | .chown => Text.ofString "--chown="
  | .origin => Text.ofString "--from="

/-- The values of a flag without quotes: a user and a group with a colon between them, or one word. -/
def FlagKind.IsValue : FlagKind → Text → Prop
  | .chown, t => ∃ user group, Word.IsBare [':'] user ∧ Word.IsBare [] group ∧
      t = user ++ ':' :: group
  | .origin, t => Word.IsBare [] t

/-- How the flags of a transfer are written. -/
def style : Flag.Style FlagKind := ⟨FlagKind.opening, FlagKind.IsValue⟩

/-- The reader of a flag's values. -/
def readValue : FlagKind → Text → Option (Text × Text)
  | .chown => readOwner
  | .origin => readOrigin

/-- The value of a flag of a transfer. -/
def flag? (parts : Transfer) : FlagKind → Option Text
  | .chown => parts.owner
  | .origin => parts.origin

/-- The transfer with the flags that were found. -/
def ofFlags (found : FlagKind → Option Text) (parts : List Text × Text) : Transfer :=
  ⟨found .chown, found .origin, parts.1, parts.2⟩

theorem flag?_ofFlags (found : FlagKind → Option Text) (parts : List Text × Text) :
    (ofFlags found parts).flag? = found := by
  funext k
  cases k <;> rfl

theorem flags_eq : flags = style.flags readValue [.chown, .origin] := rfl

theorem readOwner_append {user group rest : Text} (huser : Word.IsBare [':'] user)
    (hgroup : Word.IsBare [] group) (hrest : Text.EndsToken rest) :
    readOwner (user ++ ':' :: group ++ rest) = some (user ++ ':' :: group, rest) := by
  have hends : Word.Ends [':'] (.bare user) (':' :: (group ++ rest)) := by
    rintro c ⟨⟩
    rfl
  have hread : Word.read [':'] (user ++ ':' :: (group ++ rest)) =
      some (.bare user, ':' :: (group ++ rest)) :=
    Word.read_eq_some_iff.2 ⟨rfl, huser, hends⟩
  have hafter : Text.after [':'] (':' :: (group ++ rest)) = some (group ++ rest) := rfl
  rw [List.append_assoc, List.cons_append, readOwner, hread]
  simp only [hafter, Option.bind_some, Word.read_of_isBare hgroup hrest]
  rfl

theorem isRead_style : style.IsRead readValue where
  dashes := by
    intro k
    cases k <;> decide
  eq_of_prefix := by
    intro j k
    cases j <;> cases k <;> decide
  value := by
    intro k t rest ht hrest
    cases k with
    | chown =>
      obtain ⟨user, group, huser, hgroup, rfl⟩ := ht
      exact readOwner_append huser hgroup hrest
    | origin =>
      have hbare : Word.IsBare [] t := ht
      rw [readValue, readOrigin, Word.read_of_isBare hbare hrest]
      rfl

/-- A transfer with given flags: they are its flags, and the rest is read as if it stood alone. -/
theorem read_line {given : List (Flag.Given style)} (hnodup : (Flag.kinds given).Nodup) {rest : Text}
    (hrest : ∀ k, ¬ style.opening k <+: Text.trimLeft rest) {lead : Text}
    (hlead : ∀ c ∈ lead, isBlank c) : ∃ found, Flag.Sets given found ∧
      Transfer.read (lead ++ (Flag.line given ++ rest)) =
        (readParts (Text.trimLeft rest)).map (ofFlags found) := by
  have hall : ∀ k, k ∈ [FlagKind.chown, .origin] := by
    intro k
    cases k <;> decide
  obtain ⟨hsets, hbehind⟩ :=
    Flag.sets_readAll isRead_style (by decide) hall hnodup (fun k _ => hrest k) hlead
  refine ⟨_, hsets, ?_⟩
  rw [Transfer.read, flags_eq, hbehind]
  rfl

end Transfer

/-! ## Flags in front of an argument -/

namespace Args

/-- What the flags of a health check do. -/
structure ReadsSettings (given : List (Flag.Given Healthcheck.style)) : Prop where
  /-- Each of them sets its own setting, and the others have their defaults, whatever command
  follows. -/
  distinct : (Flag.kinds given).Nodup → ∀ lead tail command, (∀ c ∈ lead, isBlank c) →
    Healthcheck.Tail tail command → ∃ check : Healthcheck,
      Args.read .healthcheck (lead ++ (Flag.line given ++ tail)) =
        .ok (.healthcheck check.toArgs) ∧
      check.command = command ∧ (∀ g ∈ given, check.setting g.kind = g.value) ∧
      ∀ k, k ∉ Flag.kinds given → check.setting k = k.fallback
  /-- No flag can be given twice, whatever follows. -/
  repeated : ¬ (Flag.kinds given).Nodup → ∀ lead rest, (∀ c ∈ lead, isBlank c) →
    ∃ m, Args.read .healthcheck (lead ++ (Flag.line given ++ rest)) = .error m

/-- What the flags of a transfer do to a rest that begins with none of them. -/
structure PassesFlags (k : Keyword) (given : List (Flag.Given Transfer.style)) (lead rest : Text) :
    Prop where
  /-- The argument fits exactly if the rest does. -/
  accepts : (∃ args, Args.read k (lead ++ (Flag.line given ++ rest)) = .ok args) ↔
    ∃ args, Args.read k rest = .ok args
  /-- Sources and destination are those of the rest, and the flags are those that are given. -/
  parts : ∀ args, Args.read k (lead ++ (Flag.line given ++ rest)) = .ok args →
    ∃ parts alone : Transfer, args = .ofOperand k (.transfer parts) ∧
      Args.read k rest = .ok (.ofOperand k (.transfer alone)) ∧ parts.sources = alone.sources ∧
      parts.destination = alone.destination ∧ Flag.Sets given parts.flag?

theorem read_healthcheck (argument : Text) : Args.read .healthcheck argument =
    (Healthcheck.read argument).map fun check => .healthcheck check.toArgs :=
  read_eq_map rfl .healthcheck rfl

theorem readsSettings (given : List (Flag.Given Healthcheck.style)) : ReadsSettings given where
  distinct := by
    intro hnodup lead tail command hlead htail
    obtain ⟨htrim, hdashes⟩ := htail.start
    have hrest : ∀ k, k ∉ Flag.kinds given →
        ¬ Healthcheck.style.opening k <+: Text.trimLeft tail := by
      intro k _ hopening
      rw [htrim] at hopening
      exact hdashes ((Healthcheck.isRead_style.dashes k).trans hopening)
    obtain ⟨found, hsets, hread⟩ := Healthcheck.read_line hnodup hrest hlead
    rw [htrim, htail.readCheck_eq] at hread
    refine ⟨.ofSettings found command, ?_, rfl, fun g hg => ?_, fun k hk => ?_⟩
    · rw [read_healthcheck, hread]
      rfl
    · rw [Healthcheck.setting_ofSettings, hsets.of_mem g hg, Option.getD_some]
    · rw [Healthcheck.setting_ofSettings, hsets.of_notMem k hk, Option.getD_none]
  repeated := by
    intro hnodup lead rest hlead
    obtain ⟨m, hread⟩ := Healthcheck.exists_error_of_repeated hnodup hlead rest
    rw [read_healthcheck, hread]
    exact ⟨m, rfl⟩

section Transfer

variable {k : Keyword} (hk : k = .add ∨ k = .copy) {given : List (Flag.Given Transfer.style)}
  (hnodup : (Flag.kinds given).Nodup) {lead rest : Text} (hlead : ∀ c ∈ lead, isBlank c)
  (hrest : ∀ j, ¬ Transfer.style.opening j <+: Text.trimLeft rest)

include hk hnodup hlead hrest

theorem read_transfer_line : ∃ found, Flag.Sets given found ∧
    Args.read k (lead ++ (Flag.line given ++ rest)) =
      (Transfer.readParts (Text.trimLeft rest)).map
        fun parts => .ofOperand k (.transfer (.ofFlags found parts)) := by
  obtain ⟨found, hsets, hread⟩ := Transfer.read_line hnodup hrest hlead
  refine ⟨found, hsets, ?_⟩
  rw [read_transfer hk, hread]
  cases Transfer.readParts (Text.trimLeft rest) <;> rfl

theorem passesFlags : PassesFlags k given lead rest := by
  obtain ⟨found, hsets, hread⟩ := read_transfer_line hk hnodup hlead hrest
  -- a rest that stands alone is an argument with no flags given
  obtain ⟨unset, -, halone⟩ := @read_transfer_line k hk [] List.nodup_nil [] rest nofun hrest
  have halone : Args.read k rest = (Transfer.readParts (Text.trimLeft rest)).map
      fun parts => .ofOperand k (.transfer (.ofFlags unset parts)) := halone
  cases hparts : Transfer.readParts (Text.trimLeft rest) with
  | error m =>
    rw [hparts] at hread halone
    constructor
    · rw [hread, halone]
      exact iff_of_false nofun nofun
    · intro args hargs
      rw [hread] at hargs
      cases hargs
  | ok parts =>
    rw [hparts] at hread halone
    constructor
    · rw [hread, halone]
      exact iff_of_true ⟨_, rfl⟩ ⟨_, rfl⟩
    · intro args hargs
      rw [hread] at hargs
      obtain rfl := Except.ok.inj hargs
      refine ⟨.ofFlags found parts, .ofFlags unset parts, rfl, halone, rfl, rfl, ?_⟩
      rw [Transfer.flag?_ofFlags]
      exact hsets

end Transfer

/-- **Flags do not depend on their order or on what follows.** The flags of `HEALTHCHECK` set their
own settings, and a repeated one does not fit. Behind the flags of `ADD` and of `COPY` the rest is read
as if it stood alone. -/
theorem readsFlags : (∀ given : List (Flag.Given Healthcheck.style), ReadsSettings given) ∧
    ∀ k : Keyword, k = .add ∨ k = .copy → ∀ given : List (Flag.Given Transfer.style),
      (Flag.kinds given).Nodup → ∀ lead rest : Text, (∀ c ∈ lead, isBlank c) →
      (∀ j, ¬ Transfer.style.opening j <+: Text.trimLeft rest) →
      PassesFlags k given lead rest := by
  refine ⟨readsSettings, ?_⟩
  intro k hk given hnodup lead rest hlead hrest
  exact passesFlags hk hnodup hlead hrest

/-- Two settings in another order than that in which they are looked for, a setting that is given
twice, and both flags of a copy. -/
theorem readsFlags_any_order :
    (∃ check : Healthcheck, Args.read .healthcheck "--retries=5\t--interval=9s CMD  true ".toList =
        .ok (.healthcheck check.toArgs) ∧ check.command = some "true".toList ∧
      check.retries = "5".toList ∧ check.interval = "9s".toList ∧ check.timeout = "30s".toList) ∧
    (∃ m, Args.read .healthcheck "--retries=5\t--retries=5\tNONE".toList = .error m) ∧
    ∃ parts : Transfer, Args.read .copy "--from=b --chown=u:g a d".toList =
        .ok (.copy parts.toArgs) ∧ parts.owner = some "u:g".toList ∧
      parts.origin = some "b".toList ∧ parts.sources = ["a".toList] ∧
      parts.destination = "d".toList := by
  have hfive : Word.IsBare [] "5".toList := ⟨by decide, by decide, List.all_eq_true.1 rfl⟩
  have hnine : Word.IsBare [] "9s".toList := ⟨by decide, by decide, List.all_eq_true.1 rfl⟩
  have hstage : Word.IsBare [] "b".toList := ⟨by decide, by decide, List.all_eq_true.1 rfl⟩
  have huser : Word.IsBare [':'] "u".toList := ⟨by decide, by decide, List.all_eq_true.1 rfl⟩
  have hgroup : Word.IsBare [] "g".toList := ⟨by decide, by decide, List.all_eq_true.1 rfl⟩
  have htab : ∀ c ∈ ['\t'], isBlank c := List.all_eq_true.1 rfl
  have hspace : ∀ c ∈ [' '], isBlank c := List.all_eq_true.1 rfl
  let retries : Flag.Given Healthcheck.style :=
    ⟨.retries, "5".toList, ['\t'], hfive, List.cons_ne_nil _ _, htab⟩
  let interval : Flag.Given Healthcheck.style :=
    ⟨.interval, "9s".toList, [' '], hnine, List.cons_ne_nil _ _, hspace⟩
  let origin : Flag.Given Transfer.style :=
    ⟨.origin, "b".toList, [' '], hstage, List.cons_ne_nil _ _, hspace⟩
  let owner : Flag.Given Transfer.style :=
    ⟨.chown, "u:g".toList, [' '], ⟨_, _, huser, hgroup, rfl⟩, List.cons_ne_nil _ _, hspace⟩
  refine ⟨?_, ?_, ?_⟩
  · have htail : Healthcheck.Tail "CMD  true ".toList (some "true".toList) :=
      @Healthcheck.Tail.cmd [' ', ' '] "true ".toList (List.cons_ne_nil _ _) (List.all_eq_true.1 rfl)
        ⟨'t', by decide, rfl⟩
    have hdistinct : [Healthcheck.Setting.retries, .interval].Nodup := by decide
    have hother : Healthcheck.Setting.timeout ∉ [.retries, .interval] := by decide
    obtain ⟨check, hread, hcommand, hgiven, hothers⟩ :=
      (readsFlags.1 [retries, interval]).distinct hdistinct [] _ _ nofun htail
    exact ⟨check, hread, hcommand, hgiven retries (List.mem_cons_self ..),
      hgiven interval (List.mem_cons_of_mem _ (List.mem_cons_self ..)), hothers .timeout hother⟩
  · have hrepeated : ¬ [Healthcheck.Setting.retries, .retries].Nodup := by decide
    exact (readsFlags.1 [retries, retries]).repeated hrepeated [] "NONE".toList nofun
  · have halone : Args.read .copy "a d".toList =
        .ok (.copy { sources := some ["a".toList], destination := some "d".toList }) := by
      cbv
    have hrest : ∀ j, ¬ Transfer.style.opening j <+: Text.trimLeft "a d".toList := by
      intro j
      cases j <;> decide
    have hdistinct : [Transfer.FlagKind.origin, .chown].Nodup := by decide
    obtain ⟨haccepts, hparts⟩ :=
      readsFlags.2 .copy (.inr rfl) [origin, owner] hdistinct [] "a d".toList nofun hrest
    obtain ⟨args, hargs⟩ := haccepts.2 ⟨_, halone⟩
    obtain ⟨parts, alone, rfl, hread, hsources, hdestination, hsets⟩ := hparts args hargs
    obtain ⟨-, -, hs, hd⟩ :=
      TransferArgs.mk.inj (copy.inj (Except.ok.inj (hread.symm.trans halone)))
    exact ⟨parts, hargs, hsets.of_mem owner (List.mem_cons_of_mem _ (List.mem_cons_self ..)),
      hsets.of_mem origin (List.mem_cons_self ..), hsources.trans (Option.some.inj hs),
      hdestination.trans (Option.some.inj hd)⟩

end Args

end Dockerlint
