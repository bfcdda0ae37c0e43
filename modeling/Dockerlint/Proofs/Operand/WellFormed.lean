import Dockerlint.Instruction
import Dockerlint.Proofs.Operand.Array
import Dockerlint.Proofs.Operand.Assignments
import Dockerlint.Proofs.Operand.Image

/-!
# Well-formed arguments

A grammar that accepts an argument fills every attribute that its keyword requires, and fills it
with something: there is a word where a word was asked for, and an element in every list. So the
arguments of an instruction are well formed, or all of their attributes are absent, and a query that
finds a required attribute absent has found an instruction that does not fit its grammar.

## Main definitions

* `Filled`: an attribute that is there and not empty
* `Args.WellFormed`: arguments with the attributes that their keyword requires, those of a wrapped
  instruction included

## Main results

* `Args.wellFormed_ofOperand`, `Args.wellFormed_of_read`: what is read is well formed
* `Args.WellFormed.ne_empty`, `Args.WellFormed.exists_field`: well-formed arguments are not empty
* `Instruction.parse_wellFormed`: an instruction has well-formed arguments of its keyword, or empty
  ones and one syntax error
-/

namespace Dockerlint

/-! ## What a keyword requires -/

/-- An attribute that is there and not empty. -/
def Filled {α : Type} (part : Option (List α)) : Prop :=
  ∃ value, part = some value ∧ value ≠ []

theorem filled_some {α : Type} {value : List α} (h : value ≠ []) : Filled (some value) :=
  ⟨value, rfl, h⟩

theorem Filled.ne_none {α : Type} {part : Option (List α)} (h : Filled part) :
    part ≠ none := by
  obtain ⟨value, rfl, -⟩ := h
  exact nofun

/-- `ADD` and `COPY` have sources and a destination. -/
structure TransferArgs.WellFormed (a : TransferArgs) : Prop where
  sources : Filled a.sources
  destination : a.destination.isSome

/-- `FROM` has an image, and a registry where there is a username. -/
structure ImageArgs.WellFormed (a : ImageArgs) : Prop where
  image : Filled a.image
  fullName : Filled a.fullName
  registry : a.username.isSome → a.registry.isSome

/-- `HEALTHCHECK` has all four settings, and a command that is not empty, if there is one. -/
structure HealthcheckArgs.WellFormed (a : HealthcheckArgs) : Prop where
  interval : Filled a.interval
  timeout : Filled a.timeout
  startPeriod : Filled a.startPeriod
  retries : Filled a.retries
  command : a.command ≠ some []

/-- Arguments with the attributes that their keyword requires. `ONBUILD` has the keyword of the
instruction that it wraps, which is one that can be wrapped, and the arguments of that
instruction. -/
def Args.WellFormed : Args → Prop
  | .add args | .copy args => args.WellFormed
  | .arg args => Filled args.name
  | .cmd arguments | .entrypoint arguments | .run arguments | .shell arguments
  | .volume arguments => Filled arguments
  | .env assignments | .label assignments =>
    ∃ pairs : Assignments, assignments = some pairs ∧ pairs.entries ≠ []
  | .expose ports => Filled ports
  | .fromImage args => args.WellFormed
  | .healthcheck args => args.WellFormed
  | .maintainer maintainers =>
    ∃ entries, maintainers = some entries ∧ entries ≠ [] ∧ ∀ entry ∈ entries, entry ≠ []
  | .onbuild word (some args) =>
    word = some args.keyword.text ∧
      args.keyword ∉ [Keyword.onbuild, .maintainer, .fromImage] ∧ args.WellFormed
  | .onbuild _ none => False
  | .stopsignal signal => Filled signal
  | .user args => Filled args.name
  | .workdir path => Filled path

/-! ## Words, arrays and flags -/

theorem Word.Fits.written_ne_nil {stops : List Char} {w : Word} (h : w.Fits stops) :
    w.written ≠ [] := by
  cases w with
  | quoted inner => exact List.cons_ne_nil _ _
  | bare run => exact h.ne_nil

theorem Word.phrase_ne_nil {w : Word} (h : w.written ≠ []) (ws : List Word) :
    Word.phrase (w :: ws) ≠ [] := by
  rw [Word.phrase, List.map_cons]
  cases ws.map Word.written with
  | nil => rwa [Text.join_singleton]
  | cons t ts =>
    rw [Text.join_cons_cons]
    exact List.append_ne_nil_of_left_ne_nil h _

theorem Reader.ne_nil_of_array {quotes : ElementQuotes} {t rest : Text} {es : List Element}
    (h : Reader.array quotes t = .ok (es, rest)) : es ≠ [] := by
  cases t with
  | nil => cases h
  | cons c t =>
    rw [array] at h
    split at h
    · exact ne_nil_of_elements h
    · cases h

section Flags

variable {ι : Type} {flags : List (Flag ι)} {t : Text}

/-- The values of flags have what every value that can be read has. -/
theorem Flag.forall_mem_readAll {P : Text → Prop}
    (h : ∀ f ∈ flags, ∀ t value behind, f.value t = some (value, behind) → P value) :
    ∀ e ∈ (Flag.readAll flags t).1, P e.2 := by
  -- the induction follows the reader: each flag that it finds leaves fewer to look for
  fun_induction Flag.readAll flags t with
  | case1 => exact nofun
  | case2 flags t found hpick more ih =>
    obtain ⟨⟨f, hf, -, hread⟩, hothers⟩ := Flag.pick_spec hpick
    obtain ⟨rest, -, hvalue⟩ := Option.bind_eq_some_iff.1 hread
    refine List.forall_mem_cons.2 ⟨h f hf rest _ _ hvalue, ih fun g hg => ?_⟩
    exact h g (hothers g hg)

end Flags

/-! ## What the readers give -/

theorem Table.place_ne_nil {α : Type} (key : Text) (value : α) (es : List (Text × α)) :
    Table.place key value es ≠ [] := by
  cases es with
  | nil => exact List.cons_ne_nil _ _
  | cons e es =>
    rw [place]
    split
    · exact List.cons_ne_nil _ _
    · split
      · exact List.cons_ne_nil _ _
      · exact List.cons_ne_nil _ _

theorem Table.ofList_ne_nil {α : Type} {es : List (Text × α)} (h : es ≠ []) :
    (Table.ofList es).entries ≠ [] := by
  rcases List.eq_nil_or_concat es with rfl | ⟨es, e, rfl⟩
  · exact absurd rfl h
  · rw [List.concat_eq_append, ofList_concat]
    exact place_ne_nil e.1 e.2 (ofList es).entries

theorem Assignments.ne_nil_of_read {t : Text} {pairs : Assignments}
    (h : Assignments.read t = .ok pairs) : pairs.entries ≠ [] := by
  rw [Assignments.read] at h
  split at h
  · obtain ⟨rfl, -⟩ := Reader.finish_eq_ok_iff.1 h
    exact Table.ofList_ne_nil (List.cons_ne_nil _ _)
  · split at h
    · obtain ⟨rfl, -⟩ := Reader.finish_eq_ok_iff.1 h
      exact Table.ofList_ne_nil (List.cons_ne_nil _ _)
    · cases h

theorem Command.ne_nil_of_read {t : Text} {arguments : List Text}
    (h : Command.read t = .ok arguments) : arguments ≠ [] := by
  rw [Command.read] at h
  split at h
  · split at h
    · cases h
    · next es rest harray =>
      obtain ⟨rfl, -⟩ := Reader.finish_eq_ok_iff.1 h
      exact mt List.map_eq_nil_iff.1 (Reader.ne_nil_of_array harray)
  · obtain rfl := Except.ok.inj h
    exact List.cons_ne_nil _ _

theorem Healthcheck.Setting.valueIn_ne_nil {found : List (Setting × Text)}
    (h : ∀ e ∈ found, e.2 ≠ []) (s : Setting) : s.valueIn found ≠ [] := by
  rw [valueIn]
  cases hlookup : found.lookup s with
  | none => cases s <;> decide
  | some value =>
    obtain ⟨before, others, rfl, -⟩ := List.lookup_eq_some_iff.1 hlookup
    exact h (s, value) (by simp)

theorem Healthcheck.command_ne_of_readCheck {t : Text} {command : Option Text}
    (h : readCheck t = .ok command) : command ≠ some [] := by
  rw [readCheck] at h
  split at h
  · obtain ⟨rfl, -⟩ := Reader.finish_eq_ok_iff.1 h
    exact nofun
  · split at h
    · next command' hcommand =>
      obtain rfl := Except.ok.inj h
      obtain ⟨rest, -, hread⟩ := Option.bind_eq_some_iff.1 hcommand
      rintro ⟨⟩
      rw [readCommand] at hread
      split at hread
      · split at hread
        · cases hread
        · next hne => exact hne (Option.some.inj hread)
      · cases hread
    · cases h

theorem Healthcheck.wellFormed_of_read {t : Text} {check : Healthcheck}
    (h : Healthcheck.read t = .ok check) : check.toArgs.WellFormed := by
  obtain ⟨command, hcommand, rfl⟩ := exists_of_map_eq_ok h
  have hvalues : ∀ e ∈ (Flag.readAll flags t).1, e.2 ≠ [] := by
    refine Flag.forall_mem_readAll (P := (· ≠ [])) fun f hf t value behind hvalue => ?_
    obtain ⟨s, -, rfl⟩ := List.mem_map.1 hf
    obtain ⟨⟨w, rest⟩, hw, hpair⟩ := Option.map_eq_some_iff.1 hvalue
    rw [← (Prod.mk.inj hpair).1]
    exact (Word.read_eq_some hw).2
  have hsetting : ∀ s, Filled (some (Setting.valueIn (Flag.readAll flags t).1 s)) := fun s =>
    filled_some (Setting.valueIn_ne_nil hvalues s)
  exact ⟨hsetting _, hsetting _, hsetting _, hsetting _, command_ne_of_readCheck hcommand⟩

theorem Image.wellFormed_of_read {t : Text} {i : Image} (h : Image.read t = .ok i) :
    i.toArgs.WellFormed := by
  obtain ⟨segments, image, rest, hcut⟩ := exists_cut_of_read h
  rw [read_of_cut hcut, Reader.finish_eq_ok_iff] at h
  obtain ⟨rfl, -⟩ := h
  have himage := hcut.fits.written_ne_nil
  refine ⟨filled_some himage, filled_some ?_, isSome_head?_of_isSome_usernameOf⟩
  exact List.append_ne_nil_of_right_ne_nil _ (List.append_ne_nil_of_left_ne_nil himage _)

theorem Maintainers.wellFormed_of_read {t : Text} {entries : List Text}
    (h : Maintainers.read t = .ok entries) : entries ≠ [] ∧ ∀ entry ∈ entries, entry ≠ [] := by
  fun_induction Maintainers.read t generalizing entries
  case case1 => cases h
  case case2 w rest hw more entry hcomma =>
    obtain ⟨rfl, -⟩ := Reader.finish_eq_ok_iff.1 h
    have hentry := Word.phrase_ne_nil (Word.read_eq_some hw).2 more.1
    exact ⟨List.cons_ne_nil _ _, List.forall_mem_singleton.2 hentry⟩
  case case3 w rest hw more entry behind hcomma ih =>
    obtain ⟨others, hothers, rfl⟩ := exists_of_map_eq_ok h
    have hentry := Word.phrase_ne_nil (Word.read_eq_some hw).2 more.1
    exact ⟨List.cons_ne_nil _ _, List.forall_mem_cons.2 ⟨hentry, (ih hothers).2⟩⟩

theorem Pair.first_ne_nil_of_read {sep : Char} {t : Text} {p : Pair}
    (h : Pair.read sep t = .ok p) : p.first ≠ [] := by
  rw [Pair.read] at h
  split at h
  · cases h
  · next w rest hw =>
    have hne := (Word.read_eq_some (Expectation.require_eq_ok_iff.1 hw)).2
    split at h
    · obtain ⟨rfl, -⟩ := Reader.finish_eq_ok_iff.1 h
      exact hne
    · obtain ⟨rfl, -⟩ := Reader.finish_eq_ok_iff.1 h
      exact hne

theorem Ports.ne_nil_of_read {t : Text} {list : List Text} (h : Ports.read t = .ok list) :
    list ≠ [] := by
  rw [Ports.read] at h
  split at h
  · cases h
  · split at h
    · split at h
      · obtain rfl := Except.ok.inj h
        exact List.cons_ne_nil _ _
      · obtain ⟨more, -, rfl⟩ := exists_of_map_eq_ok h
        exact List.cons_ne_nil _ _
    · cases h

theorem StopSignal.ne_nil_of_read {t signal : Text} (h : StopSignal.read t = .ok signal) :
    signal ≠ [] := by
  rw [StopSignal.read] at h
  split at h
  · cases h
  · next w rest hw =>
    obtain ⟨rfl, -⟩ := Reader.finish_eq_ok_iff.1 h
    exact (Word.read_eq_some (Expectation.require_eq_ok_iff.1 hw)).2

theorem Workdir.ne_nil_of_read {t path : Text} (h : Workdir.read t = .ok path) : path ≠ [] := by
  rw [Workdir.read] at h
  split at h
  · cases h
  · next path' rest hpath =>
    obtain ⟨rfl, -⟩ := Reader.finish_eq_ok_iff.1 h
    exact (Path.read_eq_some (Expectation.require_eq_ok_iff.1 hpath)).2

namespace Transfer

theorem sources_ne_nil_of_divide {paths sources : List Text} {destination : Text}
    (h : divide paths = some (sources, destination)) : sources ≠ [] := by
  rw [divide] at h
  split at h
  · obtain ⟨rfl, -⟩ := Prod.mk.inj (Option.some.inj h)
    exact List.cons_ne_nil _ _
  · cases h

theorem sources_ne_nil_of_readArray {t : Text} {parts : List Text × Text}
    (h : readArray t = .ok parts) : parts.1 ≠ [] := by
  rw [readArray] at h
  split at h
  · cases h
  · split at h
    · cases h
    · next found hfound =>
      obtain ⟨rfl, -⟩ := Reader.finish_eq_ok_iff.1 h
      exact sources_ne_nil_of_divide hfound

theorem sources_ne_nil_of_readShell {t : Text} {parts : List Text × Text}
    (h : readShell t = .ok parts) : parts.1 ≠ [] := by
  rw [readShell] at h
  split at h
  · cases h
  · exact sources_ne_nil_of_divide (Expectation.require_eq_ok_iff.1 h)

theorem wellFormed_of_read {t : Text} {parts : Transfer} (h : Transfer.read t = .ok parts) :
    parts.toArgs.WellFormed := by
  obtain ⟨⟨sources, destination⟩, hparts, rfl⟩ := exists_of_map_eq_ok h
  refine ⟨filled_some ?_, rfl⟩
  rw [readParts] at hparts
  split at hparts
  · next found harray =>
    obtain rfl := Except.ok.inj hparts
    exact sources_ne_nil_of_readArray harray
  · split at hparts
    · next found hshell =>
      obtain rfl := Except.ok.inj hparts
      exact sources_ne_nil_of_readShell hshell
    · cases hparts

end Transfer

/-! ## Arguments of a keyword -/

namespace Args

/-- The arguments with the attributes of an operand that is read are well formed. -/
theorem wellFormed_ofOperand {k : Keyword} {f : Form} (hk : k.form? = some f) {argument : Text}
    {o : Operand} (h : f.read argument = .ok o) : (ofOperand k o).WellFormed := by
  -- the form says what is read, and then the keyword which attributes it fills
  cases f with
  | assignments =>
    obtain ⟨pairs, hread, rfl⟩ := exists_of_map_eq_ok h
    have hpairs := Assignments.ne_nil_of_read hread
    cases k <;> cases hk <;> exact ⟨pairs, rfl, hpairs⟩
  | command =>
    obtain ⟨arguments, hread, rfl⟩ := exists_of_map_eq_ok h
    have harguments := Command.ne_nil_of_read hread
    cases k <;> cases hk <;> exact filled_some harguments
  | healthcheck =>
    obtain ⟨check, hread, rfl⟩ := exists_of_map_eq_ok h
    cases k <;> cases hk
    exact Healthcheck.wellFormed_of_read hread
  | image =>
    obtain ⟨base, hread, rfl⟩ := exists_of_map_eq_ok h
    cases k <;> cases hk
    exact Image.wellFormed_of_read hread
  | maintainers =>
    obtain ⟨entries, hread, rfl⟩ := exists_of_map_eq_ok h
    cases k <;> cases hk
    exact ⟨entries, rfl, Maintainers.wellFormed_of_read hread⟩
  | parameter =>
    obtain ⟨p, hread, rfl⟩ := exists_of_map_eq_ok h
    cases k <;> cases hk
    exact filled_some (Pair.first_ne_nil_of_read hread)
  | ports =>
    obtain ⟨list, hread, rfl⟩ := exists_of_map_eq_ok h
    cases k <;> cases hk
    exact filled_some (Ports.ne_nil_of_read hread)
  | stopSignal =>
    obtain ⟨signal, hread, rfl⟩ := exists_of_map_eq_ok h
    cases k <;> cases hk
    exact filled_some (StopSignal.ne_nil_of_read hread)
  | transfer =>
    obtain ⟨parts, hread, rfl⟩ := exists_of_map_eq_ok h
    have hparts := Transfer.wellFormed_of_read hread
    cases k <;> cases hk <;> exact hparts
  | user =>
    obtain ⟨p, hread, rfl⟩ := exists_of_map_eq_ok h
    cases k <;> cases hk
    exact filled_some (Pair.first_ne_nil_of_read hread)
  | workdir =>
    obtain ⟨path, hread, rfl⟩ := exists_of_map_eq_ok h
    cases k <;> cases hk
    exact filled_some (Workdir.ne_nil_of_read hread)

/-- A text that begins with the text of a keyword that cannot be wrapped is refused. -/
theorem not_mem_unwrappable {k : Keyword} {start : Text} (hstart : k.text <+: start)
    (hfind : unwrappable.find? (fun k => Text.startsWith k.text start) = none) :
    k ∉ unwrappable := by
  intro hk
  obtain ⟨rest, hrest⟩ := hstart
  refine List.find?_eq_none.1 hfind k hk ?_
  rw [Text.startsWith, Text.after_eq_some_iff.2 hrest.symm]
  rfl

theorem wellFormed_of_readTrigger {t : Text} {args : Args} (h : readTrigger t = .ok args) :
    args.WellFormed := by
  rw [readTrigger] at h
  split at h
  · cases h
  · next hfind =>
    dsimp only at h
    split at h
    · cases h
    · split at h
      · split at h
        · cases h
        · next k hk =>
          split at h
          · cases h
          · next f hf =>
            obtain ⟨operand, hread, rfl⟩ := exists_of_map_eq_ok h
            have hword := Keyword.text_of_ofText? hk
            have hprefix : k.text <+: Text.trimLeft t := hword ▸ List.takeWhile_prefix _
            refine ⟨?_, ?_, wellFormed_ofOperand hf hread⟩
            · rw [keyword_ofOperand, hword]
            · rw [keyword_ofOperand]
              exact not_mem_unwrappable hprefix hfind
      · cases h

/-- **Arguments that are read are well formed.** -/
theorem wellFormed_of_read {k : Keyword} {argument : Text} {args : Args}
    (h : Args.read k argument = .ok args) : args.WellFormed := by
  rw [Args.read] at h
  split at h
  · next f hf =>
    obtain ⟨operand, hread, rfl⟩ := exists_of_map_eq_ok h
    exact wellFormed_ofOperand hf hread
  · exact wellFormed_of_readTrigger h

/-- Some attribute of well-formed arguments has a value. -/
theorem WellFormed.exists_field {a : Args} (h : a.WellFormed) :
    ∃ name ∈ a.keyword.attributes, a.field? name ≠ none := by
  have hvalue : ∀ {α : Type} {part : Option α} (f : α → Field), part ≠ none →
      part.map f ≠ none := fun _ hne => mt Option.map_eq_none_iff.1 hne
  have third : ∀ (x y name : String) names, name ∈ x :: y :: name :: names := fun _ _ _ _ => by simp
  cases a with
  | add args | copy args => exact ⟨"src", third .., hvalue .list h.sources.ne_none⟩
  | arg args => exact ⟨"name", List.mem_cons_self .., hvalue .text h.ne_none⟩
  | cmd _ | entrypoint _ | run _ | shell _ | volume _ =>
    exact ⟨"arguments", List.mem_cons_self .., hvalue .list h.ne_none⟩
  | env _ | label _ =>
    obtain ⟨pairs, rfl, -⟩ := h
    exact ⟨"assignments", List.mem_cons_self .., nofun⟩
  | expose ports => exact ⟨"ports", List.mem_cons_self .., hvalue .list h.ne_none⟩
  | fromImage args => exact ⟨"image", third .., hvalue .text h.image.ne_none⟩
  | healthcheck args => exact ⟨"interval", List.mem_cons_self .., hvalue .text h.interval.ne_none⟩
  | maintainer _ =>
    obtain ⟨entries, rfl, -⟩ := h
    exact ⟨"maintainers", List.mem_cons_self .., nofun⟩
  | onbuild word instruction =>
    cases instruction with
    | none => exact h.elim
    | some inner =>
      obtain ⟨rfl, -⟩ := h
      exact ⟨"onbuild", List.mem_cons_self .., nofun⟩
  | stopsignal signal => exact ⟨"stop_signal", List.mem_cons_self .., hvalue .text h.ne_none⟩
  | user args => exact ⟨"user", List.mem_cons_self .., hvalue .text h.ne_none⟩
  | workdir path => exact ⟨"workdir", List.mem_cons_self .., hvalue .text h.ne_none⟩

/-- Well-formed arguments are not those without attributes. -/
theorem WellFormed.ne_empty {a : Args} (h : a.WellFormed) (k : Keyword) : a ≠ .empty k := by
  rintro rfl
  obtain ⟨name, -, hname⟩ := h.exists_field
  exact hname (field?_empty k name)

end Args

/-! ## Instructions -/

namespace Instruction

/-- **An instruction has well-formed arguments of its keyword, or one syntax error and arguments
without any attribute.** So the valid instructions are those whose arguments are not the empty ones,
and also those that have a value for an attribute of their keyword. -/
theorem parse_wellFormed (k : Keyword) (argument : Text) (line : Nat) :
    let i := Instruction.parse k argument line
    i.keyword = k ∧ i.syntaxErrors.length ≤ 1 ∧
      (i.syntaxErrors ≠ [] → i.args = .empty k ∧ ∀ name, i.field? name = none) ∧
      (i.syntaxErrors = [] → i.args.keyword = k ∧ i.args.WellFormed) ∧
      (i.isValid ↔ i.args ≠ .empty k) ∧
      (i.isValid ↔ ∃ name ∈ k.attributes, i.field? name ≠ none) := by
  intro i
  have hparsed : i.Parsed := parsed_parse k argument line .beforeFirst
  refine ⟨rfl, ?_⟩
  -- the argument fits its grammar or it does not, and everything else is read off that
  rcases hparsed.outcome with ⟨hread, herrors⟩ | ⟨m, -, hempty, herrors⟩
  · have hkeyword : i.args.keyword = k := Args.keyword_of_read hread
    have hwell : i.args.WellFormed := Args.wellFormed_of_read hread
    have hvalid : i.isValid := by rw [isValid, herrors]; rfl
    have hfield := hwell.exists_field
    rw [hkeyword] at hfield
    rw [herrors]
    exact ⟨Nat.zero_le 1, fun h => absurd rfl h, fun _ => ⟨hkeyword, hwell⟩,
      iff_of_true hvalid (hwell.ne_empty k), iff_of_true hvalid hfield⟩
  · have hvalid : ¬ i.isValid := by rw [isValid, herrors]; exact Bool.false_ne_true
    have hargs : i.args = .empty k := hempty
    have hfield : ∀ name, i.field? name = none := fun name => by
      rw [field?, hargs, Args.field?_empty]
    have hnone : ¬ ∃ name ∈ k.attributes, i.field? name ≠ none := by
      rintro ⟨name, -, hname⟩
      exact hname (hfield name)
    rw [herrors]
    exact ⟨Nat.le_refl 1, fun _ => ⟨hargs, hfield⟩, fun h => absurd h (List.cons_ne_nil _ _),
      iff_of_false hvalid fun h => h hargs, iff_of_false hvalid hnone⟩

end Instruction

end Dockerlint
