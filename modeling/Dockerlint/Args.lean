import Dockerlint.Operand.Basic

/-!
# Arguments

The structured arguments of an instruction, tagged with its keyword. Every attribute can be absent,
and all of them are where an argument does not fit. The arguments of `ONBUILD` are those of the
instruction that it wraps, together with its keyword as written. `ONBUILD`, `MAINTAINER` and `FROM`
cannot be wrapped, so nothing is wrapped twice.

## Main definitions

* `Args`: the arguments of an instruction, one constructor for each keyword
* `Args.keyword`, `Args.empty`: the tag of arguments, and the arguments without any attribute
* `Args.ofOperand`: the arguments with the attributes of an operand
* `Args.read`: the arguments of a keyword from the text behind it
* `Args.fields`, `Args.field?`: the attributes, and an attribute by its name
* `Args.image?`, `Args.assignments?`, `Args.maintainers?`, `Args.parameter?`: the attributes of
  one kind of arguments

## Main results

* `Args.keyword_empty`, `Args.keyword_ofOperand`: arguments are tagged with the keyword that they
  are made for
* `Args.ofOperand_inj`: an operand of the keyword's form is not lost
* `Args.keyword_of_read`: what is read for a keyword is tagged with it
* `Args.read_eq_of_form`, `Args.read_eq_map`: the arguments of a keyword with a form
* `Args.fields_keys`: the attributes are those of the keyword
-/

namespace Dockerlint

/-! ## Attributes -/

/-- The attributes of `ADD` and `COPY`. -/
structure TransferArgs where
  owner : Option Text := none
  origin : Option Text := none
  sources : Option (List Text) := none
  destination : Option Text := none
deriving DecidableEq, Repr

/-- The attributes of `ARG`. -/
structure ParameterArgs where
  name : Option Text := none
  default : Option Text := none
deriving DecidableEq, Repr

/-- The attributes of `FROM`. -/
structure ImageArgs where
  registry : Option Text := none
  username : Option Text := none
  image : Option Text := none
  tag : Option Text := none
  fullName : Option Text := none
  stageName : Option Text := none
deriving DecidableEq, Repr

/-- The attributes of `HEALTHCHECK`. -/
structure HealthcheckArgs where
  interval : Option Text := none
  timeout : Option Text := none
  startPeriod : Option Text := none
  retries : Option Text := none
  command : Option Text := none
deriving DecidableEq, Repr

/-- The attributes of `USER`. -/
structure UserArgs where
  name : Option Text := none
  group : Option Text := none
deriving DecidableEq, Repr

/-- The attributes that a transfer has. -/
def Transfer.toArgs (t : Transfer) : TransferArgs :=
  { owner := t.owner
    origin := t.origin
    sources := some t.sources
    destination := some t.destination }

/-- The attributes that an image has. -/
def Image.toArgs (i : Image) : ImageArgs :=
  { registry := i.registry
    username := i.username
    image := some i.image
    tag := i.tag
    fullName := some i.fullName
    stageName := i.stageName }

/-- The attributes that a health check has. -/
def Healthcheck.toArgs (h : Healthcheck) : HealthcheckArgs :=
  { interval := some h.interval
    timeout := some h.timeout
    startPeriod := some h.startPeriod
    retries := some h.retries
    command := h.command }

theorem Transfer.toArgs_inj {s t : Transfer} : s.toArgs = t.toArgs ↔ s = t := by
  cases s
  cases t
  simp [toArgs]

theorem Image.toArgs_inj {i j : Image} : i.toArgs = j.toArgs ↔ i = j := by
  cases i
  cases j
  simp [toArgs]

theorem Healthcheck.toArgs_inj {g h : Healthcheck} : g.toArgs = h.toArgs ↔ g = h := by
  cases g
  cases h
  simp [toArgs]

/-- The value of an attribute. -/
inductive Field where
  | text (value : Text)
  | list (values : List Text)
  | map (values : Assignments)
deriving DecidableEq, Repr

/-! ## Tagged arguments -/

/-- The arguments of an instruction, tagged with its keyword. -/
inductive Args where
  | add (args : TransferArgs)
  | arg (args : ParameterArgs)
  | cmd (arguments : Option (List Text))
  | copy (args : TransferArgs)
  | entrypoint (arguments : Option (List Text))
  | env (assignments : Option Assignments)
  | expose (ports : Option (List Text))
  | fromImage (args : ImageArgs)
  | healthcheck (args : HealthcheckArgs)
  | label (assignments : Option Assignments)
  | maintainer (maintainers : Option (List Text))
  /-- The keyword of a wrapped instruction as written, and the arguments of that instruction. -/
  | onbuild (word : Option Text) (instruction : Option Args)
  | run (arguments : Option (List Text))
  | shell (arguments : Option (List Text))
  | stopsignal (signal : Option Text)
  | user (args : UserArgs)
  | volume (arguments : Option (List Text))
  | workdir (path : Option Text)
deriving Repr

namespace Args

/-- The keyword that arguments are tagged with. -/
def keyword : Args → Keyword
  | .add _ => .add
  | .arg _ => .arg
  | .cmd _ => .cmd
  | .copy _ => .copy
  | .entrypoint _ => .entrypoint
  | .env _ => .env
  | .expose _ => .expose
  | .fromImage _ => .fromImage
  | .healthcheck _ => .healthcheck
  | .label _ => .label
  | .maintainer _ => .maintainer
  | .onbuild _ _ => .onbuild
  | .run _ => .run
  | .shell _ => .shell
  | .stopsignal _ => .stopsignal
  | .user _ => .user
  | .volume _ => .volume
  | .workdir _ => .workdir

/-- The arguments of a keyword with every attribute absent. -/
def empty : Keyword → Args
  | .add => .add {}
  | .arg => .arg {}
  | .cmd => .cmd none
  | .copy => .copy {}
  | .entrypoint => .entrypoint none
  | .env => .env none
  | .expose => .expose none
  | .fromImage => .fromImage {}
  | .healthcheck => .healthcheck {}
  | .label => .label none
  | .maintainer => .maintainer none
  | .onbuild => .onbuild none none
  | .run => .run none
  | .shell => .shell none
  | .stopsignal => .stopsignal none
  | .user => .user {}
  | .volume => .volume none
  | .workdir => .workdir none

@[simp]
theorem keyword_empty (k : Keyword) : (empty k).keyword = k := by cases k <;> rfl

/-- Arguments are equal if they have one constructor and equal attributes. Written out, because
nothing derives it for a type that holds optional values of itself. -/
def decEq (a b : Args) : Decidable (a = b) :=
  if h : a.ctorIdx = b.ctorIdx then
    match a, h.symm with
    | .add x, h => add.elim b h fun y => decidable_of_iff (x = y) ⟨congrArg _, add.inj⟩
    | .arg x, h => arg.elim b h fun y => decidable_of_iff (x = y) ⟨congrArg _, arg.inj⟩
    | .cmd x, h => cmd.elim b h fun y => decidable_of_iff (x = y) ⟨congrArg _, cmd.inj⟩
    | .copy x, h => copy.elim b h fun y => decidable_of_iff (x = y) ⟨congrArg _, copy.inj⟩
    | .entrypoint x, h => entrypoint.elim b h fun y =>
      decidable_of_iff (x = y) ⟨congrArg _, entrypoint.inj⟩
    | .env x, h => env.elim b h fun y => decidable_of_iff (x = y) ⟨congrArg _, env.inj⟩
    | .expose x, h => expose.elim b h fun y => decidable_of_iff (x = y) ⟨congrArg _, expose.inj⟩
    | .fromImage x, h => fromImage.elim b h fun y =>
      decidable_of_iff (x = y) ⟨congrArg _, fromImage.inj⟩
    | .healthcheck x, h => healthcheck.elim b h fun y =>
      decidable_of_iff (x = y) ⟨congrArg _, healthcheck.inj⟩
    | .label x, h => label.elim b h fun y => decidable_of_iff (x = y) ⟨congrArg _, label.inj⟩
    | .maintainer x, h => maintainer.elim b h fun y =>
      decidable_of_iff (x = y) ⟨congrArg _, maintainer.inj⟩
    | .onbuild x none, h =>
      onbuild.elim b h fun y j =>
        decidable_of_iff (x = y ∧ none = j) ⟨fun h => by rw [h.1, h.2], onbuild.inj⟩
    | .onbuild x (some i), h =>
      onbuild.elim b h fun y j =>
        match j with
        | none => isFalse nofun
        | some j =>
          have := decEq i j
          decidable_of_iff (x = y ∧ i = j) ⟨fun h => by rw [h.1, h.2], by simp⟩
    | .run x, h => run.elim b h fun y => decidable_of_iff (x = y) ⟨congrArg _, run.inj⟩
    | .shell x, h => shell.elim b h fun y => decidable_of_iff (x = y) ⟨congrArg _, shell.inj⟩
    | .stopsignal x, h => stopsignal.elim b h fun y =>
      decidable_of_iff (x = y) ⟨congrArg _, stopsignal.inj⟩
    | .user x, h => user.elim b h fun y => decidable_of_iff (x = y) ⟨congrArg _, user.inj⟩
    | .volume x, h => volume.elim b h fun y => decidable_of_iff (x = y) ⟨congrArg _, volume.inj⟩
    | .workdir x, h => workdir.elim b h fun y =>
      decidable_of_iff (x = y) ⟨congrArg _, workdir.inj⟩
  else isFalse (mt (congrArg Args.ctorIdx) h)

instance : DecidableEq Args := decEq

/-- The arguments of a keyword with the attributes of an operand. An operand of another form than
the keyword's leaves them absent. -/
def ofOperand : Keyword → Operand → Args
  | .add, .transfer parts => .add parts.toArgs
  | .arg, .parameter name default => .arg { name := some name, default }
  | .cmd, .command arguments => .cmd (some arguments)
  | .copy, .transfer parts => .copy parts.toArgs
  | .entrypoint, .command arguments => .entrypoint (some arguments)
  | .env, .assignments pairs => .env (some pairs)
  | .expose, .ports list => .expose (some list)
  | .fromImage, .image base => .fromImage base.toArgs
  | .healthcheck, .healthcheck check => .healthcheck check.toArgs
  | .label, .assignments pairs => .label (some pairs)
  | .maintainer, .maintainers entries => .maintainer (some entries)
  | .run, .command arguments => .run (some arguments)
  | .shell, .command arguments => .shell (some arguments)
  | .stopsignal, .stopSignal signal => .stopsignal (some signal)
  | .user, .user name group => .user { name := some name, group }
  | .volume, .command arguments => .volume (some arguments)
  | .workdir, .workdir path => .workdir (some path)
  | k, _ => .empty k

theorem keyword_ofOperand (k : Keyword) (o : Operand) : (ofOperand k o).keyword = k := by
  cases k <;> cases o <;> rfl

/-- An operand of the keyword's form is not lost. -/
theorem ofOperand_inj {k : Keyword} {o p : Operand} (ho : k.form? = some o.form)
    (hp : k.form? = some p.form) : ofOperand k o = ofOperand k p ↔ o = p := by
  cases k <;> cases o <;> cases ho <;> cases p <;> cases hp <;>
    simp [ofOperand, Transfer.toArgs_inj, Image.toArgs_inj, Healthcheck.toArgs_inj]

/-! ## Reading -/

/-- The keywords that cannot be wrapped. -/
def unwrappable : List Keyword := [.onbuild, .maintainer, .fromImage]

/-- The arguments of `ONBUILD`: another keyword, blanks, and the argument of that keyword. A text
that begins with a keyword that cannot be wrapped is refused, whatever follows. -/
def readTrigger (t : Text) : Except Mismatch Args :=
  let start := Text.trimLeft t
  match unwrappable.find? fun k => Text.startsWith k.text start with
  | some k => .error (.unwanted k start)
  | none =>
    let word := start.takeWhile Char.isUpper
    let rest := start.dropWhile Char.isUpper
    if word = [] then .error (.expected .keyword start)
    else if Text.startsBlank rest then
      match Keyword.ofText? word with
      | none => .error (.unknownKeyword word)
      | some k =>
        -- only `ONBUILD` has no form, and it was refused above
        match k.form? with
        | none => .error (.unwanted k start)
        | some f =>
          (f.read (Text.trimLeft rest)).map fun operand =>
            .onbuild (some word) (some (.ofOperand k operand))
    else .error (.expected .whitespace rest)

theorem keyword_of_readTrigger {t : Text} {args : Args} (h : readTrigger t = .ok args) :
    args.keyword = .onbuild := by
  simp only [readTrigger] at h
  split at h
  · cases h
  · split at h
    · cases h
    · split at h
      · split at h
        · cases h
        · split at h
          · cases h
          · obtain ⟨operand, -, rfl⟩ := exists_of_map_eq_ok h
            rfl
      · cases h

/-- The arguments of a keyword. -/
def read (k : Keyword) (argument : Text) : Except Mismatch Args :=
  match k.form? with
  | some f => (f.read argument).map (ofOperand k)
  | none => readTrigger argument

theorem read_eq_of_form {k : Keyword} {f : Form} (hf : k.form? = some f) (argument : Text) :
    read k argument = (f.read argument).map (ofOperand k) := by
  rw [read, hf]

/-- The arguments of a keyword whose operand is made of what a reader gives. -/
theorem read_eq_map {k : Keyword} {f : Form} (hf : k.form? = some f) {α : Type} {argument : Text}
    {outcome : Except Mismatch α} (operand : α → Operand)
    (h : f.read argument = outcome.map operand) :
    read k argument = outcome.map fun a => ofOperand k (operand a) := by
  rw [read_eq_of_form hf, h]
  cases outcome <;> rfl

/-- **What is read for a keyword is tagged with it.** -/
theorem keyword_of_read {k : Keyword} {argument : Text} {args : Args}
    (h : read k argument = .ok args) : args.keyword = k := by
  cases hf : k.form? with
  | some f =>
    rw [read_eq_of_form hf] at h
    obtain ⟨operand, -, rfl⟩ := exists_of_map_eq_ok h
    exact keyword_ofOperand k operand
  | none =>
    rw [read, hf] at h
    rw [Keyword.eq_onbuild_of_form? hf]
    exact keyword_of_readTrigger h

/-! ## Attributes by name -/

/-- The attributes of arguments, each with its value unless it is absent. -/
def fields : Args → List (String × Option Field)
  | .add args | .copy args =>
    [("chown", args.owner.map .text), ("from", args.origin.map .text),
      ("src", args.sources.map .list), ("dest", args.destination.map .text)]
  | .arg args => [("name", args.name.map .text), ("default", args.default.map .text)]
  | .cmd arguments | .entrypoint arguments | .run arguments | .shell arguments
  | .volume arguments => [("arguments", arguments.map .list)]
  | .env assignments | .label assignments => [("assignments", assignments.map .map)]
  | .expose ports => [("ports", ports.map .list)]
  | .fromImage args =>
    [("registry", args.registry.map .text), ("username", args.username.map .text),
      ("image", args.image.map .text), ("tag", args.tag.map .text),
      ("full_image_name", args.fullName.map .text), ("stage_name", args.stageName.map .text)]
  | .healthcheck args =>
    [("interval", args.interval.map .text), ("timeout", args.timeout.map .text),
      ("start_period", args.startPeriod.map .text), ("retries", args.retries.map .text),
      ("cmd", args.command.map .text)]
  | .maintainer maintainers => [("maintainers", maintainers.map .list)]
  | .onbuild word _ => [("onbuild", word.map .text)]
  | .stopsignal signal => [("stop_signal", signal.map .text)]
  | .user args => [("user", args.name.map .text), ("group", args.group.map .text)]
  | .workdir path => [("workdir", path.map .text)]

/-- The attributes are those of the keyword, in order. -/
theorem fields_keys (a : Args) : a.fields.map (·.1) = a.keyword.attributes := by
  cases a <;> rfl

/-- The value of an attribute by its name; nothing for an attribute that is absent or that the
keyword does not have. The attributes of a wrapped instruction belong to its wrapper. -/
def field? : Args → String → Option Field
  | .onbuild word instruction, name =>
    if name = "onbuild" then word.map .text
    else
      match instruction with
      | some args => args.field? name
      | none => none
  | args, name => (args.fields.lookup name).join

/-- The attributes of a `FROM`. -/
def image? : Args → Option ImageArgs
  | .fromImage args => some args
  | _ => none

/-- The assignments of an `ENV` or a `LABEL`. -/
def assignments? : Args → Option Assignments
  | .env assignments | .label assignments => assignments
  | _ => none

theorem assignments?_ofOperand {k : Keyword} (hk : k.form? = some .assignments)
    (pairs : Assignments) : (ofOperand k (.assignments pairs)).assignments? = some pairs := by
  cases k <;> cases hk <;> rfl

/-- The entries of a `MAINTAINER`. -/
def maintainers? : Args → Option (List Text)
  | .maintainer maintainers => maintainers
  | _ => none

/-- The attributes of an `ARG`. -/
def parameter? : Args → Option ParameterArgs
  | .arg args => some args
  | _ => none

theorem fields_empty (k : Keyword) : ∀ e ∈ (empty k).fields, e.2 = none := by
  cases k <;> simp [empty, fields]

/-- Where all attributes are absent, none has a value. -/
theorem field?_empty (k : Keyword) (name : String) : (empty k).field? name = none := by
  have hlookup : ((empty k).fields.lookup name).join = none := by
    cases hvalue : (empty k).fields.lookup name with
    | none => rfl
    | some value =>
      obtain ⟨before, behind, hfields, -⟩ := List.lookup_eq_some_iff.1 hvalue
      exact fields_empty k (name, value) (by rw [hfields]; simp)
  cases k with
  | onbuild =>
    rw [empty, field?]
    split
    · rfl
    · rfl
  | _ => exact hlookup

end Args

end Dockerlint
