import Dockerlint.Operand.Assignments
import Dockerlint.Operand.Command
import Dockerlint.Operand.Healthcheck
import Dockerlint.Operand.Image
import Dockerlint.Operand.Maintainers
import Dockerlint.Operand.Pair
import Dockerlint.Operand.Ports
import Dockerlint.Operand.Transfer

/-!
# Operands

What the argument of an instruction says. The keywords share eleven forms of argument; `ONBUILD`
has none of its own, because its argument is another instruction. Each form has attributes, and a
keyword has those of its form.

## Main definitions

* `Form`: the forms of an argument
* `Keyword.form?`: the form of a keyword's argument
* `Operand`: an argument that fits its form
* `Form.read`: the operand of an argument
* `Keyword.attributes`: the names of a keyword's attributes
-/

namespace Dockerlint

/-- The forms of an argument. -/
inductive Form where
  | assignments
  | command
  | healthcheck
  | image
  | maintainers
  | parameter
  | ports
  | stopSignal
  | transfer
  | user
  | workdir
deriving DecidableEq, Repr

/-- The form of a keyword's argument; `ONBUILD` wraps another instruction instead. -/
def Keyword.form? : Keyword → Option Form
  | .add => some .transfer
  | .arg => some .parameter
  | .cmd => some .command
  | .copy => some .transfer
  | .entrypoint => some .command
  | .env => some .assignments
  | .expose => some .ports
  | .fromImage => some .image
  | .healthcheck => some .healthcheck
  | .label => some .assignments
  | .maintainer => some .maintainers
  | .onbuild => none
  | .run => some .command
  | .shell => some .command
  | .stopsignal => some .stopSignal
  | .user => some .user
  | .volume => some .command
  | .workdir => some .workdir

theorem Keyword.eq_onbuild_of_form? {k : Keyword} (h : k.form? = none) : k = .onbuild := by
  revert h
  cases k <;> decide

/-- An argument that fits its form. -/
inductive Operand where
  | assignments (pairs : Assignments)
  | command (arguments : List Text)
  | healthcheck (check : Healthcheck)
  | image (base : Image)
  | maintainers (entries : List Text)
  | parameter (name : Text) (default : Option Text)
  | ports (list : List Text)
  | stopSignal (signal : Text)
  | transfer (parts : Transfer)
  | user (name : Text) (group : Option Text)
  | workdir (path : Text)
deriving DecidableEq, Repr

/-- The form of an operand. -/
def Operand.form : Operand → Form
  | .assignments _ => .assignments
  | .command _ => .command
  | .healthcheck _ => .healthcheck
  | .image _ => .image
  | .maintainers _ => .maintainers
  | .parameter _ _ => .parameter
  | .ports _ => .ports
  | .stopSignal _ => .stopSignal
  | .transfer _ => .transfer
  | .user _ _ => .user
  | .workdir _ => .workdir

/-- The signal that makes up an argument: one word, as written. -/
def StopSignal.read (t : Text) : Except Mismatch Text :=
  match Reader.word [] (Text.trimLeft t) with
  | .error m => .error m
  | .ok (w, rest) => Reader.finish w.written rest

/-- The directory that makes up an argument: one path. -/
def Workdir.read (t : Text) : Except Mismatch Text :=
  match Reader.path (Text.trimLeft t) with
  | .error m => .error m
  | .ok (path, rest) => Reader.finish path rest

/-- The operand of an argument. -/
def Form.read (f : Form) (argument : Text) : Except Mismatch Operand :=
  match f with
  | .assignments => (Assignments.read argument).map .assignments
  | .command => (Command.read argument).map .command
  | .healthcheck => (Healthcheck.read argument).map .healthcheck
  | .image => (Image.read argument).map .image
  | .maintainers => (Maintainers.read argument).map .maintainers
  | .parameter => (Pair.read '=' argument).map fun p => .parameter p.first p.second
  | .ports => (Ports.read argument).map .ports
  | .stopSignal => (StopSignal.read argument).map .stopSignal
  | .transfer => (Transfer.read argument).map .transfer
  | .user => (Pair.read ':' argument).map fun p => .user p.first p.second
  | .workdir => (Workdir.read argument).map .workdir

/-- The names of the attributes of a form, in order. -/
def Form.attributes : Form → List String
  | .assignments => ["assignments"]
  | .command => ["arguments"]
  | .healthcheck => ["interval", "timeout", "start_period", "retries", "cmd"]
  | .image => ["registry", "username", "image", "tag", "full_image_name", "stage_name"]
  | .maintainers => ["maintainers"]
  | .parameter => ["name", "default"]
  | .ports => ["ports"]
  | .stopSignal => ["stop_signal"]
  | .transfer => ["chown", "from", "src", "dest"]
  | .user => ["user", "group"]
  | .workdir => ["workdir"]

/-- The names of the attributes that a keyword has, in order. -/
def Keyword.attributes (k : Keyword) : List String :=
  match k.form? with
  | some f => f.attributes
  | none => ["onbuild"]

end Dockerlint
