import Dockerlint.Operand.Flags

/-!
# Health checks

The argument of `HEALTHCHECK`: optional flags with settings, then `NONE`, or `CMD` and a command.
A setting without a flag has its default.

## Main definitions

* `Healthcheck`: the settings and the command
* `Healthcheck.read`: the health check of an argument
-/

namespace Dockerlint

/-- How the health of a container is checked. -/
structure Healthcheck where
  interval : Text
  timeout : Text
  startPeriod : Text
  retries : Text
  /-- The command that checks, or nothing if there is no check. -/
  command : Option Text
deriving DecidableEq, Repr

namespace Healthcheck

/-- The settings of a health check. -/
inductive Setting where
  | interval
  | timeout
  | startPeriod
  | retries
deriving DecidableEq, Repr

namespace Setting

/-- The flag of a setting up to its value. -/
def opening : Setting → Text
  | .interval => Text.ofString "--interval="
  | .timeout => Text.ofString "--timeout="
  | .startPeriod => Text.ofString "--start-period="
  | .retries => Text.ofString "--retries="

/-- The value of a setting without a flag. -/
def fallback : Setting → Text
  | .interval => Text.ofString "30s"
  | .timeout => Text.ofString "30s"
  | .startPeriod => Text.ofString "0s"
  | .retries => Text.ofString "3"

/-- The value of a setting among the flags that were read. -/
def valueIn (found : List (Setting × Text)) (s : Setting) : Text :=
  (found.lookup s).getD s.fallback

end Setting

/-- A word as written, with any blanks before it. -/
def readSetting (t : Text) : Option (Text × Text) :=
  (Word.read [] (Text.trimLeft t)).map fun (w, behind) => (w.written, behind)

/-- The flags of a health check. -/
def flags : List (Flag Setting) :=
  [.interval, .timeout, .startPeriod, .retries].map fun s => ⟨s, s.opening, readSetting⟩

/-- A command with a blank in front of it: the command without its outer blanks. -/
def readCommand (t : Text) : Option Text :=
  if Text.startsBlank t then
    match Text.trim t with
    | [] => none
    | command => some command
  else none

/-- What follows the flags: `NONE`, or `CMD` and a command. -/
def readCheck (t : Text) : Except Mismatch (Option Text) :=
  match Text.after (Text.ofString "NONE") t with
  | some rest => Reader.finish none rest
  | none =>
    match (Text.after (Text.ofString "CMD") t).bind readCommand with
    | some command => .ok (some command)
    | none => .error (.expected .noneOrCmd t)

/-- The health check of an argument. -/
def read (t : Text) : Except Mismatch Healthcheck :=
  let found := Flag.readAll flags t
  (readCheck (Text.trimLeft found.2)).map fun command =>
    { interval := Setting.valueIn found.1 .interval
      timeout := Setting.valueIn found.1 .timeout
      startPeriod := Setting.valueIn found.1 .startPeriod
      retries := Setting.valueIn found.1 .retries
      command }

end Healthcheck

end Dockerlint
