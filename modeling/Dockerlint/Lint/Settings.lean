import Dockerlint.Text.Blank
import Dockerlint.Text.Table

/-!
# Settings of a lint run

Rules are excluded by name. An entry of the exclusion list may hold several names with commas
between them; blanks around a name and empty names do not count.

## Main definitions

* `Settings`: whether errors make a run fail, and the exclusion list
* `Settings.excludedRules`: the excluded names, each once and in order
-/

namespace Dockerlint

/-- The settings of a lint run. -/
structure Settings where
  /-- Whether a run with errors fails. -/
  failOnErrors : Bool := true
  /-- The exclusion list. -/
  exclude : List Text := []
deriving DecidableEq, Repr

namespace Settings

/-- The names in an entry of the exclusion list. -/
def namesIn (entry : Text) : List Text :=
  ((Text.split ',' entry).map Text.trim).filter (· ≠ [])

/-- The names of the excluded rules, each once and in order. -/
def excludedRules (s : Settings) : List Text :=
  (Table.ofList ((s.exclude.flatMap namesIn).map (·, ()))).keys

end Settings

end Dockerlint
