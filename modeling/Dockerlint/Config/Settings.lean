import Dockerlint.Config.Fields
import Dockerlint.Json.Reader
import Dockerlint.Lint.Settings
import Dockerlint.Yaml.Value

/-!
# Reading settings

The settings of a lint run are a mapping in YAML, or in JSON an object or an array of the fields in
order.

## Main definitions

* `Settings.parseYaml`, `Settings.parseJson`: the settings of a text
-/

namespace Dockerlint.Settings

/-- The default settings. -/
def standard : Settings := {}

/-- The settings of some entries. -/
def ofEntries {m : Type → Type} [Alternative m] {α : Type} (bool : α → m Bool)
    (texts : α → m (List Text)) (entries : List (Text × α)) : m Settings :=
  Settings.mk <$> Config.field entries "exit_on_errors" bool standard.failOnErrors
    <*> Config.field entries "exclude" texts standard.exclude

/-- The settings of a YAML value. -/
def ofYaml (value : Yaml.Value) : Yaml.Decode Settings := do
  ofEntries Yaml.Value.bool Yaml.Value.texts (← value.entries)

/-- The settings of a text in YAML. -/
def parseYaml (t : Text) : Except Error Settings := Config.require (Yaml.decode? ofYaml t)

/-- The truth value of a JSON value. -/
def jsonBool? : Json → Option Bool
  | .bool value => some value
  | _ => none

/-- The text of a JSON string. -/
def jsonText? : Json → Option Text
  | .string value => some value
  | _ => none

/-- The texts of a JSON array of strings. -/
def jsonTexts? : Json → Option (List Text)
  | .array items => items.mapM jsonText?
  | _ => none

/-- The settings of a JSON value. -/
def ofJson? : Json → Option Settings
  | .object fields =>
    ofEntries jsonBool? jsonTexts? (fields.map fun (name, value) => (name.toList, value))
  | .array items =>
    if items.length ≤ 2 then
      ofEntries jsonBool? jsonTexts?
        ((["exit_on_errors", "exclude"].map String.toList).zip items)
    else none
  | _ => none

/-- The settings of a text in JSON. -/
def parseJson (t : Text) : Except Error Settings :=
  Config.require ((Json.parse t).bind ofJson?)

end Dockerlint.Settings
