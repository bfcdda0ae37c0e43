import Dockerlint.Config.Fields
import Dockerlint.Lint.Policy
import Dockerlint.Text.Blank
import Dockerlint.Yaml.Value

/-!
# Reading policies

A registry policy is a mapping in YAML. The registries are a mapping by name; a registry may be
defined by nothing, and so may all of them.

## Main definitions

* `Policy.parseYaml`: the policy of a text
* `Policy.load`: the policy in a file
-/

namespace Dockerlint.Policy

/-- The default policy. -/
def standard : Policy := {}

/-- The repositories of a registry. -/
def repositoriesOf (value : Yaml.Value) : Yaml.Decode (List Text) := do
  match ← value.optional with
  | none => return []
  | some value => Config.field (← value.entries) "repositories" Yaml.Value.texts []

/-- The registries of a policy. -/
def registriesOf (value : Yaml.Value) : Yaml.Decode (Table (List Text)) := do
  match ← value.optional with
  | none => return .empty
  | some value =>
    let found ← (← value.entries).mapM fun (name, value) => return (name, ← repositoriesOf value)
    return Table.ofList found

/-- The policy of a YAML value. -/
def ofYaml (value : Yaml.Value) : Yaml.Decode Policy := do
  let entries ← value.entries
  let onlyDefined ←
    Config.field entries "push_only_to_defined_registries" Yaml.Value.bool standard.onlyDefined
  let registries ← Config.field entries "registries" registriesOf standard.registries
  return { onlyDefined, registries }

/-- The policy of a text in YAML; a blank text is the default policy. -/
def parseYaml (t : Text) : Except Error Policy :=
  if Text.trim t = [] then .ok standard
  else Config.require (Yaml.decode? ofYaml t)

/-- The policy in a file, given the bytes of the regular file, if there is one. Without a file it
is the default policy. -/
def load (file : Option ByteArray) : Except Error Policy :=
  match file with
  | none => .ok standard
  | some bytes =>
    match String.fromUTF8? bytes with
    | none => .error .notText
    | some content => parseYaml content.toList

/-- The policy with the given registries, none of which has repositories. -/
def ofNames (onlyDefined : Bool) (names : List Text) : Policy :=
  { onlyDefined, registries := Table.ofList (names.map (·, [])) }

end Dockerlint.Policy
