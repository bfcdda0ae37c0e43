import Dockerlint.Json.Basic
import Dockerlint.Lint.Report

/-!
# Reports and configurations as JSON

## Main definitions

* `Report.toJson`, `Diagnostic.toJson`: a report and a diagnostic as a JSON value
* `Settings.toJson`, `Policy.toJson`: a configuration as a JSON value
-/

namespace Dockerlint

/-- A report as an object. -/
def Report.toJson (r : Report) : Json :=
  .object
    [("syntax_errors", .ofStrings r.syntaxErrors), ("errors", .ofStrings r.errors),
      ("warnings", .ofStrings r.warnings)]

/-- A diagnostic as an object. -/
def Diagnostic.toJson (d : Diagnostic) : Json :=
  .object
    [("rule", .string d.rule.toList), ("message", .string d.message.toList),
      ("severity", .string d.severity.name.toList), ("line", .ofOption (fun n => .ofInt n) d.line)]

/-- The settings of a lint run as an object. -/
def Settings.toJson (s : Settings) : Json :=
  .object [("exit_on_errors", .bool s.failOnErrors), ("exclude", .ofTexts s.exclude)]

/-- A policy as an object. -/
def Policy.toJson (p : Policy) : Json :=
  .object
    [("push_only_to_defined_registries", .bool p.onlyDefined),
      ("registries", .object (p.registries.entries.map fun (name, repositories) =>
        (String.ofList name, .object [("repositories", .ofTexts repositories)])))]

end Dockerlint
