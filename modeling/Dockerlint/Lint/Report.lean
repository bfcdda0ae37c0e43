import Dockerlint.Lint.General
import Dockerlint.Lint.LastStage
import Dockerlint.Lint.Settings

/-!
# Reports

A lint run goes through the groups of rules in a fixed order and collects what it finds in a
report: the syntax errors of the document, then the errors and the warnings of the rules. Warnings
never make a run fail.

## Main definitions

* `Group`: the groups of rules
* `Group.rules`: the rules of a group in the order in which they run
* `Group.check`: the diagnostics of a group
* `Report.ofDocument`: the report of a document
* `lint`: the report, or an error if the settings ask to fail on errors
-/

namespace Dockerlint

/-- The version of the linter. -/
def version : String := "0.1.0"

/-- The groups of rules. -/
inductive Group where
  | general
  | everyStage
  | lastStage
  | builderStages
deriving DecidableEq, Repr

namespace Group

/-- The groups in the order in which they run. -/
def all : List Group := [.general, .everyStage, .lastStage, .builderStages]

/-- How a group is named. -/
def name : Group → String
  | .general => "general"
  | .everyStage => "every_stage"
  | .lastStage => "last_stage"
  | .builderStages => "builder_stages"

/-- What the rules of a group look at. -/
def scope : Group → Scope
  | .general => .document
  | .everyStage => .everyStage
  | .lastStage => .lastStage
  | .builderStages => .builderStages

/-- The rules of a group as they are listed. -/
def listed : Group → List Rule
  | .general => General.rules
  | .everyStage => []
  | .lastStage => LastStage.rules
  | .builderStages => []

/-- The rules of a group in the order in which they run. -/
def rules (g : Group) : List Rule := Rule.inOrder g.listed

/-- The diagnostics of a group. -/
def check (g : Group) (d : Document) (policy : Policy) (excluded : List Text) :
    List Diagnostic :=
  Rule.run g.listed g.scope d policy excluded

end Group

/-- What a lint run finds. -/
structure Report where
  syntaxErrors : List String
  errors : List String
  warnings : List String
deriving DecidableEq, Repr

namespace Report

/-- The diagnostics of all groups. -/
def diagnostics (d : Document) (policy : Policy) (excluded : List Text) : List Diagnostic :=
  Group.all.flatMap fun g => g.check d policy excluded

/-- The texts of the diagnostics of a severity. -/
def textsOf (severity : Severity) (ds : List Diagnostic) : List String :=
  (ds.filter (·.severity == severity)).map (·.display)

/-- The report of a document. -/
def ofDocument (d : Document) (settings : Settings) (policy : Policy) : Report :=
  let found := diagnostics d policy settings.excludedRules
  { syntaxErrors := d.syntaxErrors
    errors := textsOf .error found
    warnings := textsOf .warning found }

/-- Whether there is a syntax error or an error. -/
def failed (r : Report) : Bool := !r.syntaxErrors.isEmpty || !r.errors.isEmpty

/-- The syntax errors and the errors. -/
def allErrors (r : Report) : List String := r.syntaxErrors ++ r.errors

end Report

/-- Lints a document: the report, or an error if there are errors and the settings ask to fail on
them. -/
def lint (d : Document) (settings : Settings) (policy : Policy) : Except Error Report :=
  let report := Report.ofDocument d settings policy
  if report.failed && settings.failOnErrors then
    .error (.lintingFailed report.allErrors report.warnings)
  else .ok report

end Dockerlint
