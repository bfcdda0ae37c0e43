import Dockerlint.Document.Query
import Dockerlint.Lint.Policy

/-!
# Rules

A rule looks at a document, or at one of its stages, and reports findings. The message of a
finding is the description of its rule, followed by a detail where the finding has one. Rules run
in the order of their names, whatever the order in which they are listed.

## Main definitions

* `Scope`: the parts of a document that rules look at
* `Context`: what a rule looks at
* `Rule`: a name, a description, a severity and a check
* `Diagnostic`: a finding with the rule it comes from
* `Rule.inOrder`: rules in the order of their names
* `Rule.run`: the diagnostics of rules in all contexts of a scope
-/

namespace Dockerlint

/-- How serious a finding is. -/
inductive Severity where
  | error
  | warning
deriving DecidableEq, Repr

/-- How a severity is named. -/
def Severity.name : Severity → String
  | .error => "error"
  | .warning => "warning"

/-- A finding with the rule it comes from. -/
structure Diagnostic where
  rule : String
  message : String
  severity : Severity
  line : Option Nat
deriving DecidableEq, Repr

/-- How a diagnostic is displayed. -/
def Diagnostic.display (d : Diagnostic) : String :=
  match d.line with
  | some line => d.message ++ " (" ++ d.rule ++ ", line: " ++ toString line ++ ")"
  | none => d.message ++ " (" ++ d.rule ++ ")"

/-- What a rule looks at: a document, or one stage of it, under a policy. -/
structure Context where
  document : Document
  stage : Option Stage
  policy : Policy

/-- What a rule reports. -/
structure Finding where
  line : Option Nat := none
  detail : String := ""
deriving DecidableEq, Repr

/-- A rule of the linter. -/
structure Rule where
  name : String
  description : String
  severity : Severity
  check : Context → List Finding

/-- The diagnostic of a finding. -/
def Rule.diagnostic (r : Rule) (f : Finding) : Diagnostic :=
  { rule := r.name, message := r.description ++ f.detail, severity := r.severity, line := f.line }

/-- The part of a document that rules look at. -/
inductive Scope where
  /-- The whole document. -/
  | document
  /-- Each stage. -/
  | everyStage
  /-- The last stage. -/
  | lastStage
  /-- Each stage but the last. -/
  | builderStages
deriving DecidableEq, Repr

/-- The stages that a scope goes through; the whole document counts as no stage. -/
def Scope.stages (d : Document) : Scope → List (Option Stage)
  | .document => [none]
  | .everyStage => d.stages.map some
  | .lastStage => [some d.lastStage]
  | .builderStages => d.stages.dropLast.map some

/-- The contexts that a scope goes through. -/
def Scope.contexts (d : Document) (policy : Policy) (s : Scope) : List Context :=
  (s.stages d).map fun stage => { document := d, stage, policy }

/-- Whether the name of a rule does not come after that of another. -/
def Rule.notAfter (r s : Rule) : Bool := !Text.precedes s.name.toList r.name.toList

/-- Rules in the order of their names; rules of the same name stay as they are listed. -/
def Rule.inOrder (rules : List Rule) : List Rule := rules.mergeSort Rule.notAfter

/-- The diagnostics of one rule, context after context. -/
def Rule.reports (r : Rule) (contexts : List Context) : List Diagnostic :=
  contexts.flatMap fun c => (r.check c).map r.diagnostic

/-- The diagnostics of the rules that are not excluded, in all contexts of a scope. -/
def Rule.run (rules : List Rule) (scope : Scope) (d : Document) (policy : Policy)
    (excluded : List Text) : List Diagnostic :=
  (Rule.inOrder (rules.filter fun r => !excluded.contains r.name.toList)).flatMap
    (·.reports (scope.contexts d policy))

namespace Finding

/-- One finding without a place if a condition holds. -/
def oneIf (condition : Bool) : List Finding := if condition then [{}] else []

/-- A finding at the line of every instruction with a property. -/
def atInstructions (is : List Instruction) (p : Instruction → Bool) : List Finding :=
  (is.filter p).map fun i => { line := some i.line }

/-- A finding at the number of every line with a property; the first line has number `n`. -/
def atLines (p : Text → Bool) (n : Nat) : List Text → List Finding
  | [] => []
  | line :: rest =>
    if p line then { line := some n } :: atLines p (n + 1) rest else atLines p (n + 1) rest

end Finding

end Dockerlint
