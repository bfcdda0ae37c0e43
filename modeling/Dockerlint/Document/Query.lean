import Dockerlint.Document.Basic

/-!
# Queries

Instructions of a document by stage and keyword. A query without a stage is about the whole
document.

## Main definitions

* `Document.select`, `Document.ofKeyword`: the instructions of a stage, and those with a keyword
* `Document.lastIndexOf`: the place of the last instruction with a keyword
* `Document.maintainerLabels`: the labels that name a maintainer
* `Document.parametersWithoutDefault`: the build arguments that need a value

## Main results

* `Document.mem_ofKeyword_iff`, `Document.mem_maintainerLabels_iff`: what the queries find
-/

namespace Dockerlint.Document

/-- Whether an instruction belongs to a stage; without a stage, every instruction does. -/
def inStage (stage : Option Stage) (i : Instruction) : Bool :=
  match stage with
  | none => true
  | some s => i.stage == s

/-- The instructions of a stage. -/
def select (d : Document) (stage : Option Stage) : List Instruction :=
  d.instructions.filter (inStage stage)

/-- The instructions of a stage with a given keyword. -/
def ofKeyword (d : Document) (keyword : Keyword) (stage : Option Stage) : List Instruction :=
  (d.select stage).filter (·.keyword == keyword)

/-- The first instruction of a stage with a given keyword. -/
def firstOfKeyword (d : Document) (keyword : Keyword) (stage : Option Stage) :
    Option Instruction :=
  (d.ofKeyword keyword stage).head?

/-- The index of the last element with a property. -/
def lastIndex {α : Type} (p : α → Bool) : List α → Option Nat
  | [] => none
  | a :: as =>
    match lastIndex p as with
    | some n => some (n + 1)
    | none => if p a then some 0 else none

/-- The place, among all instructions, of the last one with a keyword in a stage. -/
def lastIndexOf (d : Document) (keyword : Keyword) (stage : Option Stage) : Option Nat :=
  lastIndex (fun i => i.keyword == keyword && inStage stage i) d.instructions

/-- The key under which a label names the maintainer. -/
def maintainerKey : Text := Text.ofString "maintainer"

/-- The labels of a stage that name a maintainer. -/
def maintainerLabels (d : Document) (mode : Assignments.KeyCase) (stage : Option Stage) :
    List Instruction :=
  (d.ofKeyword .label stage).filter (·.containsKey maintainerKey mode)

/-- The attributes of the `ARG` instructions of a document. -/
def parameters (d : Document) : List ParameterArgs :=
  (d.ofKeyword .arg none).filterMap (·.args.parameter?)

/-- Whether a document declares a build argument. -/
def declaresParameter (d : Document) (name : Text) : Bool :=
  (d.parameters.filterMap (·.name)).any (· == name)

/-- The names of the build arguments without a default. -/
def parametersWithoutDefault (d : Document) : List Text :=
  (d.parameters.filter (·.default.isNone)).filterMap (·.name)

/-- The syntax errors of all instructions, in order. -/
def syntaxErrors (d : Document) : List String := d.instructions.flatMap (·.syntaxErrors)

section Membership

variable {d : Document} {stage : Option Stage} {i : Instruction}

theorem mem_select_none : i ∈ d.select none ↔ i ∈ d.instructions := by
  simp [select, inStage]

theorem mem_instructions_of_mem_select (h : i ∈ d.select stage) : i ∈ d.instructions :=
  (List.mem_filter.1 h).1

theorem mem_ofKeyword_iff {k : Keyword} :
    i ∈ d.ofKeyword k stage ↔ i ∈ d.select stage ∧ i.keyword = k := by
  rw [ofKeyword, List.mem_filter, beq_iff_eq]

theorem mem_maintainerLabels_iff {mode : Assignments.KeyCase} :
    i ∈ d.maintainerLabels mode stage ↔
      i ∈ d.select stage ∧ i.keyword = .label ∧ i.containsKey maintainerKey mode := by
  rw [maintainerLabels, List.mem_filter, mem_ofKeyword_iff, and_assoc]

end Membership

end Dockerlint.Document
