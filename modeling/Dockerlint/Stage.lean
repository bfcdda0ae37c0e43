import Dockerlint.Text.Basic

/-!
# Stages

A document is built in stages, and each begins with a `FROM`. A stage is known by the name that its
`FROM` gives it, and otherwise by the number of stages before it. Names and numbers never meet: a
stage with the name `1` is not the second stage.

## Main definitions

* `Stage`: a stage by name or by number
* `Stage.beforeFirst`: what comes before the first stage
-/

namespace Dockerlint

/-- A build stage: the name that its `FROM` gives it, or else the ordinal of that `FROM`. -/
inductive Stage where
  | numbered (ordinal : Int)
  | named (name : Text)
deriving DecidableEq, Repr

namespace Stage

/-- The stage of the instructions before the first `FROM`. -/
def beforeFirst : Stage := .numbered (-1)

/-- How a stage is displayed. -/
def display : Stage → Text
  | .numbered ordinal => (toString ordinal).toList
  | .named name => name

end Stage

end Dockerlint
