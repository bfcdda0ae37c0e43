import Dockerlint.Lint.Rule

/-!
# Rules for the last stage

The rules that look at the stage that the final image is built from.

## Main definitions

* `LastStage.rules`: the rules
-/

namespace Dockerlint.LastStage

/-- A keyword occurs at most once in the stage. -/
def atMostOnce (keyword : Keyword) (c : Context) : List Finding :=
  Finding.oneIf (1 < (c.document.ofKeyword keyword c.stage).length)

/-- At most one label of the stage names a maintainer. -/
def oneMaintainerLabel (c : Context) : List Finding :=
  Finding.oneIf (1 < (c.document.maintainerLabels .ignored c.stage).length)

/-- The stage names a maintainer. -/
def maintainerIsDeclared (c : Context) : List Finding :=
  Finding.oneIf ((c.document.maintainerLabels .ignored c.stage).isEmpty
    && (c.document.ofKeyword .maintainer c.stage).isEmpty)

/-- The last `CMD` of the stage comes behind its last `ENTRYPOINT`. -/
def commandFollowsEntrypoint (c : Context) : List Finding :=
  match c.document.lastIndexOf .cmd c.stage, c.document.lastIndexOf .entrypoint c.stage with
  | some command, some entrypoint => Finding.oneIf (command < entrypoint)
  | _, _ => []

/-- The rules for the last stage. -/
def rules : List Rule :=
  [⟨"rule0_1_0", "LABEL maintainer must occur at most once in last stage", .error,
      oneMaintainerLabel⟩,
    ⟨"rule0_1_1", "MAINTAINER must occur at most once in last stage", .error,
      atMostOnce .maintainer⟩,
    ⟨"rule0_1_3", "Either LABEL maintainer or MAINTAINER is mandatory in last stage", .error,
      maintainerIsDeclared⟩,
    ⟨"rule0_2", "EXPOSE must occur at most once in last stage", .error, atMostOnce .expose⟩,
    ⟨"rule0_3", "ENTRYPOINT must occur at most once in last stage", .error,
      atMostOnce .entrypoint⟩,
    ⟨"rule0_4", "CMD must occur at most once in last stage", .error, atMostOnce .cmd⟩,
    ⟨"rule0_5", "VOLUME must occur at most once in last stage", .error, atMostOnce .volume⟩,
    ⟨"rule7", "CMD must be after ENTRYPOINT if both are specified in last stage", .error,
      commandFollowsEntrypoint⟩]

end Dockerlint.LastStage
