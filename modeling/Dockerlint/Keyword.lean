import Dockerlint.Text.Basic

/-!
# Keywords

The words that an instruction can begin with, matched exactly.

## Main definitions

* `Keyword`: the eighteen keywords, in the order of their names
* `Keyword.ofText?`: the keyword with a given text

## Main results

* `Keyword.mem_all`: `Keyword.all` lists every keyword
* `Keyword.ofText?_text`: every keyword is found by its text
-/

namespace Dockerlint

/-- The word that an instruction begins with. -/
inductive Keyword where
  | add
  | arg
  | cmd
  | copy
  | entrypoint
  | env
  | expose
  | fromImage
  | healthcheck
  | label
  | maintainer
  | onbuild
  | run
  | shell
  | stopsignal
  | user
  | volume
  | workdir
deriving DecidableEq, Repr

namespace Keyword

/-- Every keyword, in the order of their names. -/
def all : List Keyword :=
  [.add, .arg, .cmd, .copy, .entrypoint, .env, .expose, .fromImage, .healthcheck, .label,
    .maintainer, .onbuild, .run, .shell, .stopsignal, .user, .volume, .workdir]

/-- How a keyword is written. -/
def name : Keyword → String
  | .add => "ADD"
  | .arg => "ARG"
  | .cmd => "CMD"
  | .copy => "COPY"
  | .entrypoint => "ENTRYPOINT"
  | .env => "ENV"
  | .expose => "EXPOSE"
  | .fromImage => "FROM"
  | .healthcheck => "HEALTHCHECK"
  | .label => "LABEL"
  | .maintainer => "MAINTAINER"
  | .onbuild => "ONBUILD"
  | .run => "RUN"
  | .shell => "SHELL"
  | .stopsignal => "STOPSIGNAL"
  | .user => "USER"
  | .volume => "VOLUME"
  | .workdir => "WORKDIR"

/-- The text of a keyword. -/
def text (k : Keyword) : Text := Text.ofString k.name

/-- The keyword with a given text. -/
def ofText? (word : Text) : Option Keyword := all.find? fun k => k.text == word

/-- The wording for a word that is no keyword. -/
def unknownMessage (word : Text) : String :=
  String.join ["Instruction of type ", String.ofList word, " does not exist."]

theorem mem_all (k : Keyword) : k ∈ all := by cases k <;> decide

theorem ofText?_text (k : Keyword) : ofText? k.text = some k := by cases k <;> decide

theorem text_of_ofText? {word : Text} {k : Keyword} (h : ofText? word = some k) :
    k.text = word := by
  simpa using List.find?_some h

end Keyword

end Dockerlint
