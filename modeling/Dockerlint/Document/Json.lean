import Dockerlint.Document.Basic
import Dockerlint.Json.Basic

/-!
# Documents as JSON

The fields of an object stand in a fixed order. The arguments of an instruction have all attributes
of its keyword; those without a value are null, and all are if the argument does not fit.

## Main definitions

* `Instruction.toJson`, `Document.toJson`: an instruction and a document as a JSON value
-/

namespace Dockerlint

/-- A stage as a number or a name. -/
def Stage.toJson : Stage → Json
  | .numbered ordinal => .ofInt ordinal
  | .named name => .string name

/-- A logical line as an object. -/
def LogicalLine.toJson (l : LogicalLine) : Json :=
  .object [("text", .string l.text), ("line", .ofInt l.line)]

/-- The value of an attribute. -/
def Field.toJson : Field → Json
  | .text value => .string value
  | .list values => .ofTexts values
  | .map values => .object (values.entries.map fun (key, value) =>
      (String.ofList key, .string value))

/-- Attributes by name as the fields of an object. -/
def Field.toJsonFields (fields : List (String × Option Field)) : List (String × Json) :=
  fields.map fun (name, value) => (name, .ofOption Field.toJson value)

/-- Arguments as an object, with their tag first. A wrapped instruction is an object too. -/
def Args.toObject : Args → Json
  | .onbuild word instruction =>
    let wrapped :=
      match instruction with
      | some args => args.toObject
      | none => .null
    .object [("keyword", .string Keyword.onbuild.text), ("onbuild", .ofOption .string word),
      ("instruction", wrapped)]
  | args => .object (("keyword", .string args.keyword.text) :: Field.toJsonFields args.fields)

/-- Arguments as an object, or those of a keyword without any attribute: then every attribute is
null. -/
def Args.toJson (k : Keyword) (args : Option Args) : Json := (args.getD (.empty k)).toObject

/-- An instruction as an object. -/
def Instruction.toJson (i : Instruction) : Json :=
  .object
    [("keyword", .string i.keyword.text), ("argument", .string i.argument),
      ("line", .ofInt i.line), ("stage", i.stage.toJson),
      ("args", i.args.toObject),
      ("syntax_errors", .ofStrings i.syntaxErrors)]

/-- A document as an object. -/
def Document.toJson (d : Document) : Json :=
  .object
    [("path", .ofOption .string d.path), ("physical_lines", .ofTexts d.physicalLines),
      ("logical_lines", .array (d.logicalLines.map (·.toJson))),
      ("instructions", .array (d.instructions.map (·.toJson))),
      ("stages", .array (d.stages.map (·.toJson)))]

end Dockerlint
