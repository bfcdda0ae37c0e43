import Dockerlint.Yaml.Document
import Dockerlint.Yaml.Scan

/-!
# YAML values

A configuration is taken from a node of a document by its kind. Only a plain scalar can stand for
a truth value or for nothing; an empty plain scalar also stands for an empty sequence or an empty
mapping. Where text is wanted, every scalar is its own text.

Aliases make a short document stand for a long configuration, so only a number of them is followed
that is in proportion to the size of the document.

## Main definitions

* `Yaml.Value`: a node of a document
* `Yaml.Decode`: what takes a configuration from a value
* `Yaml.Value.bool`, `text`, `texts`, `entries`, `optional`: a value as one of some kind
* `Yaml.decode?`: the configuration in a text
-/

namespace Dockerlint.Yaml

/-- A node of a document with the nodes that aliases stand for. -/
structure Value where
  node : Node
  /-- The nodes with anchors by their numbers, the last one of the document first. -/
  anchors : List (Nat × Node)

/-- What fails or gives a configuration, and follows no more aliases than a given number. -/
abbrev Decode := StateT Nat Option

namespace Value

/-- Another node of the same document. -/
def beside (node : Node) (v : Value) : Value := { v with node }

/-- The node that an alias stands for, and every other node itself. -/
def content (v : Value) : Decode Node := do
  match v.node with
  | .reference number =>
    let left ← get
    guard (left ≠ 0)
    set (left - 1)
    v.anchors.lookup number
  | .anchored _ node => return node
  | node => return node

/-- The truth value of a word. -/
def truth? (text : Text) : Option Bool :=
  if ["true", "True", "TRUE"].contains (String.ofList text) then some true
  else if ["false", "False", "FALSE"].contains (String.ofList text) then some false
  else none

/-- Whether a word stands for nothing. -/
def isNull (text : Text) : Bool := ["~", "null", "Null", "NULL"].contains (String.ofList text)

/-- The tag of truth values. -/
def boolTag : Text := Text.ofString "tag:yaml.org,2002:bool"

/-- The tag of nothing. -/
def nullTag : Text := Text.ofString "tag:yaml.org,2002:null"

/-- The truth value of a plain scalar, or of a literal scalar with the tag of truth values. -/
def bool (v : Value) : Decode Bool := do
  match ← v.content with
  | .scalar .plain _ text => truth? text
  | .scalar .literal tag text => if tag = some boolTag then truth? text else failure
  | _ => failure

/-- The value, unless it stands for nothing. Only a plain scalar without a tag or with the tag of
nothing can; with that tag it must. -/
def optional (v : Value) : Decode (Option Value) := do
  let node ← v.content
  match node with
  | .scalar .plain none text =>
    return if text = [] ∨ isNull text then none else some (v.beside node)
  | .scalar .plain (some tag) text =>
    if tag ≠ nullTag then return some (v.beside node)
    else if isNull text then return none
    else failure
  | _ => return some (v.beside node)

/-- The text of a scalar. -/
def text (v : Value) : Decode Text := do
  match ← v.content with
  | .scalar _ _ text => return text
  | _ => failure

/-- The texts of a sequence of scalars. -/
def texts (v : Value) : Decode (List Text) := do
  match ← v.content with
  | .sequence items => items.mapM fun item => (v.beside item).text
  | .scalar .plain _ [] => return []
  | _ => failure

/-- The entries of a mapping, by the texts of their keys. -/
def entries (v : Value) : Decode (List (Text × Value)) := do
  match ← v.content with
  | .mapping entries =>
    entries.mapM fun (key, value) => return (← (v.beside key).text, v.beside value)
  | .scalar .plain _ [] => return []
  | _ => failure

end Value

/-- The number of aliases that may be followed for each part of a document. -/
def aliasRatio : Nat := 100

/-- The configuration in a text. -/
def decode? {α : Type} (decode : Value → Decode α) (t : Text) : Option α :=
  match ((Page.ofText? t).bind Token.ofPage?).bind Node.ofTokens? with
  | some node =>
    (decode { node, anchors := node.anchors.reverse }).run' (aliasRatio * node.size)
  | none => none

end Dockerlint.Yaml
