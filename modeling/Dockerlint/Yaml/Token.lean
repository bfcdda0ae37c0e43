import Dockerlint.Yaml.Tag

/-!
# YAML tokens

Besides the marks and the scalars there are tokens for what is only told by indentation and by
colons: where a block collection begins and ends, and where a key begins.

## Main definitions

* `Yaml.Style`, `Yaml.Collection`: how a scalar is written, the kinds of collections
* `Yaml.Token`: a token
-/

namespace Dockerlint.Yaml

/-- How a scalar is written. -/
inductive Style where
  | plain
  | quoted
  | literal
  | folded
deriving DecidableEq, Repr

/-- The kinds of collections. -/
inductive Collection where
  | sequence
  | mapping
deriving DecidableEq, Repr

/-- A token. -/
inductive Token where
  | directive (d : Directive)
  | documentStart
  | documentEnd
  /-- The beginning of a block collection. -/
  | block (kind : Collection)
  | blockEnd
  /-- The opening bracket of a flow collection. -/
  | opening (kind : Collection)
  | closing (kind : Collection)
  /-- The hyphen of a block sequence. -/
  | item
  /-- The comma of a flow collection. -/
  | comma
  | key
  | value
  | anchor (name : Text)
  | reference (name : Text)
  | tag (t : Tag)
  | scalar (style : Style) (text : Text)
deriving DecidableEq, Repr

end Dockerlint.Yaml
