import Dockerlint.Yaml.Node

/-!
# YAML documents

The tokens of a page are read as one document: directives and a marker, which may be missing, and
a node. Anchors and aliases are matched by name on the way.

## Main definitions

* `Yaml.Reading`: the tokens that are left, and the anchors so far
* `Yaml.readNode`: a node
* `Yaml.Node.ofTokens?`: the node of the only document
-/

namespace Dockerlint.Yaml

section State

/-- How far the tokens of a document have been read. -/
structure Reading where
  tokens : List Token
  /-- The names of the anchors so far and their numbers. -/
  names : List (Text × Nat) := []
  /-- What the handles of tags stand for. -/
  handles : List (Text × Text)

/-- What a node can have in front. -/
structure Properties where
  anchor : Option Text := none
  /-- The tag in full. -/
  tag : Option Text := none

namespace Reading

/-- The state with other tokens left. -/
def goTo (tokens : List Token) (r : Reading) : Reading := { r with tokens }

/-- Whether one of the given tokens comes next. -/
def comes (ts : List Token) (r : Reading) : Bool := r.tokens.head?.any ts.contains

/-- A tag in full. -/
def fullTag (t : Tag) (r : Reading) : Option Text :=
  if t.handle = [] then some t.suffix else (r.handles.lookup t.handle).map (· ++ t.suffix)

/-- The anchor and the tag of a node, in either order. -/
def readProperties (r : Reading) : Option (Properties × Reading) :=
  match r.tokens with
  | .anchor name :: .tag t :: rest | .tag t :: .anchor name :: rest =>
    (r.fullTag t).map fun tag => ({ anchor := some name, tag := some tag }, r.goTo rest)
  | .anchor name :: rest => some ({ anchor := some name }, r.goTo rest)
  | .tag t :: rest => (r.fullTag t).map fun tag => ({ tag := some tag }, r.goTo rest)
  | _ => some ({}, r)

/-- The number of an anchor that is met here, which is the number of names met before. A name that
is met again stands for the later anchor. -/
def declare (anchor : Option Text) (r : Reading) : Option Nat × Reading :=
  match anchor with
  | none => (none, r)
  | some name =>
    let number := r.names.length
    (some number, { r with names := (name, number) :: r.names.filter (·.1 != name) })

end Reading

/-- A node with the number of its anchor, if it has one. -/
def Node.withAnchor (number : Option Nat) (node : Node) : Node :=
  match number with
  | some n => .anchored n node
  | none => node

end State

section Nodes

mutual

/-- A node. In a block it may be a block collection, and if `flat` also a block sequence whose
hyphens stand in the column of the mapping around it. -/
def readNode : (fuel : Nat) → (inBlock flat : Bool) → Reading → Option (Node × Reading)
  | 0, _, _, _ => none
  | fuel + 1, inBlock, flat, r =>
    match r.tokens with
    | .reference name :: rest =>
      (r.names.lookup name).map fun number => (.reference number, r.goTo rest)
    | _ =>
      match r.readProperties with
      | none => none
      | some (properties, r) =>
        let (number, r) := r.declare properties.anchor
        (readBare fuel inBlock flat properties r).map fun (node, r) => (node.withAnchor number, r)

/-- A node from behind its properties. Properties alone belong to an empty scalar. -/
def readBare : (fuel : Nat) → (inBlock flat : Bool) → Properties → Reading →
    Option (Node × Reading)
  | 0, _, _, _, _ => none
  | fuel + 1, inBlock, flat, properties, r =>
    match r.tokens with
    | .scalar style text :: rest => some (.scalar style properties.tag text, r.goTo rest)
    | .opening .sequence :: rest =>
      (readFlowItems fuel true (r.goTo rest)).map fun (items, r) => (.sequence items, r)
    | .opening .mapping :: rest =>
      (readFlowEntries fuel true (r.goTo rest)).map fun (entries, r) => (.mapping entries, r)
    | tokens =>
      if inBlock && tokens.head? == some (.block .sequence) then
        (readItems fuel (r.goTo tokens.tail)).map fun (items, r) => (.sequence items, r)
      else if inBlock && tokens.head? == some (.block .mapping) then
        (readEntries fuel (r.goTo tokens.tail)).map fun (entries, r) => (.mapping entries, r)
      else if flat && tokens.head? == some .item then
        (readFlatItems fuel r).map fun (items, r) => (.sequence items, r)
      else if properties.anchor.isSome || properties.tag.isSome then
        some (.scalar .plain properties.tag [], r)
      else none

/-- A node, or the empty node if one of the given tokens comes next. -/
def readNodeBefore : (fuel : Nat) → (inBlock flat : Bool) → (ends : List Token) → Reading →
    Option (Node × Reading)
  | 0, _, _, _, _ => none
  | fuel + 1, inBlock, flat, ends, r =>
    if r.comes ends then some (.empty, r) else readNode fuel inBlock flat r

/-- A value with its colon; the empty node if there is no colon. -/
def readValue : (fuel : Nat) → (inBlock : Bool) → (ends : List Token) → Reading →
    Option (Node × Reading)
  | 0, _, _, _ => none
  | fuel + 1, inBlock, ends, r =>
    match r.tokens with
    | .value :: rest => readNodeBefore fuel inBlock inBlock ends (r.goTo rest)
    | _ => some (.empty, r)

/-- The items of a block sequence up to its end. -/
def readItems : (fuel : Nat) → Reading → Option (List Node × Reading)
  | 0, _ => none
  | fuel + 1, r =>
    match r.tokens with
    | .blockEnd :: rest => some ([], r.goTo rest)
    | .item :: rest =>
      match readNodeBefore fuel true false [.item, .blockEnd] (r.goTo rest) with
      | none => none
      | some (item, r) => (readItems fuel r).map fun (items, r) => (item :: items, r)
    | _ => none

/-- The items of a block sequence whose hyphens stand in the column of the mapping around it. -/
def readFlatItems : (fuel : Nat) → Reading → Option (List Node × Reading)
  | 0, _ => none
  | fuel + 1, r =>
    match r.tokens with
    | .item :: rest =>
      match readNodeBefore fuel true false [.item, .key, .value, .blockEnd] (r.goTo rest) with
      | none => none
      | some (item, r) => (readFlatItems fuel r).map fun (items, r) => (item :: items, r)
    | _ => some ([], r)

/-- The entries of a block mapping up to its end. -/
def readEntries : (fuel : Nat) → Reading → Option (List (Node × Node) × Reading)
  | 0, _ => none
  | fuel + 1, r =>
    match r.tokens with
    | .blockEnd :: rest => some ([], r.goTo rest)
    | .key :: rest =>
      match readNodeBefore fuel true true [.key, .value, .blockEnd] (r.goTo rest) with
      | none => none
      | some (key, r) =>
        match readValue fuel true [.key, .value, .blockEnd] r with
        | none => none
        | some (value, r) =>
          (readEntries fuel r).map fun (entries, r) => ((key, value) :: entries, r)
    | _ => none

/-- The items of a flow sequence up to its closing bracket, with a comma before each but the
first. A key makes an item a mapping with one entry. -/
def readFlowItems : (fuel : Nat) → (first : Bool) → Reading → Option (List Node × Reading)
  | 0, _, _ => none
  | fuel + 1, first, r =>
    if r.comes [.closing .sequence] then some ([], r.goTo r.tokens.tail)
    else if !first && !r.comes [.comma] then none
    else
      let r := if first then r else r.goTo r.tokens.tail
      let item :=
        match r.tokens with
        | .closing .sequence :: rest => some (none, r.goTo rest)
        | .key :: rest =>
          (readPair fuel (r.goTo rest)).map fun (pair, r) => (some (.mapping [pair]), r)
        | _ => (readNode fuel false false r).map fun (node, r) => (some node, r)
      match item with
      | none => none
      | some (none, r) => some ([], r)
      | some (some node, r) =>
        (readFlowItems fuel false r).map fun (items, r) => (node :: items, r)

/-- The entry of a mapping that is an item of a flow sequence. A token that stands where the key
is missing is taken for the key. -/
def readPair : (fuel : Nat) → Reading → Option ((Node × Node) × Reading)
  | 0, _ => none
  | fuel + 1, r =>
    let key :=
      if r.comes [.value, .comma, .closing .sequence] then some (.empty, r.goTo r.tokens.tail)
      else readNode fuel false false r
    match key with
    | none => none
    | some (key, r) =>
      (readValue fuel false [.comma, .closing .sequence] r).map fun (value, r) => ((key, value), r)

/-- The entries of a flow mapping up to its closing brace, with a comma before each but the first.
A node without a key mark is a key without a value. -/
def readFlowEntries : (fuel : Nat) → (first : Bool) → Reading →
    Option (List (Node × Node) × Reading)
  | 0, _, _ => none
  | fuel + 1, first, r =>
    if r.comes [.closing .mapping] then some ([], r.goTo r.tokens.tail)
    else if !first && !r.comes [.comma] then none
    else
      let r := if first then r else r.goTo r.tokens.tail
      let entry :=
        match r.tokens with
        | .closing .mapping :: rest => some (none, r.goTo rest)
        | .key :: rest =>
          let ends := [.value, .comma, .closing .mapping]
          match readNodeBefore fuel false false ends (r.goTo rest) with
          | none => none
          | some (key, r) =>
            (readValue fuel false [.comma, .closing .mapping] r).map fun (value, r) =>
              (some (key, value), r)
        | _ => (readNode fuel false false r).map fun (key, r) => (some (key, .empty), r)
      match entry with
      | none => none
      | some (none, r) => some ([], r)
      | some (some entry, r) =>
        (readFlowEntries fuel false r).map fun (entries, r) => (entry :: entries, r)

end

end Nodes

section Documents

/-- What handles stand for without directives. -/
def standardHandles : List (Text × Text) :=
  [(['!'], ['!']), (['!', '!'], Text.ofString "tag:yaml.org,2002:")]

/-- What handles stand for in a document with the given directives, which may give a version and
the meaning of every handle once. -/
def handlesOf (ds : List Directive) : Option (List (Text × Text)) :=
  let versions := ds.filterMap fun
    | .version major minor => some (major, minor)
    | .handle .. => none
  let handles := ds.filterMap fun
    | .version .. => none
    | .handle name start => some (name, start)
  if 1 < versions.length ∨ versions.any fun v => v ≠ (1, 1) ∧ v ≠ (1, 2) then none
  else if (handles.map Prod.fst).Nodup then some (handles ++ standardHandles)
  else none

/-- The directives that some tokens begin with, and the tokens behind them. -/
def splitDirectives : List Token → List Directive × List Token
  | .directive d :: tokens =>
    let (ds, rest) := splitDirectives tokens
    (d :: ds, rest)
  | tokens => ([], tokens)

/-- The node of a document without its directives, and what is left. Behind a marker the node may
be missing. The nesting takes a few steps for each token, so a multiple of their number bounds its
depth. -/
def readContent (handles : List (Text × Text)) (tokens : List Token) : Option (Node × List Token) :=
  let fuel := 5 * (tokens.length + 1)
  let (marked, tokens) :=
    match tokens with
    | .documentStart :: rest => (true, rest)
    | _ => (false, tokens)
  let ends : Bool :=
    match tokens with
    | [] | .documentStart :: _ | .documentEnd :: _ | .directive _ :: _ => true
    | _ => false
  if marked && ends then some (.empty, tokens)
  else (readNode fuel true false { tokens, handles }).map fun (node, r) => (node, r.tokens)

/-- The node of the only document. Nothing at all is the empty document. -/
def Node.ofTokens? (tokens : List Token) : Option Node :=
  let (directives, body) := splitDirectives tokens
  if tokens = [] then some .empty
  else if directives ≠ [] ∧ body.head? ≠ some .documentStart then none
  else
    match (handlesOf directives).bind fun handles => readContent handles body with
    | some (node, rest) => if rest.all (· == .documentEnd) then some node else none
    | none => none

end Documents

end Dockerlint.Yaml
