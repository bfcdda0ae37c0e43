import Dockerlint.Operand.Flags

/-!
# Transfers

The argument of `ADD` and of `COPY`: optional flags for the owner and for the stage to copy from,
then sources and a destination, either as an array of strings in double quotes or as paths
separated by blanks. If neither form fits, the mismatch that got further is reported.

## Main definitions

* `Transfer`: flags, sources and destination
* `Transfer.read`: the transfer of an argument
-/

namespace Dockerlint

/-- Sources that are copied to a destination. -/
structure Transfer where
  /-- The owner of the copy, as `user:group`. -/
  owner : Option Text
  /-- The stage or image to copy from. -/
  origin : Option Text
  /-- What is copied, at least one. -/
  sources : List Text
  /-- Where it is copied to. -/
  destination : Text
deriving DecidableEq, Repr

namespace Transfer

/-- The flags of a transfer. -/
inductive FlagKind where
  | chown
  | origin
deriving DecidableEq, Repr

/-- A user and a group with a colon between them. -/
def readOwner (t : Text) : Option (Text × Text) :=
  match Word.read [':'] t with
  | none => none
  | some (user, rest) =>
    match (Text.after [':'] rest).bind (Word.read []) with
    | none => none
    | some (group, behind) => some (user.written ++ ':' :: group.written, behind)

/-- A word as written. -/
def readOrigin (t : Text) : Option (Text × Text) :=
  (Word.read [] t).map fun (w, behind) => (w.written, behind)

/-- The flags of a transfer and how their values are read. -/
def flags : List (Flag FlagKind) :=
  [⟨.chown, Text.ofString "--chown=", readOwner⟩, ⟨.origin, Text.ofString "--from=", readOrigin⟩]

/-- Sources and destination from two or more paths. -/
def divide (paths : List Text) : Option (List Text × Text) :=
  match paths.dropLast, paths.getLast? with
  | source :: sources, some destination => some (source :: sources, destination)
  | _, _ => none

/-- Sources and destination as an array of strings in double quotes. -/
def readArray (t : Text) : Except Mismatch (List Text × Text) :=
  match Reader.array .doubleOnly t with
  | .error m => .error m
  | .ok (es, rest) =>
    match divide (es.map (·.value)) with
    | none => .error (.expected .sourceAndDestination rest)
    | some parts => Reader.finish parts rest

/-- Paths separated by blanks up to the end, at least one. -/
def readPaths (t : Text) : Except Mismatch (List Text) :=
  match _h : Path.read t with
  | none => .error (.expected .path t)
  | some (path, rest) =>
    if Text.trimLeft rest = [] then .ok [path]
    else (readPaths (Text.trimLeft rest)).map (path :: ·)
termination_by t.length
decreasing_by
  have h₁ := Path.read_length_lt _h
  have h₂ := Text.trimLeft_length_le rest
  omega

/-- Sources and destination as paths. -/
def readShell (t : Text) : Except Mismatch (List Text × Text) :=
  match readPaths t with
  | .error m => .error m
  | .ok paths => Expectation.require .path [] (divide paths)

/-- Sources and destination in either form. -/
def readParts (t : Text) : Except Mismatch (List Text × Text) :=
  match readArray t with
  | .ok parts => .ok parts
  | .error m =>
    match readShell t with
    | .ok parts => .ok parts
    -- at the same place the array's mismatch counts
    | .error n => .error (m.furthest n)

/-- The transfer of an argument. -/
def read (t : Text) : Except Mismatch Transfer :=
  let found := Flag.readAll flags t
  (readParts (Text.trimLeft found.2)).map fun (sources, destination) =>
    { owner := found.1.lookup .chown
      origin := found.1.lookup .origin
      sources, destination }

end Transfer

end Dockerlint
