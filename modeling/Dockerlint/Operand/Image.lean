import Dockerlint.Reader

/-!
# Images

The argument of `FROM`: a reference to an image and an optional name for the stage. The reference
has segments that end in a slash, an image name and an optional tag behind a colon. The first
segment is the registry, and the others make up the username.

## Main definitions

* `Image`: the parts of a reference and the stage name
* `Image.read`: the image of an argument
* `Image.reference`: the reference that the parts make up
-/

namespace Dockerlint

/-- A reference to a base image, and the name of the stage that begins with it. -/
structure Image where
  registry : Option Text
  username : Option Text
  image : Text
  tag : Option Text
  /-- The reference as it stands in the argument. -/
  fullName : Text
  stageName : Option Text
deriving DecidableEq, Repr

namespace Image

/-- A word with a slash directly behind it. -/
def readSegment (t : Text) : Option (Text × Text) :=
  match Word.read ['/'] t with
  | none => none
  | some (w, rest) => (Text.after ['/'] rest).map fun behind => (w.written, behind)

theorem readSegment_eq_some {t segment behind : Text} (h : readSegment t = some (segment, behind)) :
    t = segment ++ '/' :: behind ∧ segment ≠ [] := by
  unfold readSegment at h
  split at h
  · simp at h
  · next w rest hw =>
    obtain ⟨b, hb, hs⟩ := Option.map_eq_some_iff.1 h
    obtain ⟨rfl, rfl⟩ := Prod.mk.inj hs
    obtain ⟨rfl, hne⟩ := Word.read_eq_some hw
    exact ⟨by rw [Text.after_eq_some_iff.1 hb]; rfl, hne⟩

/-- The segments that a text begins with, and the text behind the last. -/
def readSegments (t : Text) : List Text × Text :=
  match _h : readSegment t with
  | none => ([], t)
  | some (segment, behind) =>
    let more := readSegments behind
    (segment :: more.1, more.2)
termination_by t.length
decreasing_by
  rw [(readSegment_eq_some _h).1]
  simp only [List.length_append, List.length_cons]
  omega

/-- The tag that a text begins with, and the text behind it. -/
def readTag (t : Text) : Option Text × Text :=
  match (Text.after [':'] t).bind (Word.read []) with
  | some (w, behind) => (some w.written, behind)
  | none => (none, t)

/-- The stage name that a text begins with: the letters `as` and a word, with any blanks before
either of them. -/
def readStageName (t : Text) : Option Text × Text :=
  match (Text.afterCaseless ['a', 's'] (Text.trimLeft t)).bind
      fun rest => Word.read [] (Text.trimLeft rest) with
  | some (w, behind) => (some w.written, behind)
  | none => (none, t)

/-- The username that the segments behind the registry make up. -/
def usernameOf : List Text → Option Text
  | [] => none
  | part :: parts => some (Text.join ['/'] (part :: parts))

/-- The image of an argument. -/
def read (t : Text) : Except Mismatch Image :=
  let start := Text.trimLeft t
  let segments := readSegments start
  match Reader.word ['/', ':'] segments.2 with
  | .error m => .error m
  | .ok (image, rest) =>
    -- a colon without a tag behind it is left for the end of the argument
    let tag := readTag rest
    let stageName := readStageName tag.2
    Reader.finish
      { registry := segments.1.head?
        username := usernameOf segments.1.tail
        image := image.written
        tag := tag.1
        fullName := Text.upTo start tag.2
        stageName := stageName.1 }
      stageName.2

/-- The reference that the parts of an image make up. -/
def reference (i : Image) : Text :=
  i.registry.elim [] (· ++ ['/']) ++ i.username.elim [] (· ++ ['/']) ++ i.image
    ++ i.tag.elim [] (':' :: ·)

end Image

end Dockerlint
