import Dockerlint.Reader

/-!
# Reading sessions

A session reads parts of one argument in any order and can go back to any place, which is what a
grammar with alternatives does. A plain session reads every part afresh. A remembering session
keeps what it read, by place and part, in a table of texts and a table of lists; parts that contain
other parts share what was kept: a word its quoted string, a path its words, an array its quoted
strings.

## Main definitions

* `Part`: the parts whose reading can be remembered
* `Part.read`: a part, read afresh
* `Operation`, `Answer`: what a session is asked, and what it answers
* `Place.step`, `Place.run`: a plain session
* `Session.remember`: a reading that is looked up, or carried out and kept
* `Session.step`, `Session.run`: a remembering session
-/

namespace Dockerlint

/-- How the text of a word or of a quoted string is taken. -/
inductive Taking where
  /-- As it stands, quotes and escapes kept. -/
  | written
  /-- Without quotes and escapes. -/
  | value
deriving DecidableEq, Repr

/-- The text of a word. -/
def Word.take (w : Word) : Taking → Text
  | .written => w.written
  | .value => w.value

/-- The text of a string between two characters `q` with a given body. -/
def Quoted.take (q : Char) (inner : Text) : Taking → Text
  | .written => q :: (inner ++ [q])
  | .value => Quoted.unescape inner

/-- What a part consists of. -/
inductive Kind where
  /-- A text. -/
  | text
  /-- A list of elements. -/
  | list
deriving DecidableEq, Repr

/-- The contents of a kind. -/
abbrev Kind.Content : Kind → Type
  | .text => Text
  | .list => List Element

/-- A part of an argument whose reading can be remembered. -/
inductive Part : Kind → Type where
  | word (stops : List Char) (taking : Taking) : Part .text
  | quoted (quote : Char) (taking : Taking) : Part .text
  | path : Part .text
  | array (quotes : ElementQuotes) : Part .list
deriving DecidableEq, Repr

/-- A part, read afresh at the beginning of a text. -/
def Part.read : {k : Kind} → Part k → Text → Outcome k.Content
  | _, .word stops taking, t =>
    (Reader.word stops t).map fun (w, behind) => (w.take taking, behind)
  | _, .quoted q taking, t =>
    (Reader.quoted q t).map fun (inner, behind) => (Quoted.take q inner taking, behind)
  | _, .path, t => Reader.path t
  | _, .array quotes, t => Reader.array quotes t

/-- What a session is asked to do besides reading. -/
inductive Move where
  /-- Skips blanks. -/
  | skip
  /-- Takes a text, if it comes next. -/
  | eat (word : Text)
  /-- Takes a text, if it comes next, up to the case of ASCII letters. -/
  | eatCaseless (word : Text)
  /-- Skips blanks and checks that nothing follows. -/
  | finish
  /-- Goes to a place. -/
  | reset (position : Nat)
deriving DecidableEq, Repr

/-- What a session is asked to do. -/
inductive Operation where
  /-- Reads a part. -/
  | read {k : Kind} (part : Part k)
  /-- Does something else. -/
  | move (m : Move)

/-- What a session answers. -/
inductive Answer where
  | content {k : Kind} (result : Except Mismatch k.Content)
  | eaten (found : Bool)
  | finished (result : Except Mismatch Unit)
  | moved

section Plain

/-- A place in a text. -/
structure Place where
  text : Text
  /-- The number of characters before the place. -/
  position : Nat
deriving DecidableEq, Repr

namespace Place

/-- The text behind a place. -/
def rest (p : Place) : Text := p.text.drop p.position

/-- The place where `behind` begins, which is a tail of the text. -/
def moveTo (p : Place) (behind : Text) : Place :=
  { p with position := p.text.length - behind.length }

/-- Takes what an attempt took, if it succeeded. -/
def attempt (p : Place) : Option Text → Answer × Place
  | some behind => (.eaten true, p.moveTo behind)
  | none => (.eaten false, p)

/-- The answer of a session to an operation that reads no part. -/
def move (p : Place) : Move → Answer × Place
  | .skip => (.moved, p.moveTo (Text.trimLeft p.rest))
  | .eat word => p.attempt (Text.after word p.rest)
  | .eatCaseless word => p.attempt (Text.afterCaseless word p.rest)
  | .finish =>
    let p := p.moveTo (Text.trimLeft p.rest)
    (.finished (Reader.finish () p.rest), p)
  | .reset position => (.moved, { p with position := min position p.text.length })

/-- A part, read afresh at a place; a reading that fails leaves the place. -/
def read {k : Kind} (p : Place) (part : Part k) : Except Mismatch k.Content × Place :=
  match part.read p.rest with
  | .ok (content, behind) => (.ok content, p.moveTo behind)
  | .error m => (.error m, p)

/-- The answer of a plain session to an operation. -/
def step (p : Place) : Operation → Answer × Place
  | .read part => (.content (p.read part).1, (p.read part).2)
  | .move m => p.move m

/-- The answers of a plain session to operations, each with the position behind it. -/
def run (p : Place) : List Operation → List (Answer × Nat)
  | [] => []
  | op :: ops => ((p.step op).1, (p.step op).2.position) :: run (p.step op).2 ops

end Place

end Plain

section Remembering

/-- What is kept of a reading. -/
structure Memory (k : Kind) where
  /-- The position behind the part, or the one where it failed to begin. -/
  ending : Nat
  result : Except Mismatch k.Content

/-- What was read, by position and part, the latest first. -/
abbrev Memories (k : Kind) := List ((Nat × Part k) × Memory k)

/-- A place in a text, with what was read of it. -/
structure Session extends Place where
  texts : Memories .text
  lists : Memories .list

namespace Session

/-- A session at the beginning of a text, with nothing read. -/
def start (text : Text) : Session := { text, position := 0, texts := [], lists := [] }

/-- The session at the place where `behind` begins. -/
def moveTo (s : Session) (behind : Text) : Session :=
  { s with toPlace := s.toPlace.moveTo behind }

/-- What was read of a kind. -/
def memories (s : Session) : (k : Kind) → Memories k
  | .text => s.texts
  | .list => s.lists

/-- The session that also keeps `memory`. -/
def keep (s : Session) : {k : Kind} → (key : Nat × Part k) → (memory : Memory k) → Session
  | .text, key, memory => { s with texts := (key, memory) :: s.texts }
  | .list, key, memory => { s with lists := (key, memory) :: s.lists }

/-- A reading that is looked up, or carried out and kept. -/
def remember {k : Kind} (part : Part k) (s : Session)
    (compute : Session → Except Mismatch k.Content × Session) :
    Except Mismatch k.Content × Session :=
  match (s.memories k).lookup (s.position, part) with
  | some memory => (memory.result, { s with position := memory.ending })
  | none =>
    match compute s with
    | (.ok content, t) => (.ok content, t.keep (s.position, part) ⟨t.position, .ok content⟩)
    | (.error m, t) =>
      -- a reading that fails leaves the place
      (.error m, { t with position := s.position }.keep (s.position, part) ⟨s.position, .error m⟩)

/-- Reads a string between two characters `q`. -/
def quoted (q : Char) (taking : Taking) (s : Session) : Except Mismatch Text × Session :=
  remember (.quoted q taking) s fun s =>
    match Quoted.between q s.rest with
    | some (inner, behind) => (.ok (Quoted.take q inner taking), s.moveTo behind)
    | none => (.error (.expected (.enclosed q) s.rest), s)

/-- Reads a word; a quoted word is a quoted string that was read. -/
def word (stops : List Char) (taking : Taking) (s : Session) : Except Mismatch Text × Session :=
  remember (.word stops taking) s fun s =>
    if s.rest.head? = some '"' then
      match s.quoted '"' taking with
      | (.ok text, t) => (.ok text, t)
      | (.error _, t) => (.error (.expected (.word stops) s.rest), t)
    else
      match Word.readBare stops s.rest with
      | some (w, behind) => (.ok (w.take taking), s.moveTo behind)
      | none => (.error (.expected (.word stops) s.rest), s)

/-- Reads the part of a relative path behind one of its words. -/
def pathTail : (fuel : Nat) → Session → Session
  | 0, s => s
  | fuel + 1, s =>
    match Text.after ['/'] s.rest with
    | none => s
    | some behind =>
      match (s.moveTo behind).word ['/'] .written with
      | (.ok _, t) => pathTail fuel t
      -- the slashes at the end of a path belong to it
      | (.error _, t) => t.moveTo (s.rest.dropWhile (· == '/'))

/-- Reads a relative path, if there is one. -/
def relative (s : Session) : Bool × Session :=
  match s.word ['/'] .written with
  | (.ok _, t) => (true, pathTail t.rest.length t)
  | (.error _, t) => (false, t)

/-- Reads a path. -/
def path (s : Session) : Except Mismatch Text × Session :=
  remember .path s fun s =>
    match Text.after ['/'] s.rest with
    | some behind =>
      let t := (s.moveTo behind).relative.2
      (.ok (Text.upTo s.rest t.rest), t)
    | none =>
      match s.relative with
      | (true, t) => (.ok (Text.upTo s.rest t.rest), t)
      | (false, t) => (.error (.expected .path s.rest), t)

/-- Reads the elements of an array up to the closing bracket. -/
def elements (quotes : ElementQuotes) :
    (fuel : Nat) → Session → Except Mismatch (List Element) × Session
  | 0, s => (.error (.expected .delimiter s.rest), s)
  | fuel + 1, s =>
    let s := s.moveTo (Text.trimLeft s.rest)
    match Reader.elementQuote quotes s.rest with
    | none => (.error (.expected (Reader.elementExpectation quotes) s.rest), s)
    | some q =>
      match s.quoted q.char .value with
      | (.error m, t) => (.error m, t)
      | (.ok value, t) =>
        match Text.trimLeft t.rest with
        | ',' :: behind =>
          match elements quotes fuel (t.moveTo behind) with
          | (.ok more, last) => (.ok (⟨q, value⟩ :: more), last)
          | (.error m, last) => (.error m, last)
        | ']' :: behind => (.ok [⟨q, value⟩], t.moveTo behind)
        | behind => (.error (.expected .delimiter behind), t)

/-- Reads an array. -/
def array (quotes : ElementQuotes) (s : Session) : Except Mismatch (List Element) × Session :=
  remember (.array quotes) s fun s =>
    match Text.after ['['] s.rest with
    | none => (.error (.expected .openingBracket s.rest), s)
    | some behind => elements quotes s.rest.length (s.moveTo behind)

/-- Reads a part. -/
def read (s : Session) : {k : Kind} → Part k → Except Mismatch k.Content × Session
  | _, .word stops taking => s.word stops taking
  | _, .quoted q taking => s.quoted q taking
  | _, .path => s.path
  | _, .array quotes => s.array quotes

/-- The answer of a remembering session to an operation. -/
def step (s : Session) : Operation → Answer × Session
  | .read part => (.content (s.read part).1, (s.read part).2)
  | .move m => ((s.toPlace.move m).1, { s with toPlace := (s.toPlace.move m).2 })

/-- The answers of a remembering session to operations, each with the position behind it. -/
def run (s : Session) : List Operation → List (Answer × Nat)
  | [] => []
  | op :: ops => ((s.step op).1, (s.step op).2.position) :: run (s.step op).2 ops

/-- The session behind operations. -/
def after (s : Session) : List Operation → Session
  | [] => s
  | op :: ops => after (s.step op).2 ops

end Session

end Remembering

end Dockerlint
