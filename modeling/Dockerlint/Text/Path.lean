import Dockerlint.Text.Word

/-!
# Paths

A relative path is a sequence of words without slashes, separated by single slashes, with any
number of slashes at its end. A path is a relative path, a slash, or a slash followed by a
relative path. Paths keep their quotes: a path is the text that it was read from.

## Main definitions

* `Path.read`: the path that a text begins with

## Main results

* `Path.read_eq_some`: a path and what follows it make up the text
* `Path.read_length_lt`: a path is not empty
-/

namespace Dockerlint.Path

/-- The slashes that a text begins with. -/
def slashes (t : Text) : Text × Text := (t.takeWhile (· == '/'), t.dropWhile (· == '/'))

/-- The part of a relative path behind one of its words. -/
def readTail (t : Text) : Text × Text :=
  match t with
  | [] => ([], [])
  | c :: rest =>
    if c = '/' then
      match _h : Word.read ['/'] rest with
      | none => slashes (c :: rest)
      | some (w, after) =>
        let (tail, behind) := readTail after
        (c :: (w.written ++ tail), behind)
    else ([], c :: rest)
termination_by t.length
decreasing_by
  have := Word.read_length_lt _h
  simp only [List.length_cons]
  omega

/-- The relative path that a text begins with. -/
def readRelative (t : Text) : Option (Text × Text) :=
  (Word.read ['/'] t).map fun (w, rest) =>
    let (tail, behind) := readTail rest
    (w.written ++ tail, behind)

/-- The path that a text begins with, and the text behind it. -/
def read : Text → Option (Text × Text)
  | [] => none
  | c :: rest =>
    if c = '/' then
      match readRelative rest with
      | none => some ([c], rest)
      | some (path, behind) => some (c :: path, behind)
    else readRelative (c :: rest)

theorem readTail_eq (t : Text) : t = (readTail t).1 ++ (readTail t).2 := by
  fun_induction readTail t with
  | case1 => rfl
  | case2 rest h => simp [slashes]
  | case3 rest w after h tail behind heq ih =>
    obtain ⟨rfl, -⟩ := Word.read_eq_some h
    rw [heq] at ih
    simp [ih]
  | case4 => rfl

theorem readRelative_eq_some {t path behind : Text} (h : readRelative t = some (path, behind)) :
    t = path ++ behind ∧ path ≠ [] := by
  obtain ⟨⟨w, rest⟩, hw, hp⟩ := Option.map_eq_some_iff.1 h
  obtain ⟨rfl, rfl⟩ := Prod.mk.inj hp
  obtain ⟨rfl, hne⟩ := Word.read_eq_some hw
  refine ⟨?_, by simp [hne]⟩
  rw [List.append_assoc, ← readTail_eq]

theorem read_eq_some {t path behind : Text} (h : read t = some (path, behind)) :
    t = path ++ behind ∧ path ≠ [] := by
  cases t with
  | nil => simp [read] at h
  | cons c rest =>
    rw [read] at h
    split at h
    · split at h
      · obtain ⟨rfl, rfl⟩ := Prod.mk.inj (Option.some.inj h)
        simp
      · next p b hp =>
        obtain ⟨rfl, rfl⟩ := Prod.mk.inj (Option.some.inj h)
        obtain ⟨rfl, -⟩ := readRelative_eq_some hp
        simp
    · exact readRelative_eq_some h

theorem read_length_lt {t path behind : Text} (h : read t = some (path, behind)) :
    behind.length < t.length := by
  obtain ⟨rfl, hne⟩ := read_eq_some h
  have := List.length_pos_iff.2 hne
  simp only [List.length_append]
  omega

theorem readTail_of_after_eq_none {t : Text} (h : Text.after ['/'] t = none) :
    readTail t = ([], t) := by
  cases t with
  | nil => rw [readTail]
  | cons c rest =>
    have hc : c ≠ '/' := by
      rintro rfl
      simp [Text.after] at h
    rw [readTail, if_neg hc]

theorem readTail_slash (rest : Text) : readTail ('/' :: rest) =
    match Word.read ['/'] rest with
    | none => slashes ('/' :: rest)
    | some (w, left) => ('/' :: (w.written ++ (readTail left).1), (readTail left).2) := by
  rw [readTail, if_pos rfl]
  split
  · next h => simp only [h]
  · next w left h => simp only [h]

theorem read_of_after_eq_none {t : Text} (h : Text.after ['/'] t = none) :
    read t = readRelative t := by
  cases t with
  | nil => rfl
  | cons c rest =>
    have hc : c ≠ '/' := by
      rintro rfl
      simp [Text.after] at h
    rw [read, if_neg hc]

end Dockerlint.Path
