import Dockerlint.Args
import Dockerlint.Proofs.Operand.Blanks
import Dockerlint.Proofs.Path

/-!
# The directory of an argument

The argument of `WORKDIR` is one path. Behind a word of a path the reader tries a slash and another
word; where no word follows, the slash and all slashes behind it end the path. Here the paths are
described by their parts, quoted words included, and the reader is shown to find them: a word ends
at the next slash, so that no other way to cut the text has to be tried.

## Main definitions

* `Path.Relative`: the parts of a relative path
* `Path.IsPath`: the texts that are paths

## Main results

* `Path.isPath_of_read`, `Path.IsPath.read`: what is read is a path, and a path is read to its end
* `Args.read_workdir`: the arguments of `WORKDIR`
-/

namespace Dockerlint

namespace Path

/-! ## The parts of a path -/

/-- A slash and a word again and again, and slashes at the end. -/
def tailText (others : List Word) (slashes : Nat) : Text :=
  others.flatMap ('/' :: ·.written) ++ List.replicate slashes '/'

/-- A relative path: words with single slashes between them, and any number of slashes at the end. -/
structure Relative where
  first : Word
  others : List Word
  slashes : Nat
  fits_first : first.Fits ['/']
  fits_others : ∀ w ∈ others, w.Fits ['/']

/-- A relative path as it is written. -/
def Relative.text (r : Relative) : Text := r.first.written ++ tailText r.others r.slashes

/-- The texts that are paths. -/
inductive IsPath : Text → Prop where
  | root : IsPath ['/']
  | absolute (r : Relative) : IsPath ('/' :: r.text)
  | relative (r : Relative) : IsPath r.text

theorem tailText_cons (w : Word) (others : List Word) (slashes : Nat) :
    tailText (w :: others) slashes = '/' :: (w.written ++ tailText others slashes) := by
  rw [tailText, List.flatMap_cons, List.append_assoc]
  rfl

/-- A word ends where a path goes on behind it. -/
theorem ends_tailText (w : Word) (others : List Word) (slashes : Nat) :
    w.Ends ['/'] (tailText others slashes) := by
  have hhead : ∀ c, (tailText others slashes).head? = some c → c = '/' := by
    intro c hc
    cases others with
    | nil =>
      cases slashes with
      | zero => cases hc
      | succ n => exact (Option.some.inj hc).symm
    | cons v others =>
      rw [tailText_cons] at hc
      exact (Option.some.inj hc).symm
  cases w with
  | quoted inner => trivial
  | bare run =>
    intro c hc
    rw [hhead c hc]
    rfl

/-! ## Reading the parts -/

/-- What is read behind a word is made of slashes and words. -/
theorem exists_tailText (t : Text) : ∃ others slashes, (∀ w ∈ others, w.Fits ['/']) ∧
    (readTail t).1 = tailText others slashes := by
  fun_induction readTail t with
  | case1 => exact ⟨[], 0, List.forall_mem_nil _, rfl⟩
  | case2 rest h =>
    have hall : ∀ c ∈ (Path.slashes ('/' :: rest)).1, c = '/' :=
      fun c hc => beq_iff_eq.1 (List.all_eq_true.1 List.all_takeWhile c hc)
    exact ⟨[], (Path.slashes ('/' :: rest)).1.length, List.forall_mem_nil _, List.eq_replicate_of_mem hall⟩
  | case3 rest w left h tail behind htail ih =>
    obtain ⟨others, slashes, hothers, htext⟩ := ih
    obtain ⟨-, hw, -⟩ := Word.read_eq_some_iff.1 h
    rw [htail] at htext
    obtain rfl : tail = tailText others slashes := htext
    exact ⟨w :: others, slashes, List.forall_mem_cons.2 ⟨hw, hothers⟩, (tailText_cons ..).symm⟩
  | case4 => exact ⟨[], 0, List.forall_mem_nil _, rfl⟩

/-- **Behind a word**, slashes and words are read to their end. -/
theorem readTail_tailText {others : List Word} (h : ∀ w ∈ others, w.Fits ['/']) (slashes : Nat) :
    readTail (tailText others slashes) = (tailText others slashes, []) := by
  induction others with
  | nil =>
    cases slashes with
    | zero => exact readTail_of_after_eq_none rfl
    | succ n =>
      -- no word stands between the slashes at the end
      have hslashes : ∀ c ∈ List.replicate n '/', c = '/' := fun c hc => List.eq_of_mem_replicate hc
      have hnext : ∀ c, (List.replicate n '/' ++ []).head? = some c → c = '/' := by
        rw [List.append_nil]
        exact fun c hc => hslashes c (List.mem_of_head? hc)
      have hend : ∀ c, ([] : Text).head? = some c → c ≠ '/' := nofun
      have hread : readTail ('/' :: (List.replicate n '/' ++ []) ++ []) =
          ('/' :: List.replicate n '/', [] ++ []) := readTail_slashes hslashes hend hnext nofun
      rwa [List.append_nil, List.append_nil] at hread
  | cons w others ih =>
    obtain ⟨hw, hothers⟩ := List.forall_mem_cons.1 h
    have hword : Word.read ['/'] (w.written ++ tailText others slashes) =
        some (w, tailText others slashes) :=
      Word.read_eq_some_iff.2 ⟨rfl, hw, ends_tailText w others slashes⟩
    rw [tailText_cons, readTail_slash, hword]
    simp only [ih hothers]

theorem exists_relative_of_read {t path behind : Text}
    (h : readRelative t = some (path, behind)) : ∃ r : Relative, r.text = path := by
  obtain ⟨⟨w, rest⟩, hw, hpair⟩ := Option.map_eq_some_iff.1 h
  obtain ⟨rfl, -⟩ := Prod.mk.inj hpair
  obtain ⟨-, hfits, -⟩ := Word.read_eq_some_iff.1 hw
  obtain ⟨others, slashes, hothers, htail⟩ := exists_tailText rest
  refine ⟨⟨w, others, slashes, hfits, hothers⟩, ?_⟩
  show w.written ++ tailText others slashes = w.written ++ (readTail rest).1
  rw [htail]

theorem Relative.read_text (r : Relative) : readRelative r.text = some (r.text, []) := by
  have hword : Word.read ['/'] r.text = some (r.first, tailText r.others r.slashes) :=
    Word.read_eq_some_iff.2 ⟨rfl, r.fits_first, ends_tailText r.first r.others r.slashes⟩
  rw [readRelative, hword, Option.map_some]
  show some (r.first.written ++ (readTail (tailText r.others r.slashes)).1,
    (readTail (tailText r.others r.slashes)).2) = some (r.text, [])
  rw [readTail_tailText r.fits_others]
  rfl

/-- What is read is a path. -/
theorem isPath_of_read {t path behind : Text} (h : Path.read t = some (path, behind)) :
    IsPath path := by
  cases t with
  | nil => cases h
  | cons c rest =>
    rw [Path.read] at h
    split at h
    · next hc =>
      subst hc
      split at h
      · obtain ⟨rfl, -⟩ := Prod.mk.inj (Option.some.inj h)
        exact .root
      · next relative left hrelative =>
        obtain ⟨rfl, -⟩ := Prod.mk.inj (Option.some.inj h)
        obtain ⟨r, rfl⟩ := exists_relative_of_read hrelative
        exact .absolute r
    · obtain ⟨r, rfl⟩ := exists_relative_of_read h
      exact .relative r

/-- **A path is read to its end.** -/
theorem IsPath.read {t : Text} (h : IsPath t) : Path.read t = some (t, []) := by
  cases h with
  | root => rfl
  | absolute r => rw [Path.read, if_pos rfl, r.read_text]
  | relative r =>
    -- no word begins with a slash, so the path is not taken for an absolute one
    have hslash : Text.after ['/'] r.text = none := by
      rw [Option.eq_none_iff_forall_ne_some]
      intro rest hrest
      have hread := r.read_text
      rw [Text.after_eq_some_iff.1 hrest, readRelative, read_word_eq_none] at hread
      · cases hread
      · rintro c ⟨⟩
        exact .inr rfl
    rw [read_of_after_eq_none hslash, r.read_text]

end Path

/-! ## The arguments of the keyword -/

/-- **An argument fits exactly if it is a path**, up to its outer blanks. -/
theorem Workdir.read_eq_ok_iff {t path : Text} :
    Workdir.read t = .ok path ↔ Path.IsPath (Text.trim t) ∧ path = Text.trim t := by
  rw [ignoresBlanks_read.read_trim, Workdir.read, Text.trimLeft_trim, Reader.path]
  constructor
  · intro h
    split at h
    · cases h
    · next found rest hread =>
      have hread := Expectation.require_eq_ok_iff.1 hread
      obtain ⟨rfl, hblank⟩ := Reader.finish_eq_ok_iff.1 h
      obtain ⟨htext, -⟩ := Path.read_eq_some hread
      -- the trimmed argument does not end in blanks
      have hnil : rest = [] :=
        Text.eq_nil_of_suffix ⟨found, htext.symm⟩ (Text.trimRight_trim t) hblank
      rw [hnil, List.append_nil] at htext
      rw [htext]
      exact ⟨Path.isPath_of_read hread, rfl⟩
  · rintro ⟨hpath, rfl⟩
    rw [hpath.read]
    rfl

/-- **The arguments of `WORKDIR`.** An argument fits exactly if it is a path without its outer blanks,
and then the directory is that path as it is written. -/
theorem Args.read_workdir (argument : Text) (args : Args) :
    Args.read .workdir argument = .ok args ↔
      Path.IsPath (Text.trim argument) ∧ args = .workdir (some (Text.trim argument)) := by
  have hread : Args.read .workdir argument =
      (Workdir.read argument).map fun path => .workdir (some path) :=
    read_eq_map rfl .workdir rfl
  rw [hread]
  constructor
  · intro h
    obtain ⟨path, hpath, rfl⟩ := exists_of_map_eq_ok h
    obtain ⟨hispath, rfl⟩ := Workdir.read_eq_ok_iff.1 hpath
    exact ⟨hispath, rfl⟩
  · rintro ⟨hpath, rfl⟩
    rw [Workdir.read_eq_ok_iff.2 ⟨hpath, rfl⟩]
    rfl

/-- A quoted word can have slashes and blanks, and slashes at the end belong to the path; two slashes
at its beginning are not a path. -/
example : (Args.read .workdir " /\"a /b\"/c// ".toList).toOption =
      some (.workdir (some "/\"a /b\"/c//".toList)) ∧
    (Args.read .workdir "//a".toList).toOption = none := by
  constructor
  · cbv
  · cbv

end Dockerlint
