import Mathlib
import Dockerlint.Operand.Image
import Dockerlint.Proofs.Word

/-!
# References to images

The grammar of a reference is greedy: segments are taken as long as a word with a slash behind it
can be found, then the image, then a tag. A cut describes the outcome without the readers. A
segment that is found in a text is also found in any longer text, so no new segment appears where
the text is shortened to the reference, and the reference is cut as the whole argument was.

## Main definitions

* `Image.slashed`: segments with a slash behind each of them
* `Image.Cut`: a text cut into segments, an image and what follows

## Main results

* `Image.readSegments_eq_iff`: the segments that a text begins with
* `Image.exists_cut_of_read`, `Image.read_of_cut`: an image is read from a cut
* `Image.read_fullName`: the reference of an image is read as the image again
-/

namespace Dockerlint.Image

/-! ## Segments -/

/-- The words that can stand between slashes, as written. -/
def IsSegment (s : Text) : Prop := ∃ w : Word, w.Fits ['/'] ∧ s = w.written

/-- Segments with a slash behind each of them. -/
def slashed (segments : List Text) : Text := segments.flatMap (· ++ ['/'])

@[simp] theorem slashed_nil : slashed [] = [] := rfl

@[simp] theorem slashed_cons (s : Text) (segments : List Text) :
    slashed (s :: segments) = s ++ '/' :: slashed segments := by
  simp [slashed]

theorem slashed_append (segments segments' : List Text) :
    slashed (segments ++ segments') = slashed segments ++ slashed segments' :=
  List.flatMap_append

theorem readSegment_eq_some_iff {t s behind : Text} :
    readSegment t = some (s, behind) ↔ t = s ++ '/' :: behind ∧ IsSegment s := by
  constructor
  · intro h
    refine ⟨(readSegment_eq_some h).1, ?_⟩
    unfold readSegment at h
    split at h
    · simp at h
    · next w rest hw =>
      obtain ⟨b, -, hs⟩ := Option.map_eq_some_iff.1 h
      obtain ⟨rfl, rfl⟩ := Prod.mk.inj hs
      exact ⟨w, (Word.read_eq_some_iff.1 hw).2.1, rfl⟩
  · rintro ⟨rfl, w, hfits, rfl⟩
    -- the slash is a stop, so the word ends before it
    have hends : w.Ends ['/'] ('/' :: behind) := by
      cases w with
      | quoted inner => trivial
      | bare run =>
        intro c hc
        obtain rfl := Option.some.inj hc
        rfl
    rw [readSegment, Word.read_eq_some_iff.2 ⟨rfl, hfits, hends⟩]
    rfl

/-- A text without a segment at its beginning has none when it is cut short. -/
theorem readSegment_eq_none_of_append {t rest : Text} (h : readSegment (t ++ rest) = none) :
    readSegment t = none := by
  rw [Option.eq_none_iff_forall_ne_some] at h ⊢
  rintro ⟨s, behind⟩ hs
  -- a segment with its slash stays one, whatever is put behind it
  obtain ⟨rfl, hseg⟩ := readSegment_eq_some_iff.1 hs
  refine h (s, behind ++ rest) (readSegment_eq_some_iff.2 ⟨?_, hseg⟩)
  simp

/-- The segments of a text, one at a time. -/
theorem readSegments_eq (t : Text) : readSegments t =
    match readSegment t with
    | none => ([], t)
    | some (s, behind) => (s :: (readSegments behind).1, (readSegments behind).2) := by
  rw [readSegments]
  split
  · next h => simp only [h]
  · next s behind h => simp only [h]

theorem readSegments_spec (t : Text) :
    t = slashed (readSegments t).1 ++ (readSegments t).2 ∧
      (∀ s ∈ (readSegments t).1, IsSegment s) ∧ readSegment (readSegments t).2 = none := by
  -- the induction follows the reader, segment by segment
  fun_induction readSegments t with
  | case1 t h => exact ⟨rfl, nofun, h⟩
  | case2 t s behind h more ih =>
    obtain ⟨htext, hsegments, hstop⟩ := ih
    obtain ⟨rfl, hs⟩ := readSegment_eq_some_iff.1 h
    refine ⟨?_, List.forall_mem_cons.2 ⟨hs, hsegments⟩, hstop⟩
    rw [slashed_cons, List.append_assoc, List.cons_append, ← htext]

theorem readSegments_slashed {segments : List Text} (h : ∀ s ∈ segments, IsSegment s)
    {rest : Text} (hrest : readSegment rest = none) :
    readSegments (slashed segments ++ rest) = (segments, rest) := by
  induction segments with
  | nil =>
    rw [readSegments_eq, slashed_nil, List.nil_append, hrest]
  | cons s segments ih =>
    obtain ⟨hs, hsegments⟩ := List.forall_mem_cons.1 h
    have htext : slashed (s :: segments) ++ rest = s ++ '/' :: (slashed segments ++ rest) := by
      rw [slashed_cons, List.append_assoc, List.cons_append]
    rw [readSegments_eq, htext, readSegment_eq_some_iff.2 ⟨rfl, hs⟩]
    simp only [ih hsegments]

/-- **The segments of a text** are the words with slashes that it begins with, up to a text that
begins with none. -/
theorem readSegments_eq_iff {t rest : Text} {segments : List Text} :
    readSegments t = (segments, rest) ↔ t = slashed segments ++ rest ∧
      (∀ s ∈ segments, IsSegment s) ∧ readSegment rest = none := by
  constructor
  · intro h
    have hspec := readSegments_spec t
    rwa [h] at hspec
  · rintro ⟨rfl, hsegments, hrest⟩
    exact readSegments_slashed hsegments hrest

/-! ## Tags -/

/-- A tag as it stands in a reference. -/
def tagText (tag : Option Text) : Text := tag.elim [] (':' :: ·)

theorem readTag_eq (t : Text) : t = tagText (readTag t).1 ++ (readTag t).2 := by
  unfold readTag
  split
  · next w behind h =>
    obtain ⟨rest, hrest, hw⟩ := Option.bind_eq_some_iff.1 h
    rw [Text.after_eq_some_iff.1 hrest, (Word.read_eq_some_iff.1 hw).1]
    rfl
  · rfl

/-- A tag is read again where the text ends behind it. -/
theorem readTag_tagText (t : Text) : readTag (tagText (readTag t).1) = ((readTag t).1, []) := by
  unfold readTag
  cases h : (Text.after [':'] t).bind (Word.read []) with
  | none => rfl
  | some found =>
    obtain ⟨w, behind⟩ := found
    obtain ⟨rest, -, hw⟩ := Option.bind_eq_some_iff.1 h
    have hfits := (Word.read_eq_some_iff.1 hw).2.1
    -- a tag ends at a blank or where the text does, and now it is the latter
    have hends : w.Ends [] [] := by
      cases w with
      | quoted inner => trivial
      | bare run => exact fun c hc => nomatch hc
    have hagain : Word.read [] w.written = some (w, []) :=
      Word.read_eq_some_iff.2 ⟨by simp, hfits, hends⟩
    simp [tagText, Text.after, hagain]

/-! ## Cuts -/

/-- A text cut into segments, an image and what follows the image. -/
structure Cut (t : Text) (segments : List Text) (image : Word) (rest : Text) : Prop where
  text : t = slashed segments ++ (image.written ++ rest)
  isSegment : ∀ s ∈ segments, IsSegment s
  stop : readSegment (image.written ++ rest) = none
  fits : image.Fits ['/', ':']
  ends : image.Ends ['/', ':'] rest

variable {t rest : Text} {segments : List Text} {image : Word}

/-- The reference in a cut text. -/
def cutReference (segments : List Text) (image : Word) (rest : Text) : Text :=
  slashed segments ++ (image.written ++ tagText (readTag rest).1)

theorem Cut.trimLeft (h : Cut t segments image rest) : Text.trimLeft t = t := by
  rw [h.text]
  cases segments with
  | nil => exact h.fits.trimLeft rest
  | cons s segments =>
    obtain ⟨w, hfits, rfl⟩ := h.isSegment s (List.mem_cons_self ..)
    rw [slashed_cons, List.append_assoc]
    exact hfits.trimLeft _

theorem Cut.text_eq (h : Cut t segments image rest) :
    t = cutReference segments image rest ++ (readTag rest).2 := by
  rw [cutReference, List.append_assoc, List.append_assoc, ← readTag_eq]
  exact h.text

/-- An image is read from a cut of its argument. -/
theorem read_of_cut (h : Cut (Text.trimLeft t) segments image rest) :
    Image.read t = Reader.finish
      { registry := segments.head?
        username := usernameOf segments.tail
        image := image.written
        tag := (readTag rest).1
        fullName := cutReference segments image rest
        stageName := (readStageName (readTag rest).2).1 }
      (readStageName (readTag rest).2).2 := by
  have hsegments := readSegments_eq_iff.2 ⟨h.text, h.isSegment, h.stop⟩
  have himage := Word.read_eq_some_iff.2 ⟨rfl, h.fits, h.ends⟩
  -- the reference reaches from the beginning to what the tag leaves
  have hname : Text.upTo (Text.trimLeft t) (readTag rest).2 = cutReference segments image rest := by
    nth_rewrite 1 [h.text_eq]
    exact Text.upTo_append _ _
  rw [Image.read, hsegments]
  simp only [Reader.word, himage, Expectation.require, hname]

theorem exists_cut_of_read {i : Image} (h : Image.read t = .ok i) :
    ∃ segments image rest, Cut (Text.trimLeft t) segments image rest := by
  obtain ⟨htext, hsegments, hstop⟩ := readSegments_spec (Text.trimLeft t)
  rw [Image.read] at h
  cases hw : Word.read ['/', ':'] (readSegments (Text.trimLeft t)).2 with
  | none => simp [Reader.word, hw, Expectation.require] at h
  | some found =>
    obtain ⟨image, rest⟩ := found
    obtain ⟨hrest, hfits, hends⟩ := Word.read_eq_some_iff.1 hw
    rw [hrest] at htext hstop
    exact ⟨_, image, rest, htext, hsegments, hstop, hfits, hends⟩

/-- The reference of a cut text is cut in the same way. -/
theorem Cut.reference (h : Cut t segments image rest) :
    Cut (cutReference segments image rest) segments image (tagText (readTag rest).1) where
  text := rfl
  isSegment := h.isSegment
  stop := by
    -- the reference is a beginning of the text, where no segment was found
    have hstop := h.stop
    rw [readTag_eq rest, ← List.append_assoc] at hstop
    exact readSegment_eq_none_of_append hstop
  fits := h.fits
  ends := by
    -- the image ends where the text does, or at the colon of the tag
    cases image with
    | quoted inner => trivial
    | bare run =>
      intro c hc
      cases htag : (readTag rest).1 with
      | none => simp [htag, tagText] at hc
      | some tag =>
        rw [htag] at hc
        obtain rfl := Option.some.inj hc
        rfl

theorem Cut.trimLeft_reference (h : Cut t segments image rest) :
    Text.trimLeft (cutReference segments image rest) = cutReference segments image rest :=
  h.reference.trimLeft

/-! ## The parts of a reference -/

theorem join_slash (s : Text) (segments : List Text) :
    Text.join ['/'] (s :: segments) ++ ['/'] = slashed (s :: segments) := by
  induction segments generalizing s with
  | nil => simp
  | cons s' segments ih =>
    rw [Text.join_cons_cons, slashed_cons, List.append_assoc, List.append_assoc, ih]
    rfl

/-- The registry and the username make up the segments. -/
theorem slashed_eq (segments : List Text) :
    segments.head?.elim [] (· ++ ['/']) ++ (usernameOf segments.tail).elim [] (· ++ ['/']) =
      slashed segments := by
  cases segments with
  | nil => rfl
  | cons registry segments =>
    cases segments with
    | nil => simp [usernameOf]
    | cons part parts =>
      -- the username is all segments behind the first, so its slashes are theirs
      have hjoin := join_slash part parts
      simp only [List.head?_cons, List.tail_cons, usernameOf, Option.elim, hjoin]
      simp

theorem isSome_head?_of_isSome_usernameOf (h : (usernameOf segments.tail).isSome) :
    segments.head?.isSome := by
  cases segments with
  | nil => simp [usernameOf] at h
  | cons registry segments => rfl

/-- **The reference of an image is read as the image again.** It is made up of the registry, the
username, the image and the tag with their separators, a username needs a registry before it, and
read as an argument it gives the same parts and no stage name. -/
theorem read_fullName {argument : Text} {i : Image} (h : Image.read argument = .ok i) :
    i.fullName = i.reference ∧ (i.username.isSome → i.registry.isSome) ∧
      Image.read i.fullName = .ok { i with stageName := none } := by
  obtain ⟨segments, image, rest, hcut⟩ := exists_cut_of_read h
  rw [read_of_cut hcut, Reader.finish_eq_ok_iff] at h
  obtain ⟨rfl, -⟩ := h
  refine ⟨?_, isSome_head?_of_isSome_usernameOf, ?_⟩
  · rw [Image.reference, slashed_eq, List.append_assoc]
    rfl
  · have hagain : Cut (Text.trimLeft (cutReference segments image rest)) segments image
        (tagText (readTag rest).1) := by
      rw [hcut.trimLeft_reference]
      exact hcut.reference
    -- nothing is left behind the tag, so there is no stage name
    have hname : cutReference segments image (tagText (readTag rest).1) =
        cutReference segments image rest := by
      rw [cutReference, readTag_tagText, cutReference]
    rw [read_of_cut hagain, hname, readTag_tagText]
    rfl

/-- A port in the registry, a quoted part of the username and a quoted tag with a slash in it. -/
theorem read_fullName_quoted :
    Image.read "r:5/\"a b\"/c/i:\"1 2/3\" AS s".toList =
      .ok ⟨some "r:5".toList, some "\"a b\"/c".toList, "i".toList, some "\"1 2/3\"".toList,
        "r:5/\"a b\"/c/i:\"1 2/3\"".toList, some "s".toList⟩ ∧
    Image.read "r:5/\"a b\"/c/i:\"1 2/3\"".toList =
      .ok ⟨some "r:5".toList, some "\"a b\"/c".toList, "i".toList, some "\"1 2/3\"".toList,
        "r:5/\"a b\"/c/i:\"1 2/3\"".toList, none⟩ := by
  have h : Image.read "r:5/\"a b\"/c/i:\"1 2/3\" AS s".toList =
      .ok ⟨some "r:5".toList, some "\"a b\"/c".toList, "i".toList, some "\"1 2/3\"".toList,
        "r:5/\"a b\"/c/i:\"1 2/3\"".toList, some "s".toList⟩ := by
    cbv
  exact ⟨h, (read_fullName h).2.2⟩

end Dockerlint.Image
