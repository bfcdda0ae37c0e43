import Dockerlint.Proofs.Operand.Image
import Dockerlint.Proofs.Reader.Trailing

/-!
# Stage names behind references

What follows the reference in the argument of `FROM` is blank, or it is a clause: the letters `as`
in any case and a name, with blanks before, between and behind them. The clause is read with any
number of blanks, also with none. A name that stands directly behind the letters is taken all the
same, and so is a clause that stands directly behind a closing quote. Where no part of the reference
is quoted and the clause has its blanks, every part of the argument is read as it was written.

## Main definitions

* `StageClause`: a clause that names a stage
* `StageClause.IsSeparate`: the clauses with blanks on both sides of their letters
* `Image.NamedSeparately`: only a separate clause names a stage

## Main results

* `Image.readStageName_text`, `Image.exists_clause_of_readStageName`: the clauses that are read
* `Image.Cut.exists_quote`: where a clause can do without blanks before it
* `Image.stageName_iff`: what follows a reference
* `Image.read_bare`: unquoted references are read as they were written
-/

namespace Dockerlint

/-! ## Clauses -/

/-- A clause that names a stage: the letters `as` in any case and a word, with any blanks before,
between and behind them. -/
structure StageClause where
  before : Text
  letters : Text
  between : Text
  name : Word
  behind : Text
  blank_before : ∀ c ∈ before, isBlank c
  letters_as : letters.map Char.toLower = ['a', 's']
  blank_between : ∀ c ∈ between, isBlank c
  fits_name : name.Fits []
  blank_behind : ∀ c ∈ behind, isBlank c

namespace StageClause

/-- A clause as it is written. -/
def text (c : StageClause) : Text :=
  c.before ++ (c.letters ++ (c.between ++ (c.name.written ++ c.behind)))

/-- A clause whose letters are a word of their own. -/
def IsSeparate (c : StageClause) : Prop := c.before ≠ [] ∧ c.between ≠ []

/-- The clause with a space before capital letters and an unquoted name. -/
def capital (between name : Text) (hbetween : ∀ c ∈ between, isBlank c)
    (hname : Word.IsBare [] name) : StageClause where
  before := [' ']
  letters := ['A', 'S']
  between
  name := .bare name
  behind := []
  blank_before := List.all_eq_true.1 rfl
  letters_as := rfl
  blank_between := hbetween
  fits_name := hname
  blank_behind := List.forall_mem_nil _

theorem exists_letters (c : StageClause) :
    ∃ a s, c.letters = [a, s] ∧ a.toLower = 'a' ∧ s.toLower = 's' := by
  obtain ⟨a, letters, hcons, ha, hletters⟩ := List.map_eq_cons_iff.1 c.letters_as
  obtain ⟨s, letters, rfl, hs, hnil⟩ := List.map_eq_cons_iff.1 hletters
  obtain rfl := List.map_eq_nil_iff.1 hnil
  exact ⟨a, s, hcons, ha, hs⟩

/-- The letters begin with no blank. -/
theorem startsBlank_letters (c : StageClause) (rest : Text) :
    Text.startsBlank (c.letters ++ rest) = false := by
  obtain ⟨a, s, hletters, ha, -⟩ := c.exists_letters
  rw [hletters]
  show isBlank a = false
  rw [← isBlank_toLower, ha]
  rfl

theorem trimLeft_text (c : StageClause) :
    Text.trimLeft c.text = c.letters ++ (c.between ++ (c.name.written ++ c.behind)) := by
  rw [text, Text.trimLeft_blanks_append c.blank_before]
  exact Text.trimLeft_eq_self_iff.2 (c.startsBlank_letters _)

theorem trimLeft_name (c : StageClause) :
    Text.trimLeft (c.between ++ (c.name.written ++ c.behind)) = c.name.written ++ c.behind := by
  rw [Text.trimLeft_blanks_append c.blank_between, c.fits_name.trimLeft]

/-- The blanks of a clause are fixed by its text. -/
theorem blanks_eq {c c' : StageClause} (h : c.text = c'.text) :
    c.before = c'.before ∧ c.between = c'.between := by
  have htail := congrArg Text.trimLeft h
  rw [trimLeft_text, trimLeft_text] at htail
  have hbefore : c.before = c'.before := by
    rw [text, text, htail] at h
    exact List.append_cancel_right h
  -- both have two letters
  obtain ⟨a, s, hletters, -, -⟩ := c.exists_letters
  obtain ⟨a', s', hletters', -, -⟩ := c'.exists_letters
  rw [hletters, hletters'] at htail
  have hname := List.append_inj_right htail rfl
  have hwritten := congrArg Text.trimLeft hname
  rw [trimLeft_name, trimLeft_name] at hwritten
  rw [hwritten] at hname
  exact ⟨hbefore, List.append_cancel_right hname⟩

end StageClause

namespace Image

/-- **A clause is read** with its name, and the blanks behind it are left. -/
theorem readStageName_text (c : StageClause) :
    readStageName c.text = (some c.name.written, c.behind) := by
  have has : Text.afterCaseless ['a', 's']
      (c.letters ++ (c.between ++ (c.name.written ++ c.behind))) =
        some (c.between ++ (c.name.written ++ c.behind)) :=
    Text.afterCaseless_eq_some_iff.2 ⟨c.letters, rfl, c.letters_as⟩
  have hends : c.name.Ends [] c.behind :=
    c.name.ends_of_blank fun d hd => c.blank_behind d (List.mem_of_head? hd)
  have hname : Word.read [] (c.name.written ++ c.behind) = some (c.name, c.behind) :=
    Word.read_eq_some_iff.2 ⟨rfl, c.fits_name, hends⟩
  rw [readStageName, c.trimLeft_text, has, Option.bind_some, c.trimLeft_name, hname]

/-- What is read as a stage name with only blanks behind it is a clause. -/
theorem exists_clause_of_readStageName {rest name behind : Text}
    (h : readStageName rest = (some name, behind)) (hbehind : Text.trimLeft behind = []) :
    ∃ c : StageClause, c.name.written = name ∧ rest = c.text := by
  unfold readStageName at h
  split at h
  · next w left hclause =>
    obtain ⟨hname, rfl⟩ := Prod.mk.inj h
    obtain ⟨t, has, hw⟩ := Option.bind_eq_some_iff.1 hclause
    obtain ⟨letters, hletters, has⟩ := Text.afterCaseless_eq_some_iff.1 has
    obtain ⟨hword, hfits, -⟩ := Word.read_eq_some_iff.1 hw
    let c : StageClause :=
      { before := rest.takeWhile isBlank
        letters
        between := t.takeWhile isBlank
        name := w
        behind := left
        blank_before := List.all_eq_true.1 List.all_takeWhile
        letters_as := has
        blank_between := List.all_eq_true.1 List.all_takeWhile
        fits_name := hfits
        blank_behind := Text.trimLeft_eq_nil_iff.1 hbehind }
    refine ⟨c, Option.some.inj hname, ?_⟩
    show rest = rest.takeWhile isBlank ++ (letters ++ (t.takeWhile isBlank ++ (w.written ++ left)))
    rw [← hword, Text.takeWhile_append_trimLeft, ← hletters, Text.takeWhile_append_trimLeft]
  · cases h

/-- Where no stage name is read, nothing is taken. -/
theorem readStageName_eq_none {rest behind : Text} (h : readStageName rest = (none, behind)) :
    behind = rest := by
  unfold readStageName at h
  split at h
  · cases h
  · exact (Prod.mk.inj h).2.symm

theorem readStageName_of_blank {rest : Text} (h : Text.trimLeft rest = []) :
    readStageName rest = (none, rest) := by
  rw [readStageName, h]
  rfl

/-! ## Behind a reference -/

variable {t rest : Text} {segments : List Text} {image : Word}

/-- A word that another character follows directly ends in a quote, unless the character ends it. -/
theorem getLast?_of_ends {w : Word} {stops : List Char} {c : Char} {rest : Text}
    (h : w.Ends stops (c :: rest)) (hc : Word.inRun stops c) (front : Text) :
    (front ++ w.written).getLast? = some '"' := by
  cases w with
  | quoted inner =>
    rw [Word.written, ← List.cons_append, ← List.append_assoc]
    exact List.getLast?_concat
  | bare run =>
    rw [h c rfl] at hc
    cases hc

/-- **A clause can do without blanks before it** only behind a closing quote. -/
theorem Cut.exists_quote (h : Cut t segments image rest) {c : StageClause}
    (hclause : (readTag rest).2 = c.text) (hbefore : c.before = []) :
    (cutReference segments image rest).getLast? = some '"' := by
  -- the letter behind the reference ends neither an image nor a tag
  obtain ⟨a, s, hletters, ha, -⟩ := c.exists_letters
  obtain ⟨left, hleft⟩ : ∃ left, (readTag rest).2 = a :: left := by
    refine ⟨s :: (c.between ++ (c.name.written ++ c.behind)), ?_⟩
    rw [hclause, StageClause.text, hbefore, hletters]
    rfl
  have hblank : isBlank a = false := by
    rw [← isBlank_toLower, ha]
    rfl
  have hrest := readTag_eq rest
  cases htag : (readTag rest).1 with
  | none =>
    have hslash : a ≠ '/' := by
      rintro rfl
      exact absurd ha (by decide)
    have hcolon : a ≠ ':' := by
      rintro rfl
      exact absurd ha (by decide)
    have hends := h.ends
    rw [hrest, htag, hleft] at hends
    rw [cutReference, htag, tagText, Option.elim_none, List.append_nil]
    exact getLast?_of_ends hends (by simp [Word.inRun, hblank, hslash, hcolon]) _
  | some tag =>
    obtain ⟨w, rfl, hends⟩ : ∃ w : Word, w.written = tag ∧ w.Ends [] (a :: left) := by
      unfold readTag at htag hleft
      split at htag
      · next w behind hw =>
        obtain ⟨u, -, hword⟩ := Option.bind_eq_some_iff.1 hw
        rw [hw] at hleft
        obtain rfl : behind = a :: left := hleft
        exact ⟨w, Option.some.inj htag, (Word.read_eq_some_iff.1 hword).2.2⟩
      · cases htag
    rw [cutReference, htag, tagText, Option.elim_some, ← List.append_assoc]
    have hcolon : slashed segments ++ image.written ++ ':' :: w.written =
        slashed segments ++ image.written ++ [':'] ++ w.written := by simp
    rw [hcolon]
    exact getLast?_of_ends hends (by simp [Word.inRun, hblank]) _

/-! ## Stage names -/

theorem stageName_eq_some_iff {behind : Text}
    (hend : Text.trimLeft (readStageName behind).2 = []) {name : Text} :
    (readStageName behind).1 = some name ↔
      ∃ c : StageClause, c.name.written = name ∧ behind = c.text := by
  constructor
  · intro h
    exact exists_clause_of_readStageName (Prod.ext h rfl) hend
  · rintro ⟨c, rfl, rfl⟩
    rw [readStageName_text]

theorem stageName_eq_none_iff {behind : Text}
    (hend : Text.trimLeft (readStageName behind).2 = []) :
    (readStageName behind).1 = none ↔ ∀ c ∈ behind, isBlank c := by
  rw [← Text.trimLeft_eq_nil_iff]
  constructor
  · intro h
    have hnone : readStageName behind = (none, (readStageName behind).2) := Prod.ext h rfl
    rwa [readStageName_eq_none hnone] at hend
  · intro h
    rw [readStageName_of_blank h]

/-- Only a separate clause names a stage: the name is that of a separate clause that makes up what
follows the reference, and without a name nothing but blanks follows. -/
def NamedSeparately (stageName : Option Text) (behind : Text) : Prop :=
  (∀ name, stageName = some name ↔
    ∃ c : StageClause, c.IsSeparate ∧ c.name.written = name ∧ behind = c.text) ∧
  (stageName = none ↔ ∀ c ∈ behind, isBlank c)

theorem namedSeparately_iff {behind : Text}
    (hend : Text.trimLeft (readStageName behind).2 = []) :
    NamedSeparately (readStageName behind).1 behind ↔
      ∀ c : StageClause, behind = c.text → c.IsSeparate := by
  constructor
  · intro h c hc
    -- the clause that is read is the only one
    obtain ⟨c', hseparate, -, hc'⟩ :=
      (h.1 c.name.written).1 ((stageName_eq_some_iff hend).2 ⟨c, rfl, hc⟩)
    obtain ⟨hbefore, hbetween⟩ := StageClause.blanks_eq (hc.symm.trans hc')
    rw [StageClause.IsSeparate, hbefore, hbetween]
    exact hseparate
  · intro h
    refine ⟨fun name => (stageName_eq_some_iff hend).trans ?_, stageName_eq_none_iff hend⟩
    constructor
    · rintro ⟨c, hname, hc⟩
      exact ⟨c, h c hc, hname, hc⟩
    · rintro ⟨c, -, hname, hc⟩
      exact ⟨c, hname, hc⟩

/-- **What follows a reference.** The stage has a name exactly if a clause with that name follows,
and none exactly if nothing but blanks follows. The clause needs no blanks: none between its letters
and its name, and none before it if the reference ends in a quote. So only separate clauses name
stages exactly where each clause that follows is separate. -/
theorem stageName_iff {argument : Text} {i : Image} (h : Image.read argument = .ok i) :
    ∃ behind, Text.trimLeft argument = i.fullName ++ behind ∧
      (∀ name, i.stageName = some name ↔
        ∃ c : StageClause, c.name.written = name ∧ behind = c.text) ∧
      (i.stageName = none ↔ ∀ c ∈ behind, isBlank c) ∧
      (∀ c : StageClause, behind = c.text → c.before = [] → i.fullName.getLast? = some '"') ∧
      (NamedSeparately i.stageName behind ↔
        ∀ c : StageClause, behind = c.text → c.IsSeparate) := by
  obtain ⟨segments, image, rest, hcut⟩ := exists_cut_of_read h
  rw [read_of_cut hcut, Reader.finish_eq_ok_iff] at h
  obtain ⟨rfl, hend⟩ := h
  refine ⟨(readTag rest).2, hcut.text_eq, fun name => stageName_eq_some_iff hend,
    stageName_eq_none_iff hend, ?_, namedSeparately_iff hend⟩
  intro c hclause hbefore
  exact hcut.exists_quote hclause hbefore

/-- A clause directly behind a quoted tag, and its name directly behind its letters. -/
theorem stageName_iff_quoted :
    Image.read "a:\"1 2\"aSb ".toList =
      .ok ⟨none, none, ['a'], some "\"1 2\"".toList, "a:\"1 2\"".toList, some ['b']⟩ ∧
    ∃ c : StageClause, c.name.written = ['b'] ∧ c.text = "aSb ".toList := by
  have h : Image.read "a:\"1 2\"aSb ".toList =
      .ok ⟨none, none, ['a'], some "\"1 2\"".toList, "a:\"1 2\"".toList, some ['b']⟩ := by
    cbv
  obtain ⟨behind, htext, hname, -⟩ := stageName_iff h
  obtain ⟨c, hc, rfl⟩ := (hname ['b']).1 rfl
  have htail : "a:\"1 2\"".toList ++ "aSb ".toList = "a:\"1 2\"".toList ++ c.text := htext
  exact ⟨h, c, hc, (List.append_cancel_left htail).symm⟩

/-- A name directly behind the letters `AS` names a stage, although they are no word of their own.
-/
theorem not_namedSeparately_joined :
    ∃ i, Image.read "centos ASx".toList = .ok i ∧ i.stageName = some ['x'] ∧
      ∀ behind, Text.trimLeft "centos ASx".toList = i.fullName ++ behind →
        ¬ NamedSeparately i.stageName behind := by
  have h : Image.read "centos ASx".toList =
      .ok ⟨none, none, "centos".toList, none, "centos".toList, some ['x']⟩ := by
    cbv
  refine ⟨_, h, rfl, fun behind htext hnamed => ?_⟩
  let joined : StageClause := .capital [] ['x'] (List.forall_mem_nil _)
    ⟨List.cons_ne_nil _ _, by decide, List.all_eq_true.1 rfl⟩
  have htail : "centos".toList ++ joined.text = "centos".toList ++ behind := htext
  obtain rfl := List.append_cancel_left htail
  obtain ⟨c, hseparate, -, hc⟩ := (hnamed.1 ['x']).1 rfl
  exact hseparate.2 (StageClause.blanks_eq hc).2.symm

/-! ## Unquoted references -/

section Bare

variable {parts : List Text} {name : Text} {tag : Option Text} {clause : Text}

/-- An image and a tag make up one word without slashes. -/
theorem isBare_append_tagText (hname : Word.IsBare ['/', ':'] name)
    (htag : ∀ t ∈ tag, Word.IsBare ['/'] t) : Word.IsBare ['/'] (name ++ tagText tag) where
  ne_nil := fun h => hname.ne_nil (List.append_eq_nil_iff.1 h).1
  head := Word.head?_written_bare hname _
  inRun := by
    intro c hc
    rcases List.mem_append.1 hc with hc | hc
    · exact (hname.mono (by simp)).inRun c hc
    · cases tag with
      | none => cases hc
      | some t =>
        rcases List.mem_cons.1 hc with rfl | hc
        · rfl
        · exact (htag t rfl).inRun c hc

/-- No separator stands where a text begins with a blank. -/
theorem after_eq_none_of_blank {sep : Char} (hsep : isBlank sep = false)
    (hclause : ∀ c, clause.head? = some c → isBlank c) : Text.after [sep] clause = none := by
  rw [Option.eq_none_iff_forall_ne_some]
  intro rest hrest
  obtain rfl := Text.after_eq_some_iff.1 hrest
  rw [hclause sep rfl] at hsep
  cases hsep

/-- What follows the tag begins with a blank, so nothing in it belongs to the reference. -/
theorem readTag_tagText_append (htag : ∀ t ∈ tag, Word.IsBare ['/'] t)
    (hclause : ∀ c, clause.head? = some c → isBlank c) :
    readTag (tagText tag ++ clause) = (tag, clause) := by
  cases tag with
  | none =>
    have htext : tagText none ++ clause = clause := rfl
    rw [htext, readTag, after_eq_none_of_blank (by decide) hclause]
    rfl
  | some t =>
    have hword : Word.read [] (t ++ clause) = some (.bare t, clause) :=
      Word.read_eq_some_iff.2
        ⟨rfl, (htag t rfl).mono (by simp), (Word.bare t).ends_of_blank hclause⟩
    have hafter : Text.after [':'] (tagText (some t) ++ clause) = some (t ++ clause) :=
      Text.after_append [':'] (t ++ clause)
    rw [readTag, hafter, Option.bind_some, hword]
    rfl

/-- The segments, the image and the rest of an unquoted reference. -/
theorem cut_of_bare (hparts : ∀ p ∈ parts, Word.IsBare ['/'] p)
    (hname : Word.IsBare ['/', ':'] name) (htag : ∀ t ∈ tag, Word.IsBare ['/'] t)
    (hclause : ∀ c, clause.head? = some c → isBlank c) :
    Cut (slashed parts ++ (name ++ (tagText tag ++ clause))) parts (.bare name)
      (tagText tag ++ clause) where
  text := rfl
  isSegment := fun s hs => ⟨.bare s, hparts s hs, rfl⟩
  stop := by
    -- the word up to a slash reaches to the end of the tag, and no slash follows it
    have hword : Word.read ['/'] (name ++ (tagText tag ++ clause)) =
        some (.bare (name ++ tagText tag), clause) :=
      Word.read_eq_some_iff.2 ⟨by rw [Word.written, List.append_assoc],
        isBare_append_tagText hname htag, (Word.bare _).ends_of_blank hclause⟩
    have hafter : Text.after ['/'] clause = none := after_eq_none_of_blank (by decide) hclause
    have hwritten : (Word.bare name).written = name := rfl
    rw [hwritten, readSegment, hword]
    simp only [hafter, Option.map_none]
  fits := hname
  ends := by
    intro c hc
    cases tag with
    | none => simp [Word.inRun, hclause c hc]
    | some t =>
      obtain rfl := Option.some.inj hc
      rfl

/-- The registry and the parts of the username as segments. -/
theorem segments_eq {registry : Option Text} (h : parts ≠ [] → registry.isSome) :
    (registry.toList ++ parts).head? = registry ∧ (registry.toList ++ parts).tail = parts := by
  cases registry with
  | some r => exact ⟨rfl, rfl⟩
  | none =>
    have hnil : parts = [] := by
      by_contra hne
      exact absurd (h hne) (by decide)
    rw [hnil]
    exact ⟨rfl, rfl⟩

/-- A separate clause begins with a blank. -/
theorem isBlank_of_separate {clause : Option StageClause} (h : ∀ c ∈ clause, c.IsSeparate)
    {b : Char} (hb : (clause.elim [] StageClause.text).head? = some b) : isBlank b := by
  cases clause with
  | none => cases hb
  | some c =>
    obtain ⟨b', before, hbefore⟩ := List.exists_cons_of_ne_nil (h c rfl).1
    rw [Option.elim_some, StageClause.text, hbefore] at hb
    obtain rfl := Option.some.inj hb
    exact c.blank_before b' (by simp [hbefore])

end Bare

/-- **Unquoted references are read as they were written.** Let the registry, the parts of the
username, the image and the tag be unquoted words with no slash in them, and with no colon in the
image, and let a separate clause follow or nothing. Then each of them is read as it is, whatever the
number of the parts, and the reference is what stands before the clause. -/
theorem read_bare {registry : Option Text} {parts : List Text} {name : Text} {tag : Option Text}
    {clause : Option StageClause} (hregistry : ∀ r ∈ registry, Word.IsBare ['/'] r)
    (hparts : ∀ p ∈ parts, Word.IsBare ['/'] p) (honly : parts ≠ [] → registry.isSome)
    (hname : Word.IsBare ['/', ':'] name) (htag : ∀ t ∈ tag, Word.IsBare ['/'] t)
    (hclause : ∀ c ∈ clause, c.IsSeparate) :
    let reference := registry.elim [] (· ++ ['/']) ++ (slashed parts ++ (name ++ tagText tag))
    Image.read (reference ++ clause.elim [] StageClause.text) =
      .ok
        { registry
          username := if parts = [] then none else some (Text.join ['/'] parts)
          image := name
          tag
          fullName := reference
          stageName := clause.map (·.name.written) } := by
  intro reference
  have hsegments : ∀ s ∈ registry.toList ++ parts, Word.IsBare ['/'] s := by
    intro s hs
    rcases List.mem_append.1 hs with hs | hs
    · exact hregistry s (Option.mem_toList.1 hs)
    · exact hparts s hs
  have hslashed : slashed (registry.toList ++ parts) =
      registry.elim [] (· ++ ['/']) ++ slashed parts := by
    rw [slashed_append]
    cases registry <;> simp
  have hcut := cut_of_bare hsegments hname htag fun b => isBlank_of_separate hclause
  have htext : reference ++ clause.elim [] StageClause.text = slashed (registry.toList ++ parts) ++
      (name ++ (tagText tag ++ clause.elim [] StageClause.text)) := by
    simp only [reference, hslashed, List.append_assoc]
  rw [← htext] at hcut
  have htagged := readTag_tagText_append htag fun b => isBlank_of_separate hclause
  have hreference : cutReference (registry.toList ++ parts) (.bare name)
      (tagText tag ++ clause.elim [] StageClause.text) = reference := by
    rw [cutReference, htagged, hslashed, List.append_assoc]
    rfl
  have husername : usernameOf parts =
      if parts = [] then none else some (Text.join ['/'] parts) := by
    cases parts <;> rfl
  obtain ⟨hhead, htail⟩ := segments_eq honly
  rw [← hcut.trimLeft] at hcut
  rw [read_of_cut hcut, hreference, htagged, hhead, htail, husername, Reader.finish_eq_ok_iff]
  cases clause with
  | none => exact ⟨rfl, rfl⟩
  | some c =>
    rw [Option.elim_some, readStageName_text]
    exact ⟨rfl, Text.trimLeft_eq_nil_iff.2 c.blank_behind⟩

/-- A port in the registry, an image spelled like the letters of a clause, and a tag with a colon
and a quote. -/
theorem read_bare_colons :
    Image.read "r:5/as/as:1:\" AS -s".toList =
      .ok ⟨some "r:5".toList, some ['a', 's'], ['a', 's'], some "1:\"".toList,
        "r:5/as/as:1:\"".toList, some "-s".toList⟩ := by
  have hregistry : Word.IsBare ['/'] "r:5".toList := ⟨by decide, by decide, List.all_eq_true.1 rfl⟩
  have hname : Word.IsBare ['/', ':'] ['a', 's'] := ⟨by decide, by decide, List.all_eq_true.1 rfl⟩
  have htag : Word.IsBare ['/'] "1:\"".toList := ⟨by decide, by decide, List.all_eq_true.1 rfl⟩
  have hstage : Word.IsBare [] "-s".toList := ⟨by decide, by decide, List.all_eq_true.1 rfl⟩
  let clause : StageClause := .capital [' '] "-s".toList (List.all_eq_true.1 rfl) hstage
  have hclause : clause.IsSeparate := ⟨List.cons_ne_nil _ _, List.cons_ne_nil _ _⟩
  have hsome : ∀ {α : Type} {p : α → Prop} {a : α}, p a → ∀ b ∈ some a, p b := by
    rintro α p a ha b ⟨⟩
    exact ha
  exact @read_bare (some "r:5".toList) [['a', 's']] ['a', 's'] (some "1:\"".toList) (some clause)
    (hsome hregistry) (List.forall_mem_singleton.2 (hname.mono (by simp))) (fun _ => rfl) hname
    (hsome htag) (hsome hclause)

end Image

end Dockerlint
