import Dockerlint.Proofs.Token
import Dockerlint.Proofs.Word

/-!
# Where paths end

Words in a path are separated by single slashes. So a path can end inside a token: a slash at its
beginning has no other slash behind it, and two or more slashes behind a word have nothing else
behind them. A reader that reads path after path cuts a token there: `a//b` are two paths, and
`https://a.b/c` too. The cuts are described here by the characters of a token, and the reader is
shown to follow them in tokens that have no quotes.

## Main definitions

* `Path.EndsBefore`: where a path ends inside a token
* `Path.pieces`: the paths that a token is cut into
* `Path.IsWhole`: the tokens that are one path
* `Path.GoesOn`: the parts of a token that a path does not end in

## Main results

* `Path.flatten_pieces`: the pieces of a token make it up
* `Path.pieces_eq_singleton_iff`: which tokens are not cut
* `Path.readTail_token`, `Path.read_token`: a token is read up to its first cut
-/

namespace Dockerlint

/-! ## Pieces of tokens -/

namespace Path

/-- A path ends before a character of its token: before a second slash at its beginning, and before
anything but a slash behind two slashes. -/
def EndsBefore (path : Text) (c : Char) : Prop :=
  c = '/' ∧ path = ['/'] ∨ c ≠ '/' ∧ ['/', '/'] <:+ path

instance decidableEndsBefore (path : Text) (c : Char) : Decidable (EndsBefore path c) :=
  inferInstanceAs (Decidable (_ ∨ _))

/-- The pieces of the rest of a token, where `path` is the beginning of a piece. -/
def piecesFrom (path : Text) : Text → List Text
  | [] => [path]
  | c :: rest =>
    if EndsBefore path c then path :: piecesFrom [c] rest else piecesFrom (path ++ [c]) rest

/-- The paths that a token is cut into. -/
def pieces : Text → List Text
  | [] => []
  | c :: rest => piecesFrom [c] rest

example : pieces "https://a.b/c//".toList = ["https://".toList, "a.b/c//".toList] := by decide
example : pieces "//a".toList = ["/".toList, "/a".toList] := by decide

/-- The tokens that are one path: they do not begin with two slashes, and behind two slashes there
are only slashes. -/
structure IsWhole (w : Text) : Prop where
  start : ¬ ['/', '/'] <+: w
  inside : ∀ before c behind, w = before ++ '/' :: '/' :: c :: behind → c = '/'

theorem piecesFrom_ne_nil (path w : Text) : piecesFrom path w ≠ [] := by
  induction w generalizing path with
  | nil => exact List.cons_ne_nil path []
  | cons c w ih =>
    rw [piecesFrom]
    split
    · exact List.cons_ne_nil path _
    · exact ih (path ++ [c])

theorem flatten_piecesFrom (path w : Text) : (piecesFrom path w).flatten = path ++ w := by
  induction w generalizing path with
  | nil => simp [piecesFrom]
  | cons c w ih =>
    rw [piecesFrom]
    split
    · rw [List.flatten_cons, ih, List.singleton_append]
    · rw [ih, List.append_assoc, List.singleton_append]

/-- The pieces of a token make it up. -/
theorem flatten_pieces (w : Text) : (pieces w).flatten = w := by
  cases w with
  | nil => rfl
  | cons c w => exact flatten_piecesFrom [c] w

theorem pieces_ne_nil {w : Text} (h : w ≠ []) : pieces w ≠ [] := by
  obtain ⟨c, w, rfl⟩ := List.exists_cons_of_ne_nil h
  exact piecesFrom_ne_nil [c] w

/-- A path goes on through a part of its token if it does not end before any of its characters. -/
def GoesOn (path w : Text) : Prop :=
  ∀ before c behind, w = before ++ c :: behind → ¬ EndsBefore (path ++ before) c

theorem goesOn_nil (path : Text) : GoesOn path [] := by
  intro before c behind hcut
  simp at hcut

theorem goesOn_cons {path : Text} {c : Char} {w : Text} :
    GoesOn path (c :: w) ↔ ¬ EndsBefore path c ∧ GoesOn (path ++ [c]) w := by
  constructor
  · intro h
    refine ⟨by simpa using h [] c w rfl, ?_⟩
    rintro before d behind rfl
    rw [← List.append_cons]
    exact h (c :: before) d behind rfl
  · rintro ⟨hc, hw⟩ before d behind hcut
    cases before with
    | nil =>
      obtain ⟨rfl, rfl⟩ := List.cons.inj hcut
      rwa [List.append_nil]
    | cons e before =>
      obtain ⟨rfl, rfl⟩ := List.cons.inj hcut
      rw [List.append_cons path c before]
      exact hw before d behind rfl

/-- What a path goes on through becomes a part of it. -/
theorem piecesFrom_append {path u : Text} (h : GoesOn path u) (w : Text) :
    piecesFrom path (u ++ w) = piecesFrom (path ++ u) w := by
  induction u generalizing path with
  | nil => rw [List.append_nil, List.nil_append]
  | cons c u ih =>
    obtain ⟨hc, hu⟩ := goesOn_cons.1 h
    rw [List.cons_append, piecesFrom, if_neg hc, ih hu, List.append_cons path c u]

theorem piecesFrom_eq_singleton_iff {path w : Text} :
    piecesFrom path w = [path ++ w] ↔ GoesOn path w := by
  induction w generalizing path with
  | nil => exact iff_of_true (by simp [piecesFrom]) (goesOn_nil path)
  | cons c w ih =>
    rw [goesOn_cons, piecesFrom]
    by_cases hc : EndsBefore path c
    · -- then there is another piece behind the path
      rw [if_pos hc]
      refine iff_of_false (fun h => ?_) fun h => h.1 hc
      exact piecesFrom_ne_nil [c] w (List.cons.inj h).2
    · rw [if_neg hc, List.append_cons path c w, ih]
      exact (and_iff_right hc).symm

/-- **The tokens that are not cut are those that are one path.** -/
theorem pieces_eq_singleton_iff {w : Text} (h : w ≠ []) : pieces w = [w] ↔ IsWhole w := by
  obtain ⟨c, w, rfl⟩ := List.exists_cons_of_ne_nil h
  refine piecesFrom_eq_singleton_iff.trans ⟨fun hgoes => ⟨?_, ?_⟩, ?_⟩
  · rintro ⟨behind, hstart⟩
    obtain ⟨rfl, rfl⟩ := List.cons.inj hstart
    exact hgoes [] '/' behind rfl (.inl ⟨rfl, rfl⟩)
  · intro before d behind hcut
    refine Decidable.byContradiction fun hd => ?_
    -- the first of the two slashes is the first character, or it stands behind that
    cases before with
    | nil =>
      obtain ⟨rfl, rfl⟩ := List.cons.inj hcut
      exact hgoes ['/'] d behind rfl (.inr ⟨hd, List.suffix_rfl⟩)
    | cons e before =>
      obtain ⟨rfl, rfl⟩ := List.cons.inj hcut
      refine hgoes (before ++ ['/', '/']) d behind (by simp) (.inr ⟨hd, ?_⟩)
      exact List.suffix_append (c :: before) ['/', '/']
  · rintro hwhole before d behind rfl (⟨rfl, hpath⟩ | ⟨hd, hpath⟩)
    · obtain ⟨rfl, rfl⟩ := List.cons.inj hpath
      exact hwhole.start ⟨behind, rfl⟩
    · obtain ⟨front, hfront⟩ := hpath
      refine hd (hwhole.inside front d behind ?_)
      rw [← List.cons_append, ← List.singleton_append (x := c), ← hfront]
      simp

/-! ## Tokens that are not cut -/

section Uncut

variable {ws : List Text}

theorem flatMap_pieces_eq_self (h : ∀ w ∈ ws, pieces w = [w]) : ws.flatMap pieces = ws := by
  induction ws with
  | nil => rfl
  | cons w ws ih =>
    rw [List.flatMap_cons, h w (List.mem_cons_self ..),
      ih fun v hv => h v (List.mem_cons_of_mem w hv), List.singleton_append]

theorem length_le_flatMap_pieces (h : ∀ w ∈ ws, w ≠ []) :
    ws.length ≤ (ws.flatMap pieces).length := by
  induction ws with
  | nil => exact Nat.le_refl 0
  | cons w ws ih =>
    have hpos := List.length_pos_iff.2 (pieces_ne_nil (h w (List.mem_cons_self ..)))
    have hle := ih fun v hv => h v (List.mem_cons_of_mem w hv)
    rw [List.flatMap_cons, List.length_cons, List.length_append]
    omega

/-- If tokens have no more pieces than there are tokens, none of them is cut. -/
theorem pieces_eq_singleton_of_length_le (h : ∀ w ∈ ws, w ≠ [])
    (hle : (ws.flatMap pieces).length ≤ ws.length) : ∀ w ∈ ws, pieces w = [w] := by
  induction ws with
  | nil => simp
  | cons w ws ih =>
    have hws : ∀ v ∈ ws, v ≠ [] := fun v hv => h v (List.mem_cons_of_mem w hv)
    have hpos := List.length_pos_iff.2 (pieces_ne_nil (h w (List.mem_cons_self ..)))
    have hothers := length_le_flatMap_pieces hws
    rw [List.flatMap_cons, List.length_cons, List.length_append] at hle
    -- the one piece of a token is the token, because its pieces make it up
    have hone : (pieces w).length = 1 := by omega
    obtain ⟨piece, hpiece⟩ := List.length_eq_one_iff.1 hone
    have hsame : piece = w := by
      have hflatten := flatten_pieces w
      rwa [hpiece, List.flatten_singleton] at hflatten
    intro v hv
    rcases List.mem_cons.1 hv with rfl | hv
    · rw [hpiece, hsame]
    · exact ih hws (by omega) v hv

end Uncut

/-! ## Reading a token -/

/-- The characters of a token that has no quotes. -/
def IsPlain (c : Char) : Prop := isBlank c = false ∧ c ≠ '"'

theorem not_suffix_concat (path : Text) {c : Char} (hc : c ≠ '/') :
    ¬ ['/', '/'] <:+ path ++ [c] := by
  rintro ⟨front, hfront⟩
  rw [List.append_cons front '/' ['/']] at hfront
  have hlast := List.append_inj_right' hfront rfl
  exact hc (List.cons.inj hlast).1.symm

theorem not_suffix_concat_slash (path : Text) {c : Char} (hc : c ≠ '/') :
    ¬ ['/', '/'] <:+ path ++ [c] ++ ['/'] := by
  rintro ⟨front, hfront⟩
  rw [List.append_assoc] at hfront
  have hlast := List.append_inj_right' hfront rfl
  exact hc (List.cons.inj hlast).1.symm

/-- A path goes on through a run without slashes, unless it ends in two slashes. -/
theorem goesOn_run {path run : Text} (hrun : ∀ c ∈ run, c ≠ '/')
    (hpath : ¬ ['/', '/'] <:+ path) : GoesOn path run := by
  induction run generalizing path with
  | nil => exact goesOn_nil path
  | cons c run ih =>
    have hc : c ≠ '/' := hrun c (List.mem_cons_self ..)
    refine goesOn_cons.2 ⟨?_, ?_⟩
    · rintro (⟨rfl, -⟩ | ⟨-, hends⟩)
      · exact hc rfl
      · exact hpath hends
    · exact ih (fun d hd => hrun d (List.mem_cons_of_mem c hd)) (not_suffix_concat path hc)

/-- A path goes on through slashes, unless it is a slash itself. -/
theorem goesOn_slashes {path slashes : Text} (hslashes : ∀ c ∈ slashes, c = '/')
    (hpath : ∃ c ∈ path, c ≠ '/') : GoesOn path slashes := by
  induction slashes generalizing path with
  | nil => exact goesOn_nil path
  | cons c slashes ih =>
    obtain rfl : c = '/' := hslashes c (List.mem_cons_self ..)
    obtain ⟨d, hd, hne⟩ := hpath
    refine goesOn_cons.2 ⟨?_, ?_⟩
    · rintro (⟨-, rfl⟩ | ⟨hslash, -⟩)
      · exact hne (List.mem_singleton.1 hd)
      · exact hslash rfl
    · exact ih (fun e he => hslashes e (List.mem_cons_of_mem _ he))
        ⟨d, List.mem_append_left _ hd, hne⟩

/-- A word without slashes is read up to the next slash or to the end of its token. -/
theorem read_word_run {run behind : Text} (hne : run ≠ []) (hrun : ∀ c ∈ run, IsPlain c ∧ c ≠ '/')
    (hbehind : ∀ c, behind.head? = some c → isBlank c ∨ c = '/') :
    Word.read ['/'] (run ++ behind) = some (.bare run, behind) := by
  apply Word.read_run hne fun hquote => (hrun _ hquote).1.2 rfl
  · intro c hc
    obtain ⟨⟨hblank, -⟩, hslash⟩ := hrun c hc
    exact ⟨hblank, by simpa using hslash⟩
  · intro c hc
    exact (hbehind c hc).imp_right List.mem_singleton.2

/-- There is no word before a slash or behind a token. -/
theorem read_word_eq_none {t : Text} (h : ∀ c, t.head? = some c → isBlank c ∨ c = '/') :
    Word.read ['/'] t = none := by
  refine Word.read_eq_none fun c hc => ⟨?_, (h c hc).imp_right List.mem_singleton.2⟩
  rintro rfl
  exact absurd (h '"' hc) (by decide)

/-- A part of a token that is not empty and does not begin with a slash begins with a word: a run
without slashes, with nothing or a slash behind it. -/
theorem exists_run {w : Text} (hw : ∀ c ∈ w, IsPlain c) (h : ¬ ∀ c, w.head? = some c → c = '/') :
    ∃ run behind, w = run ++ behind ∧ run ≠ [] ∧ (∀ c ∈ run, IsPlain c ∧ c ≠ '/') ∧
      ∀ c, behind.head? = some c → c = '/' := by
  refine ⟨w.takeWhile (· ≠ '/'), w.dropWhile (· ≠ '/'), List.takeWhile_append_dropWhile.symm,
    ?_, fun c hc => ⟨hw c ((List.takeWhile_sublist _).subset hc), ?_⟩, fun c hc => ?_⟩
  · cases w with
    | nil => exact absurd nofun h
    | cons c w =>
      have hc : c ≠ '/' := by simpa using h
      rw [List.takeWhile_cons_of_pos (by simpa using hc)]
      exact List.cons_ne_nil c _
  · simpa using List.all_eq_true.1 List.all_takeWhile c hc
  · simpa using Text.eq_false_of_head?_dropWhile hc

/-- What stands behind a part of a token: the rest of it, or what is behind the token. -/
theorem head?_append_of_endsToken {p : Char → Prop} {w rest : Text}
    (hw : ∀ c, w.head? = some c → p c) (hrest : Text.EndsToken rest) :
    ∀ c, (w ++ rest).head? = some c → isBlank c ∨ p c := by
  intro c hc
  cases w with
  | nil => exact .inl (hrest c hc)
  | cons d w => exact .inr (hw c hc)

/-- The paths that end in a word, so far. -/
def EndsInWord (path : Text) : Prop := ∃ front c, path = front ++ [c] ∧ c ≠ '/'

theorem endsInWord_append (path : Text) {run : Text} (hne : run ≠ [])
    (hrun : ∀ c ∈ run, IsPlain c ∧ c ≠ '/') : EndsInWord (path ++ run) := by
  obtain ⟨init, c, rfl⟩ := (List.eq_nil_or_concat run).resolve_left hne
  refine ⟨path ++ init, c, ?_, (hrun c (by simp)).2⟩
  rw [List.concat_eq_append, List.append_assoc]

/-- One slash and a word go on with a path that ends in a word. -/
theorem piecesFrom_word {path run : Text} (hpath : EndsInWord path)
    (hrun : ∀ c ∈ run, IsPlain c ∧ c ≠ '/') (w : Text) :
    piecesFrom path ('/' :: (run ++ w)) = piecesFrom (path ++ ['/'] ++ run) w := by
  obtain ⟨front, d, rfl, hd⟩ := hpath
  have hslash : GoesOn (front ++ [d]) ['/'] :=
    goesOn_slashes (fun c hc => List.mem_singleton.1 hc) ⟨d, by simp, hd⟩
  have hword : GoesOn (front ++ [d] ++ ['/']) run :=
    goesOn_run (fun c hc => (hrun c hc).2) (not_suffix_concat_slash front hd)
  rw [← piecesFrom_append hword, ← piecesFrom_append hslash]
  rfl

theorem suffix_slashes {slashes : Text} (hslashes : ∀ c ∈ slashes, c = '/') (hne : slashes ≠ []) :
    ['/', '/'] <:+ '/' :: slashes := by
  induction slashes with
  | nil => exact absurd rfl hne
  | cons c slashes ih =>
    obtain rfl : c = '/' := hslashes c (List.mem_cons_self ..)
    cases slashes with
    | nil => exact List.suffix_rfl
    | cons d slashes =>
      have hsuffix := ih (fun e he => hslashes e (List.mem_cons_of_mem _ he))
        (List.cons_ne_nil d slashes)
      exact hsuffix.trans (List.suffix_cons ..)

section Slashes

variable {slashes left : Text} (hslashes : ∀ c ∈ slashes, c = '/')
  (hleft : ∀ c, left.head? = some c → c ≠ '/')

include hslashes hleft

/-- Slashes without a word behind the first of them are read to their end. -/
theorem readTail_slashes (hnext : ∀ c, (slashes ++ left).head? = some c → c = '/') {rest : Text}
    (hrest : Text.EndsToken rest) :
    readTail ('/' :: (slashes ++ left) ++ rest) = ('/' :: slashes, left ++ rest) := by
  have hrun : ∀ c ∈ '/' :: slashes, (c == '/') = true := by simpa using hslashes
  have hstop : ∀ c, (left ++ rest).head? = some c → (c == '/') = false := by
    intro c hc
    rw [beq_eq_false_iff_ne]
    rcases head?_append_of_endsToken hleft hrest c hc with hblank | hslash
    · rintro rfl
      exact absurd hblank (by decide)
    · exact hslash
  rw [List.cons_append, readTail_slash, read_word_eq_none (head?_append_of_endsToken hnext hrest),
    List.append_assoc, ← List.cons_append]
  exact Prod.ext (Text.takeWhile_run hrun hstop) (Text.dropWhile_run hrun hstop)

/-- Behind such slashes a path is cut, if something is left of its token. -/
theorem piecesFrom_cut (hnext : ∀ c, (slashes ++ left).head? = some c → c = '/') {path : Text}
    (hpath : EndsInWord path) :
    piecesFrom path ('/' :: (slashes ++ left)) = (path ++ '/' :: slashes) :: pieces left := by
  obtain ⟨front, d, rfl, hd⟩ := hpath
  have hall : ∀ c ∈ '/' :: slashes, c = '/' := by simpa using hslashes
  rw [← List.cons_append, piecesFrom_append (goesOn_slashes hall ⟨d, by simp, hd⟩)]
  cases left with
  | nil => rfl
  | cons c left =>
    have hc : c ≠ '/' := hleft c rfl
    have hne : slashes ≠ [] := by
      rintro rfl
      exact hc (hnext c rfl)
    have hsuffix := (suffix_slashes hslashes hne).trans (List.suffix_append (front ++ [d]) _)
    rw [piecesFrom, if_pos (.inr ⟨hc, hsuffix⟩)]
    rfl

end Slashes

/-- **Behind a word**, a path is read up to its first cut. -/
theorem readTail_token {path w rest : Text} (hpath : EndsInWord path) (hw : ∀ c ∈ w, IsPlain c)
    (hhead : ∀ c, w.head? = some c → c = '/') (hrest : Text.EndsToken rest) :
    ∃ tail behind, w = tail ++ behind ∧ readTail (w ++ rest) = (tail, behind ++ rest) ∧
      piecesFrom path w = (path ++ tail) :: pieces behind := by
  -- a slash and a word go on with the path, and what is left of the token is shorter
  induction hlength : w.length using Nat.strongRecOn generalizing path w with
  | ind n ih =>
    subst hlength
    cases w with
    | nil =>
      refine ⟨[], [], rfl, readTail_of_after_eq_none ?_, by rw [List.append_nil]; rfl⟩
      cases hafter : Text.after ['/'] ([] ++ rest) with
      | none => rfl
      | some left =>
        rw [List.nil_append, Text.after_eq_some_iff] at hafter
        exact absurd (hrest '/' (by rw [hafter]; rfl)) (by decide)
    | cons c w =>
      obtain rfl : c = '/' := hhead c rfl
      have hw' : ∀ c ∈ w, IsPlain c := fun c hc => hw c (List.mem_cons_of_mem _ hc)
      by_cases hnext : ∀ e, w.head? = some e → e = '/'
      · have hcut := List.takeWhile_append_dropWhile (p := (· == '/')) (l := w)
        have hslashes : ∀ c ∈ w.takeWhile (· == '/'), c = '/' := by
          intro c hc
          simpa using List.all_eq_true.1 List.all_takeWhile c hc
        have hleft : ∀ c, (w.dropWhile (· == '/')).head? = some c → c ≠ '/' := by
          intro c hc
          simpa using Text.eq_false_of_head?_dropWhile hc
        rw [← hcut] at hnext ⊢
        exact ⟨_, _, rfl, readTail_slashes hslashes hleft hnext hrest,
          piecesFrom_cut hslashes hleft hnext hpath⟩
      · obtain ⟨run, left, rfl, hrunne, hrun, hleft⟩ := exists_run hw' hnext
        have hshorter : left.length < ('/' :: (run ++ left)).length := by
          simp only [List.length_cons, List.length_append]
          omega
        obtain ⟨tail, behind, rfl, htail, hpieces⟩ := ih _ hshorter
          (endsInWord_append (path ++ ['/']) hrunne hrun)
          (fun c hc => hw' c (List.mem_append_right _ hc)) hleft rfl
        refine ⟨'/' :: (run ++ tail), behind, by simp, ?_, ?_⟩
        · rw [List.cons_append, readTail_slash, List.append_assoc,
            read_word_run hrunne hrun (head?_append_of_endsToken hleft hrest)]
          simp only [htail]
          rfl
        · rw [piecesFrom_word hpath hrun, hpieces]
          simp

/-- The first word of a token, at its beginning or behind one slash, goes on to the next slash. -/
theorem pieces_run {before run : Text} (hbefore : before = [] ∨ before = ['/']) (hne : run ≠ [])
    (hrun : ∀ c ∈ run, IsPlain c ∧ c ≠ '/') (w : Text) :
    pieces (before ++ (run ++ w)) = piecesFrom (before ++ run) w := by
  rcases hbefore with rfl | rfl
  · obtain ⟨c, run, rfl⟩ := List.exists_cons_of_ne_nil hne
    exact piecesFrom_append (goesOn_run (fun d hd => (hrun d (List.mem_cons_of_mem c hd)).2)
      (not_suffix_concat [] (hrun c (List.mem_cons_self ..)).2)) w
  · exact piecesFrom_append (goesOn_run (fun c hc => (hrun c hc).2) (by decide)) w

/-- A relative path at the beginning of a token, or behind one slash there, is read up to its first
cut. -/
theorem readRelative_token {before w rest : Text} (hbefore : before = [] ∨ before = ['/'])
    (hw : ∀ c ∈ w, IsPlain c) (hnext : ¬ ∀ c, w.head? = some c → c = '/')
    (hrest : Text.EndsToken rest) :
    ∃ path behind, w = path ++ behind ∧ readRelative (w ++ rest) = some (path, behind ++ rest) ∧
      pieces (before ++ w) = (before ++ path) :: pieces behind := by
  obtain ⟨run, left, rfl, hne, hrun, hleft⟩ := exists_run hw hnext
  obtain ⟨tail, behind, rfl, htail, hpieces⟩ := readTail_token (endsInWord_append before hne hrun)
    (fun c hc => hw c (List.mem_append_right _ hc)) hleft hrest
  refine ⟨run ++ tail, behind, by simp, ?_, ?_⟩
  · rw [readRelative, List.append_assoc,
      read_word_run hne hrun (head?_append_of_endsToken hleft hrest), Option.map_some]
    simp only [htail]
    rfl
  · rw [pieces_run hbefore hne hrun, hpieces, List.append_assoc]

/-- **A token is read up to its first cut**, and the rest of it is cut as if it stood alone. -/
theorem read_token {w rest : Text} (hne : w ≠ []) (hw : ∀ c ∈ w, IsPlain c)
    (hrest : Text.EndsToken rest) :
    ∃ path behind, w = path ++ behind ∧ read (w ++ rest) = some (path, behind ++ rest) ∧
      pieces w = path :: pieces behind := by
  obtain ⟨c, w, rfl⟩ := List.exists_cons_of_ne_nil hne
  by_cases hc : c = '/'
  · subst hc
    have hw' : ∀ c ∈ w, IsPlain c := fun c hc => hw c (List.mem_cons_of_mem _ hc)
    rw [List.cons_append, read, if_pos rfl]
    by_cases hnext : ∀ e, w.head? = some e → e = '/'
    · -- no word behind the slash, so it is a path of its own
      have hnone : readRelative (w ++ rest) = none := by
        rw [readRelative, read_word_eq_none (head?_append_of_endsToken hnext hrest)]
        rfl
      refine ⟨['/'], w, rfl, by rw [hnone], ?_⟩
      cases w with
      | nil => rfl
      | cons e w =>
        obtain rfl : e = '/' := hnext e rfl
        rfl
    · obtain ⟨path, behind, rfl, hread, hpieces⟩ :=
        readRelative_token (.inr rfl) hw' hnext hrest
      exact ⟨'/' :: path, behind, rfl, by rw [hread], hpieces⟩
  · obtain ⟨path, behind, hcut, hread, hpieces⟩ :=
      readRelative_token (.inl rfl) hw (fun hnext => hc (hnext c rfl)) hrest
    refine ⟨path, behind, hcut, ?_, hpieces⟩
    rw [← hread, List.cons_append, read, if_neg hc]

end Path

end Dockerlint
