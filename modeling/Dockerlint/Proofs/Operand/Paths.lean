import Dockerlint.Proofs.Operand.Blanks
import Dockerlint.Proofs.Path

/-!
# The paths of a transfer

The sources and the destination of a transfer are meant to be separated by blanks. But paths are
read one behind the other with any blanks between them, also none. What is left of a token behind
the end of a path is read as the next path. So blanks alone separate paths exactly if every token is
one path.

## Main definitions

* `Args.SplitsAtBlanks`: the transfers whose paths are the tokens of the argument

## Main results

* `Transfer.readPaths_tokens`: paths are the pieces of the tokens
* `Transfer.read_eq_ok_iff`: the transfers without flags, arrays and quotes
* `Args.read_transfer_iff`: blanks alone separate paths exactly if every token is one path
-/

namespace Dockerlint

/-! ## Reading an argument -/

namespace Transfer

/-- A token is read as its pieces, and then the text behind it is read. -/
theorem readPaths_token {w rest : Text} (hne : w ≠ []) (hw : ∀ c ∈ w, Path.IsPlain c)
    (hrest : Text.EndsToken rest) : readPaths (w ++ rest) =
      if Text.trimLeft rest = [] then .ok (Path.pieces w)
      else (readPaths (Text.trimLeft rest)).map (Path.pieces w ++ ·) := by
  induction hlength : w.length using Nat.strongRecOn generalizing w with
  | ind n ih =>
    subst hlength
    obtain ⟨path, behind, hcut, hread, hpieces⟩ := Path.read_token hne hw hrest
    have hpath := (Path.read_eq_some hread).2
    rw [readPaths_eq, hread, hpieces]
    simp only
    cases behind with
    | nil =>
      rw [List.nil_append]
      rfl
    | cons c behind =>
      have hc : Path.IsPlain c := hw c (by simp [hcut])
      have htrim : Text.trimLeft (c :: behind ++ rest) = c :: behind ++ rest :=
        Text.trimLeft_eq_self hc.1
      have hshorter : (c :: behind).length < w.length := by
        have hpos := List.length_pos_iff.2 hpath
        rw [hcut, List.length_append]
        omega
      have hbehind : ∀ d ∈ c :: behind, Path.IsPlain d := by
        intro d hd
        exact hw d (hcut ▸ List.mem_append_right _ hd)
      have hne : c :: behind ++ rest ≠ [] := List.cons_ne_nil c _
      rw [htrim, if_neg hne, ih _ hshorter (List.cons_ne_nil c _) hbehind rfl]
      split
      · rfl
      · cases readPaths (Text.trimLeft rest) <;> rfl

/-- **Paths are the pieces of the tokens**, one token behind the other. -/
theorem readPaths_tokens {t : Text} (hquote : '"' ∉ t) : readPaths (Text.trimLeft t) =
    if Text.tokens t = [] then .error (.expected .path [])
    else .ok ((Text.tokens t).flatMap Path.pieces) := by
  induction t using Text.tokens_induction with
  | blank t hblank htokens =>
    rw [hblank, htokens, readPaths_eq]
    rfl
  | token t w rest hcut hw hrest htokens ih =>
    have hmem : ∀ c ∈ w ++ rest, c ∈ t := by
      rw [← hcut]
      exact fun c hc => (Text.trimLeft_suffix t).subset hc
    have hplain : ∀ c ∈ w, Path.IsPlain c := by
      intro c hc
      refine ⟨hw.not_blank c hc, ?_⟩
      rintro rfl
      exact hquote (hmem _ (List.mem_append_left _ hc))
    have hrestquote : '"' ∉ rest := fun hc => hquote (hmem _ (List.mem_append_right _ hc))
    rw [hcut, readPaths_token hw.ne_nil hplain hrest, ih hrestquote, htokens,
      if_neg (List.cons_ne_nil w _), List.flatMap_cons]
    -- the token is the last one, or there are others behind it
    by_cases hlast : Text.trimLeft rest = []
    · rw [if_pos hlast, Text.tokens_eq_nil_iff.2 hlast, List.flatMap_nil, List.append_nil]
    · rw [if_neg hlast, if_neg fun hnil => hlast (Text.tokens_eq_nil_iff.1 hnil)]
      rfl

theorem divide_eq_some_iff {paths sources : List Text} {destination : Text} :
    divide paths = some (sources, destination) ↔
      sources ≠ [] ∧ paths = sources ++ [destination] := by
  constructor
  · intro h
    refine ⟨sources_ne_nil_of_divide h, ?_⟩
    rcases List.eq_nil_or_concat paths with rfl | ⟨init, last, rfl⟩
    · cases h
    · rw [List.concat_eq_append] at h ⊢
      have hne : init ≠ [] := by
        rintro rfl
        cases h
      rw [divide_concat hne] at h
      obtain ⟨rfl, rfl⟩ := Prod.mk.inj (Option.some.inj h)
      rfl
  · rintro ⟨hne, rfl⟩
    exact divide_concat hne destination

/-- Without a bracket in front, sources and destination are paths. -/
theorem readParts_eq_ok_iff {t : Text} (h : ¬ ['['] <+: t) {parts : List Text × Text} :
    readParts t = .ok parts ↔ ∃ paths, readPaths t = .ok paths ∧ divide paths = some parts := by
  have harray : ∃ m, readArray t = .error m := by
    cases t with
    | nil => exact ⟨_, rfl⟩
    | cons c t =>
      have hc : c ≠ '[' := by
        rintro rfl
        exact h ⟨t, rfl⟩
      rw [readArray, Reader.array, if_neg hc]
      exact ⟨_, rfl⟩
  obtain ⟨m, hm⟩ := harray
  rw [readParts, hm, readShell]
  cases hpaths : readPaths t with
  | error n => simp
  | ok paths =>
    cases hdivide : divide paths with
    | none => simp [Expectation.require, hdivide]
    | some found => simp [Expectation.require, hdivide]

/-- **The transfers without flags, arrays and quotes**: sources and destination are the pieces of the
tokens, and there are two or more. -/
theorem read_eq_ok_iff {t : Text} (hquote : '"' ∉ t) (hbracket : ¬ ['['] <+: Text.trimLeft t)
    (hdashes : ¬ ['-', '-'] <+: Text.trimLeft t) {parts : Transfer} :
    Transfer.read t = .ok parts ↔ parts.owner = none ∧ parts.origin = none ∧
      parts.sources ≠ [] ∧
      parts.sources ++ [parts.destination] = (Text.tokens t).flatMap Path.pieces := by
  have hpaths := readPaths_tokens hquote
  rw [Transfer.read, readAll_of_not_dashes hdashes]
  constructor
  · intro h
    obtain ⟨⟨sources, destination⟩, hparts, rfl⟩ := exists_of_map_eq_ok h
    obtain ⟨paths, hread, hdivide⟩ := (readParts_eq_ok_iff hbracket).1 hparts
    obtain ⟨hne, rfl⟩ := divide_eq_some_iff.1 hdivide
    rw [hread] at hpaths
    split at hpaths
    · cases hpaths
    · exact ⟨rfl, rfl, hne, Except.ok.inj hpaths⟩
  · rintro ⟨howner, horigin, hne, hcut⟩
    have htokens : Text.tokens t ≠ [] := by
      intro hnil
      rw [hnil, List.flatMap_nil] at hcut
      exact hne (List.append_eq_nil_iff.1 hcut).1
    rw [if_neg htokens, ← hcut] at hpaths
    have hparts := (readParts_eq_ok_iff hbracket).2 ⟨_, hpaths, divide_eq_some_iff.2 ⟨hne, rfl⟩⟩
    simp only [hparts]
    obtain ⟨owner, origin, sources, destination⟩ := parts
    obtain rfl : owner = none := howner
    obtain rfl : origin = none := horigin
    rfl

end Transfer

/-! ## Blanks between paths -/

namespace Args

/-- The transfers whose paths are separated by blanks alone: the argument fits if it has two or more
tokens, and then its tokens are the sources and the destination, without flags. -/
structure SplitsAtBlanks (k : Keyword) (argument : Text) : Prop where
  accepts : (∃ args, Args.read k argument = .ok args) ↔ 2 ≤ (Text.tokens argument).length
  parts : ∀ args, Args.read k argument = .ok args → ∃ parts : Transfer,
    args = .ofOperand k (.transfer parts) ∧
      parts.sources ++ [parts.destination] = Text.tokens argument ∧
      parts.owner = none ∧ parts.origin = none

theorem form_transfer {k : Keyword} (hk : k = .add ∨ k = .copy) : k.form? = some .transfer := by
  rcases hk with rfl | rfl
  · rfl
  · rfl

theorem read_transfer {k : Keyword} (hk : k = .add ∨ k = .copy) (argument : Text) :
    Args.read k argument =
      (Transfer.read argument).map fun parts => .ofOperand k (.transfer parts) :=
  read_eq_map (form_transfer hk) _ rfl

theorem read_transfer_eq_ok_iff {k : Keyword} (hk : k = .add ∨ k = .copy) {argument : Text}
    (hquote : '"' ∉ argument) (hbracket : ¬ ['['] <+: Text.trimLeft argument)
    (hdashes : ¬ ['-', '-'] <+: Text.trimLeft argument) {args : Args} :
    Args.read k argument = .ok args ↔ ∃ parts : Transfer,
      args = .ofOperand k (.transfer parts) ∧ parts.owner = none ∧ parts.origin = none ∧
      parts.sources ≠ [] ∧
      parts.sources ++ [parts.destination] = (Text.tokens argument).flatMap Path.pieces := by
  rw [read_transfer hk]
  constructor
  · intro h
    obtain ⟨parts, hparts, rfl⟩ := exists_of_map_eq_ok h
    exact ⟨parts, rfl, (Transfer.read_eq_ok_iff hquote hbracket hdashes).1 hparts⟩
  · rintro ⟨parts, rfl, hparts⟩
    rw [(Transfer.read_eq_ok_iff hquote hbracket hdashes).2 hparts]
    rfl

/-- **Blanks alone separate paths exactly if every token is one path.** The argument of an `ADD` or a
`COPY` that has no quotes and begins neither with a bracket nor with a flag fits exactly if its
tokens have two or more pieces, and these are its sources and its destination. So the pieces are the
tokens exactly if no token begins with two slashes or goes on behind two slashes. -/
theorem read_transfer_iff {k : Keyword} (hk : k = .add ∨ k = .copy) {argument : Text}
    (hquote : '"' ∉ argument) (hbracket : ¬ ['['] <+: Text.trimLeft argument)
    (hdashes : ¬ ['-', '-'] <+: Text.trimLeft argument) :
    (∀ args, Args.read k argument = .ok args ↔ ∃ parts : Transfer,
      args = .ofOperand k (.transfer parts) ∧ parts.owner = none ∧ parts.origin = none ∧
        parts.sources ≠ [] ∧
        parts.sources ++ [parts.destination] = (Text.tokens argument).flatMap Path.pieces) ∧
    (SplitsAtBlanks k argument ↔ ∀ w ∈ Text.tokens argument, Path.IsWhole w) := by
  have hread := @read_transfer_eq_ok_iff k hk argument hquote hbracket hdashes
  have hne : ∀ w ∈ Text.tokens argument, w ≠ [] := fun w hw => (Text.isToken_of_mem_tokens hw).ne_nil
  have hwhole : (∀ w ∈ Text.tokens argument, Path.IsWhole w) ↔
      ∀ w ∈ Text.tokens argument, Path.pieces w = [w] :=
    forall₂_congr fun w hw => (Path.pieces_eq_singleton_iff (hne w hw)).symm
  refine ⟨fun args => hread, ?_⟩
  rw [hwhole]
  constructor
  · intro hsplits
    refine Path.pieces_eq_singleton_of_length_le hne ?_
    by_cases htwo : 2 ≤ ((Text.tokens argument).flatMap Path.pieces).length
    · -- the argument fits, so its tokens are its paths
      obtain ⟨sources, destination, hsources, hcut⟩ := Transfer.exists_concat_of_two_le htwo
      have hok := hread.2 ⟨⟨none, none, sources, destination⟩, rfl, rfl, rfl, hsources, hcut.symm⟩
      obtain ⟨parts, hparts, htokens, -⟩ := hsplits.parts _ hok
      cases (ofOperand_inj (form_transfer hk) (form_transfer hk)).1 hparts
      rw [hcut, htokens]
    · cases htokens : Text.tokens argument with
      | nil => exact Nat.le_refl 0
      | cons w ws =>
        rw [htokens] at htwo
        rw [List.length_cons]
        omega
  · intro huncut
    have htokens := Path.flatMap_pieces_eq_self huncut
    rw [htokens] at hread
    refine ⟨⟨?_, ?_⟩, ?_⟩
    · rintro ⟨args, hargs⟩
      obtain ⟨parts, -, -, -, hsources, hcut⟩ := hread.1 hargs
      have hpos := List.length_pos_iff.2 hsources
      rw [← hcut, List.length_append, List.length_singleton]
      omega
    · intro htwo
      obtain ⟨sources, destination, hsources, hcut⟩ := Transfer.exists_concat_of_two_le htwo
      exact ⟨_, hread.2 ⟨⟨none, none, sources, destination⟩, rfl, rfl, rfl, hsources, hcut.symm⟩⟩
    · intro args hargs
      obtain ⟨parts, rfl, howner, horigin, -, hcut⟩ := hread.1 hargs
      exact ⟨parts, rfl, hcut, howner, horigin⟩

/-- Slashes at the beginning, between words and at the end of tokens. -/
theorem read_transfer_iff_slashes :
    '"' ∉ " a b//\t/c/d/".toList ∧ ¬ ['['] <+: Text.trimLeft " a b//\t/c/d/".toList ∧
      ¬ ['-', '-'] <+: Text.trimLeft " a b//\t/c/d/".toList ∧
      SplitsAtBlanks .copy " a b//\t/c/d/".toList ∧
      Args.read .copy " a b//\t/c/d/".toList = .ok (.copy
        { sources := some ["a".toList, "b//".toList], destination := some "/c/d/".toList }) := by
  have hquote : '"' ∉ " a b//\t/c/d/".toList := by decide
  have hbracket : ¬ ['['] <+: Text.trimLeft " a b//\t/c/d/".toList := by decide
  have hdashes : ¬ ['-', '-'] <+: Text.trimLeft " a b//\t/c/d/".toList := by decide
  have htokens : Text.tokens " a b//\t/c/d/".toList =
      ["a".toList, "b//".toList, "/c/d/".toList] := by decide
  have hwhole : ∀ w ∈ Text.tokens " a b//\t/c/d/".toList, Path.IsWhole w := by
    intro w hw
    rw [htokens] at hw
    rw [← Path.pieces_eq_singleton_iff]
    · revert w
      decide
    · revert w
      decide
  obtain ⟨hread, hsplits⟩ := read_transfer_iff (.inr rfl) hquote hbracket hdashes
  refine ⟨hquote, hbracket, hdashes, hsplits.2 hwhole, (hread _).2
    ⟨⟨none, none, ["a".toList, "b//".toList], "/c/d/".toList⟩, rfl, rfl, rfl, ?_, ?_⟩⟩
  · exact List.cons_ne_nil _ _
  · decide

/-- An address is cut behind its two slashes, and so is a token that stands alone: it fits though
there is no second token. -/
theorem not_splitsAtBlanks_address :
    Args.read .copy "https://a.b/c d".toList = .ok (.copy
        { sources := some ["https://".toList, "a.b/c".toList], destination := some "d".toList }) ∧
      Text.tokens "https://a.b/c d".toList = ["https://a.b/c".toList, "d".toList] ∧
      ¬ SplitsAtBlanks .copy "https://a.b/c d".toList ∧
      Text.tokens "a//b".toList = ["a//b".toList] ∧ ¬ SplitsAtBlanks .add "a//b".toList := by
  have hread : Args.read .copy "https://a.b/c d".toList = .ok (.copy
      { sources := some ["https://".toList, "a.b/c".toList], destination := some "d".toList }) := by
    cbv
  have halone : Args.read .add "a//b".toList =
      .ok (.add { sources := some ["a//".toList], destination := some "b".toList }) := by
    cbv
  refine ⟨hread, by decide, fun hsplits => ?_, by decide, fun hsplits => ?_⟩
  · obtain ⟨parts, hparts, htokens, -⟩ := hsplits.parts _ hread
    obtain ⟨-, -, hsources, hdestination⟩ := TransferArgs.mk.inj (copy.inj hparts)
    rw [← Option.some.inj hsources, ← Option.some.inj hdestination] at htokens
    revert htokens
    decide
  · have htwo := hsplits.accepts.1 ⟨_, halone⟩
    revert htwo
    decide

end Args

end Dockerlint
