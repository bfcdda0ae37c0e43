import Dockerlint.Proofs.Operand.Blanks
import Dockerlint.Proofs.Token

/-!
# The two styles of assignments

An argument of `ENV` or `LABEL` is a sequence of `key=value`, or a key and the words of its value. The
reader tries the first style and turns to the second only if not even one assignment was read. By the
tokens of an argument without quotes, the first token decides: it is an assignment if it has an
equals sign with a key in front. If it is one, every other token must be one; if it is none, all other
tokens are the value. An equals sign at the beginning of a token has no key in front, and further
equals signs behind it do not make the token an assignment.

## Main definitions

* `Assignments.IsPair`: the tokens that are assignments
* `Assignments.pairOf`: the key and the value of such a token
* `Args.TwoStyles`: the first token decides between the styles

## Main results

* `Assignments.readPairs_tokens`: assignments are read up to the first token that is none
* `Args.twoStyles`: the two styles of an argument without quotes
-/

namespace Dockerlint

/-! ## Tokens that are assignments -/

namespace Assignments

/-- The tokens that are assignments: there is an equals sign, and not at the beginning. -/
def IsPair (w : Text) : Prop := '=' ∈ w ∧ w.head? ≠ some '='

instance decidableIsPair : DecidablePred IsPair := fun w =>
  inferInstanceAs (Decidable ('=' ∈ w ∧ w.head? ≠ some '='))

/-- The text before the first equals sign of a token, and the text behind it. -/
def pairOf (w : Text) : Text × Text :=
  (w.takeWhile (· ≠ '='), (w.dropWhile (· ≠ '=')).tail)

example : pairOf "a=b=c".toList = ("a".toList, "b=c".toList) := by decide

section Token

variable {t w rest : Text}

/-- The key and the value of an assignment make it up. -/
theorem IsPair.exists_eq (h : IsPair w) :
    ∃ key value, pairOf w = (key, value) ∧ w = key ++ '=' :: value ∧ key ≠ [] ∧ '=' ∉ key := by
  obtain ⟨hmem, hhead⟩ := h
  refine ⟨_, _, rfl, ?_, ?_, ?_⟩
  · -- the search stops at an equals sign, because there is one
    have hcut := List.takeWhile_append_dropWhile (p := (· ≠ '=')) (l := w)
    cases hrest : w.dropWhile (· ≠ '=') with
    | nil =>
      have hall := List.dropWhile_eq_nil_iff.1 hrest '=' hmem
      simp at hall
    | cons c value =>
      have hc : c = '=' := by
        simpa using Text.eq_false_of_head?_dropWhile (p := (· ≠ '=')) (t := w) (by rw [hrest]; rfl)
      rw [hrest, hc] at hcut
      exact hcut.symm
  · cases w with
    | nil => cases hmem
    | cons c w =>
      have hc : c ≠ '=' := by simpa using hhead
      rw [List.takeWhile_cons_of_pos (by simpa using hc)]
      exact List.cons_ne_nil c _
  · intro hkey
    simpa using List.all_eq_true.1 List.all_takeWhile '=' hkey

/-- The value behind an equals sign is the rest of the token, also where that is nothing. -/
theorem readValue_token (hw : ∀ c ∈ w, isBlank c = false) (hquote : '"' ∉ w)
    (hrest : Text.EndsToken rest) : readValue (w ++ rest) = (w, rest) := by
  rw [readValue]
  by_cases hnil : w = []
  · rw [hnil, List.nil_append, Word.read_eq_none_of_endsToken [] hrest]
  · rw [Word.read_token ⟨hnil, hw⟩ hquote hrest]
    rfl

/-- A token that is an assignment is read, and then the text behind it. -/
theorem readPairs_pair (hcut : Text.trimLeft t = w ++ rest) (hw : Text.IsToken w)
    (hquote : '"' ∉ w) (hrest : Text.EndsToken rest) (h : IsPair w) :
    readPairs t = (pairOf w :: (readPairs rest).1, (readPairs rest).2) := by
  obtain ⟨key, value, hpair, hsplit, hne, hequals⟩ := h.exists_eq
  have hkey : ∀ c ∈ key, c ∈ w := by
    intro c hc
    rw [hsplit]
    exact List.mem_append_left _ hc
  have hvalue : ∀ c ∈ value, c ∈ w := by
    intro c hc
    rw [hsplit]
    exact List.mem_append_right _ (List.mem_cons_of_mem _ hc)
  have hread : Word.read ['='] (w ++ rest) = some (.bare key, '=' :: (value ++ rest)) := by
    rw [hsplit, List.append_assoc, List.cons_append]
    apply Word.read_run hne fun hc => hquote (hkey _ hc)
    · intro c hc
      refine ⟨hw.not_blank c (hkey c hc), ?_⟩
      rw [List.mem_singleton]
      rintro rfl
      exact hequals hc
    · intro c hc
      rw [← Option.some.inj hc]
      exact .inr (List.mem_singleton_self _)
  have hbehind : readValue (value ++ rest) = (value, rest) :=
    readValue_token (fun c hc => hw.not_blank c (hvalue c hc)) (fun hc => hquote (hvalue _ hc)) hrest
  rw [readPairs_eq, hcut, hread, hpair]
  simp [Text.after, hbehind, Word.value]

/-- No assignment is read from a token that is none. -/
theorem readPairs_of_not_isPair (hcut : Text.trimLeft t = w ++ rest) (hw : Text.IsToken w)
    (hquote : '"' ∉ w) (hrest : Text.EndsToken rest) (h : ¬ IsPair w) : readPairs t = ([], t) := by
  rw [readPairs_eq, hcut]
  by_cases hequals : '=' ∈ w
  · -- the equals sign is the first character, and there is no key before it
    obtain ⟨v, rfl⟩ := List.head?_eq_some_iff.1 (not_not.1 fun hhead => h ⟨hequals, hhead⟩)
    have hnone : Word.read ['='] ('=' :: v ++ rest) = none := by
      refine Word.read_eq_none fun c hc => ?_
      rw [← Option.some.inj hc]
      decide
    rw [hnone]
  · -- the whole token would be the key, but there is no equals sign behind it
    have hread : Word.read ['='] (w ++ rest) = some (.bare w, rest) := by
      apply Word.read_run hw.ne_nil hquote
      · intro c hc
        refine ⟨hw.not_blank c hc, ?_⟩
        rw [List.mem_singleton]
        rintro rfl
        exact hequals hc
      · exact fun c hc => .inl (hrest c hc)
    have hafter : Text.after ['='] rest = none := by
      cases hafter : Text.after ['='] rest with
      | none => rfl
      | some left =>
        rw [Text.after_eq_some_iff] at hafter
        have hblank := hrest '=' (by rw [hafter]; rfl)
        exact absurd hblank (by decide)
    rw [hread]
    simp only [hafter]

/-- **Assignments are read up to the first token that is none.** -/
theorem readPairs_tokens (hquote : '"' ∉ t) :
    (readPairs t).1 = ((Text.tokens t).takeWhile (IsPair ·)).map pairOf ∧
      Text.tokens (readPairs t).2 = (Text.tokens t).dropWhile (IsPair ·) := by
  induction t using Text.tokens_induction with
  | blank t hblank htokens =>
    rw [readPairs_eq, hblank, htokens]
    exact ⟨rfl, htokens⟩
  | token t w rest hcut hw hrest htokens ih =>
    have hmem : ∀ {c}, c ∈ w ++ rest → c ∈ t := Text.mem_of_trimLeft_eq hcut
    have hquote' : '"' ∉ w := fun hc => hquote (hmem (List.mem_append_left _ hc))
    obtain ⟨hpairs, hleft⟩ := ih fun hc => hquote (hmem (List.mem_append_right _ hc))
    by_cases hpair : IsPair w
    · rw [readPairs_pair hcut hw hquote' hrest hpair, htokens,
        List.takeWhile_cons_of_pos (by simpa using hpair),
        List.dropWhile_cons_of_pos (by simpa using hpair), List.map_cons]
      exact ⟨congrArg (pairOf w :: ·) hpairs, hleft⟩
    · rw [readPairs_of_not_isPair hcut hw hquote' hrest hpair, htokens,
        List.takeWhile_cons_of_neg (by simpa using hpair),
        List.dropWhile_cons_of_neg (by simpa using hpair), ← htokens]
      exact ⟨rfl, rfl⟩

theorem readPairs_trimLeft (hquote : '"' ∉ t) :
    (readPairs (Text.trimLeft t)).1 = ((Text.tokens t).takeWhile (IsPair ·)).map pairOf ∧
      Text.tokens (readPairs (Text.trimLeft t)).2 = (Text.tokens t).dropWhile (IsPair ·) := by
  rw [← Text.tokens_trimLeft t]
  exact readPairs_tokens fun hc => hquote ((Text.trimLeft_suffix t).subset hc)

/-- An assignment in the old style: the first token is the key, and the others are the value. -/
theorem readOldStyle_token (hcut : Text.trimLeft t = w ++ rest) (hw : Text.IsToken w)
    (hquote : '"' ∉ t) (hrest : Text.EndsToken rest) : readOldStyle (Text.trimLeft t) =
      if Text.tokens rest = [] then none
      else some ((w, Text.join [' '] (Text.tokens rest)), (Word.readMany [] rest).2) := by
  have hmem : ∀ {c}, c ∈ w ++ rest → c ∈ t := Text.mem_of_trimLeft_eq hcut
  have hkey := Word.read_token hw (fun hc => hquote (hmem (List.mem_append_left _ hc))) hrest
  have hmany : Word.readMany [] rest =
      ((Text.tokens rest).map .bare, (Word.readMany [] rest).2) :=
    Prod.ext (Word.readMany_tokens fun hc => hquote (hmem (List.mem_append_right _ hc))).1 rfl
  rw [readOldStyle, hcut, hkey]
  simp only
  rw [hmany]
  cases hwords : Text.tokens rest with
  | nil => rfl
  | cons v ws =>
    rw [if_neg (List.cons_ne_nil v ws), ← Word.phrase_bare]
    rfl

/-- Where an assignment was read, there is no other style. -/
theorem read_of_readPairs (h : (readPairs (Text.trimLeft t)).1 ≠ []) : Assignments.read t =
    Reader.finish (Table.ofList (readPairs (Text.trimLeft t)).1)
      (readPairs (Text.trimLeft t)).2 := by
  rw [Assignments.read]
  cases hread : readPairs (Text.trimLeft t) with
  | mk pairs left =>
    rw [hread] at h
    obtain ⟨p, ps, rfl⟩ := List.exists_cons_of_ne_nil h
    rfl

/-- Where no assignment was read, the argument is one in the old style. -/
theorem read_of_readOldStyle (h : (readPairs (Text.trimLeft t)).1 = []) : Assignments.read t =
    match readOldStyle (Text.trimLeft t) with
    | some (p, left) => Reader.finish (Table.ofList [p]) left
    | none => .error (.expected .assignment (Text.trimLeft t)) := by
  rw [Assignments.read]
  cases hread : readPairs (Text.trimLeft t) with
  | mk pairs left =>
    rw [hread] at h
    obtain rfl : pairs = [] := h
    rfl

/-- The first token is an assignment: so must be the others, and all of them are inserted in turn. -/
theorem read_eq_ok_iff_of_isPair {w : Text} {ws : List Text} (hquote : '"' ∉ t)
    (htokens : Text.tokens t = w :: ws) (hpair : IsPair w) {a : Assignments} :
    Assignments.read t = .ok a ↔
      (∀ v ∈ w :: ws, IsPair v) ∧ a = Table.ofList ((w :: ws).map pairOf) := by
  obtain ⟨hpairs, hleft⟩ := readPairs_trimLeft hquote
  have hne : (readPairs (Text.trimLeft t)).1 ≠ [] := by
    rw [hpairs, htokens, List.takeWhile_cons_of_pos (by simpa using hpair)]
    exact List.cons_ne_nil _ _
  rw [htokens] at hpairs hleft
  rw [read_of_readPairs hne, Reader.finish_eq_ok_iff, ← Text.tokens_eq_nil_iff, hleft, hpairs,
    and_comm, eq_comm (b := a), List.dropWhile_eq_nil_iff]
  simp only [decide_eq_true_eq]
  -- nothing is left exactly if every token is an assignment, and then every token was read
  refine and_congr_right fun hall => ?_
  rw [List.takeWhile_eq_self_iff.2 (by simpa using hall)]

/-- The first token is no assignment: it is the key, and there must be a value. -/
theorem read_eq_ok_iff_of_not_isPair {w : Text} {ws : List Text} (hquote : '"' ∉ t)
    (htokens : Text.tokens t = w :: ws) (hpair : ¬ IsPair w) {a : Assignments} :
    Assignments.read t = .ok a ↔ ws ≠ [] ∧ a = Table.ofList [(w, Text.join [' '] ws)] := by
  have hpairs : (readPairs (Text.trimLeft t)).1 = [] := by
    rw [(readPairs_trimLeft hquote).1, htokens, List.takeWhile_cons_of_neg (by simpa using hpair)]
    rfl
  obtain ⟨rest, hcut, hw, hrest, rfl⟩ := Text.exists_of_tokens_eq_cons htokens
  rw [read_of_readOldStyle hpairs, readOldStyle_token hcut hw hquote hrest]
  by_cases hws : Text.tokens rest = []
  · rw [if_pos hws]
    exact iff_of_false nofun fun h => h.1 hws
  · have hblank : Text.trimLeft (Word.readMany [] rest).2 = [] :=
      (Word.readMany_tokens fun hc =>
        hquote (Text.mem_of_trimLeft_eq hcut (List.mem_append_right _ hc))).2
    rw [if_neg hws]
    simp only
    rw [Reader.finish_eq_ok_iff, and_iff_left hblank, and_iff_right hws, eq_comm]

/-- A blank argument has no assignment. -/
theorem read_ne_ok_of_blank (htokens : Text.tokens t = []) (a : Assignments) :
    Assignments.read t ≠ .ok a := by
  have hblank := Text.tokens_eq_nil_iff.1 htokens
  rw [Assignments.read, hblank, readPairs_eq]
  intro h
  cases h

end Token

end Assignments

/-! ## The first token decides -/

namespace Args

/-- What is read behind `ENV` and `LABEL`, where the tokens in `isPair` count as assignments. If the
first token is one, the argument fits exactly if all tokens are, and they are inserted in turn, so
that a later value of a key replaces an earlier one. Otherwise the argument fits exactly if there are
two or more tokens: the first is the key, and the others with single spaces between them its value. -/
structure TwoStyles (isPair : Text → Prop) (k : Keyword) (argument : Text) : Prop where
  pairs : ∀ w ws, Text.tokens argument = w :: ws → isPair w →
    ((∃ args, Args.read k argument = .ok args) ↔ ∀ v ∈ w :: ws, isPair v) ∧
    ∀ args, Args.read k argument = .ok args → args = .ofOperand k (.assignments
      ((w :: ws).foldl (fun m v => m.insert (Assignments.pairOf v).1 (Assignments.pairOf v).2)
        Table.empty))
  oldStyle : (∀ w ws, Text.tokens argument = w :: ws → ¬ isPair w) →
    ((∃ args, Args.read k argument = .ok args) ↔ 2 ≤ (Text.tokens argument).length) ∧
    ∀ args, Args.read k argument = .ok args → ∃ w ws, Text.tokens argument = w :: ws ∧
      args = .ofOperand k (.assignments (Table.empty.insert w (Text.join [' '] ws)))

/-- What is accepted behind a keyword whose operand is made of what a reader gives. -/
theorem read_eq_ok_iff {k : Keyword} {f : Form} (hf : k.form? = some f) {α : Type} {argument : Text}
    {outcome : Except Mismatch α} {operand : α → Operand}
    (h : f.read argument = outcome.map operand) {args : Args} :
    read k argument = .ok args ↔ ∃ a, outcome = .ok a ∧ args = .ofOperand k (operand a) := by
  rw [read_eq_map hf _ h]
  cases outcome with
  | error m => simp [Except.map]
  | ok a => simp [Except.map, eq_comm]

theorem read_assignments_eq_ok_iff {k : Keyword} (hk : k = .env ∨ k = .label) {argument : Text}
    {args : Args} : Args.read k argument = .ok args ↔
      ∃ a, Assignments.read argument = .ok a ∧ args = .ofOperand k (.assignments a) := by
  have hform : k.form? = some .assignments := by
    rcases hk with rfl | rfl
    · rfl
    · rfl
  exact read_eq_ok_iff hform rfl

/-- **The first token decides between the styles.** In an argument of `ENV` or `LABEL` without quotes, a
token is an assignment if it has an equals sign and does not begin with one. -/
theorem twoStyles {k : Keyword} (hk : k = .env ∨ k = .label) {argument : Text}
    (hquote : '"' ∉ argument) : TwoStyles Assignments.IsPair k argument := by
  constructor
  · intro w ws htokens hpair
    have hread := fun args => @read_assignments_eq_ok_iff k hk argument args
    simp only [Assignments.read_eq_ok_iff_of_isPair hquote htokens hpair] at hread
    refine ⟨⟨?_, fun hall => ⟨_, (hread _).2 ⟨_, ⟨hall, rfl⟩, rfl⟩⟩⟩, ?_⟩
    · rintro ⟨args, hargs⟩
      obtain ⟨a, ⟨hall, -⟩, -⟩ := (hread args).1 hargs
      exact hall
    · intro args hargs
      obtain ⟨a, ⟨-, rfl⟩, rfl⟩ := (hread args).1 hargs
      rw [Table.ofList, List.foldl_map]
  · intro hfirst
    have hread := fun args => @read_assignments_eq_ok_iff k hk argument args
    cases htokens : Text.tokens argument with
    | nil =>
      have hfails : ∀ args, Args.read k argument ≠ .ok args := by
        intro args hargs
        obtain ⟨a, ha, -⟩ := (hread args).1 hargs
        exact Assignments.read_ne_ok_of_blank htokens a ha
      refine ⟨iff_of_false ?_ (by simp), fun args hargs => absurd hargs (hfails args)⟩
      rintro ⟨args, hargs⟩
      exact hfails args hargs
    | cons w ws =>
      simp only [Assignments.read_eq_ok_iff_of_not_isPair hquote htokens (hfirst w ws htokens)]
        at hread
      refine ⟨⟨?_, ?_⟩, ?_⟩
      · rintro ⟨args, hargs⟩
        obtain ⟨a, ⟨hws, -⟩, -⟩ := (hread args).1 hargs
        have hpos := List.length_pos_iff.2 hws
        rw [List.length_cons]
        omega
      · intro htwo
        have hws : ws ≠ [] := by
          rintro rfl
          simp at htwo
        exact ⟨_, (hread _).2 ⟨_, ⟨hws, rfl⟩, rfl⟩⟩
      · intro args hargs
        obtain ⟨a, ⟨-, rfl⟩, rfl⟩ := (hread args).1 hargs
        exact ⟨w, ws, rfl, rfl⟩

/-- A key that is assigned twice, a value that is missing, and a value with an equals sign; then a
token that begins with an equals sign, which is a key in the old style. -/
theorem twoStyles_values :
    Args.read .env "a=1 b=\ta=c=d".toList = .ok (.env (some
        (Table.ofList [("a".toList, "c=d".toList), ("b".toList, [])]))) ∧
      Args.read .label "=a=b  c d".toList = .ok (.label (some
        (Table.ofList [("=a=b".toList, "c d".toList)]))) := by
  have htokens : Text.tokens "a=1 b=\ta=c=d".toList =
      ["a=1".toList, "b=".toList, "a=c=d".toList] := by decide
  have htokens' : Text.tokens "=a=b  c d".toList = ["=a=b".toList, "c".toList, "d".toList] := by
    decide
  constructor
  · obtain ⟨haccepts, hargs⟩ := (twoStyles (.inl rfl) (by decide)).pairs _ _ htokens (by decide)
    obtain ⟨args, hread⟩ := haccepts.2 (by decide)
    rw [hread, hargs args hread]
    rfl
  · have hfirst : ∀ w ws, Text.tokens "=a=b  c d".toList = w :: ws → ¬ Assignments.IsPair w := by
      intro w ws hcons
      rw [← (List.cons.inj (htokens'.symm.trans hcons)).1]
      decide
    obtain ⟨haccepts, hargs⟩ := (twoStyles (.inr rfl) (by decide)).oldStyle hfirst
    obtain ⟨args, hread⟩ := haccepts.2 (by rw [htokens']; decide)
    obtain ⟨w, ws, hcons, hvalue⟩ := hargs args hread
    obtain ⟨rfl, rfl⟩ := List.cons.inj (htokens'.symm.trans hcons)
    rw [hread, hvalue]
    rfl

/-- **Equals signs behind the first do not give a token a key.** If any equals sign behind the first
character made a token an assignment, `==x` would assign to the empty key; it does not fit. -/
theorem not_twoStyles_tail :
    Text.tokens "==x".toList = ["==x".toList] ∧ '=' ∈ "==x".toList.tail ∧
      (∀ args, Args.read .env "==x".toList ≠ .ok args) ∧
      ¬ TwoStyles (fun w => '=' ∈ w.tail) .env "==x".toList := by
  have hfails : ∀ args, Args.read .env "==x".toList ≠ .ok args := by
    have hread : (Args.read .env "==x".toList).isOk = false := by cbv
    intro args hargs
    rw [hargs] at hread
    cases hread
  refine ⟨by decide, by decide, hfails, fun hstyles => ?_⟩
  obtain ⟨haccepts, -⟩ := hstyles.pairs "==x".toList [] (by decide) (by decide)
  obtain ⟨args, hargs⟩ := haccepts.2 (by decide)
  exact hfails args hargs

end Args

end Dockerlint
