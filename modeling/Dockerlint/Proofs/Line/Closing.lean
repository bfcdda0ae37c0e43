import Dockerlint.Proofs.Line.Scan
import Dockerlint.Proofs.Reader.Session
import Dockerlint.Proofs.Word

/-!
# The end of a quoted span

The scan of a line copies a quoted span as it is, and later a grammar reads a quoted string where
the span stands. Both look for the closing quote, each in its own way: the scan counts characters on
one line, and the grammar takes the body of the string and stops at a line feed. On a text without a
line feed they find the same end, whatever the escapes, so what the scan kept is read as one
string.

## Main definitions

* `Segment.closing`: the end of the span that opens at a position of a line
* `Segment.Reaches`: where the scan of a line stands, and what it kept before

## Main results

* `Segment.spanLength_eq_body`: the two searches for a closing quote give the same answer
* `Segment.Reaches.scan_eq`: the scan of a line goes on as the scan of what is left
* `Segment.Reaches.text_eq`: the scan keeps a span as it is
* `Segment.closing_iff_quoted`: a session reads up to the end of the span
* `Segment.closing_agrees`: a span is read as one quoted string, from its opening quote to its end
-/

namespace Dockerlint

/-! ## Two searches -/

namespace Segment

/-- The end of the quoted span that opens at a position of a line, behind its closing quote. -/
def closing (line : Text) (start : Nat) (q : Char) : Option Nat :=
  (spanLength q (line.drop (start + 1))).map (start + 1 + ·)

/-- **The two searches for a closing quote give the same answer** where no line feed stops the
second. -/
theorem spanLength_eq_body {t : Text} (ht : '\n' ∉ t) (q : Char) :
    spanLength q t = (Quoted.body q t).map fun (inner, _) => inner.length + 1 := by
  fun_induction Quoted.body q t with
  | case1 => rfl
  | case2 c rest ih =>
    -- an escape: both step over two characters
    have hrest : '\n' ∉ rest := by
      intro hmem
      exact ht (List.mem_cons_of_mem _ (List.mem_cons_of_mem _ hmem))
    rw [spanLength_escape, ih hrest, Option.map_map, Option.map_map]
    rfl
  | case3 => exact absurd (List.mem_cons_self ..) ht
  | case4 rest hesc _ =>
    rw [spanLength, if_pos rfl]
    · rfl
    · exact hesc
  | case5 c rest hesc _ hq ih =>
    have hrest : '\n' ∉ rest := fun hmem => ht (List.mem_cons_of_mem _ hmem)
    rw [spanLength, if_neg hq, ih hrest, Option.map_map, Option.map_map]
    · rfl
    · exact hesc

/-- The end of a span is behind the body of the string and its two quotes. -/
theorem closing_eq_some_iff {line : Text} (hline : '\n' ∉ line) {start stop : Nat} {q : Char} :
    closing line start q = some stop ↔ ∃ inner behind,
      Quoted.body q (line.drop (start + 1)) = some (inner, behind) ∧
        stop = start + (inner.length + 2) := by
  have hbehind : '\n' ∉ line.drop (start + 1) := fun hmem => hline (List.mem_of_mem_drop hmem)
  rw [closing, spanLength_eq_body hbehind, Option.map_map, Option.map_eq_some_iff]
  constructor
  · rintro ⟨⟨inner, behind⟩, hbody, rfl⟩
    exact ⟨inner, behind, hbody, by simp only [Function.comp_apply]; omega⟩
  · rintro ⟨inner, behind, hbody, rfl⟩
    exact ⟨(inner, behind), hbody, by simp only [Function.comp_apply]; omega⟩

theorem closing_eq_none_iff {line : Text} (hline : '\n' ∉ line) {start : Nat} {q : Char} :
    closing line start q = none ↔ Quoted.body q (line.drop (start + 1)) = none := by
  have hbehind : '\n' ∉ line.drop (start + 1) := fun hmem => hline (List.mem_of_mem_drop hmem)
  rw [closing, spanLength_eq_body hbehind, Option.map_eq_none_iff, Option.map_eq_none_iff]

/-! ## What the scan keeps -/

/-- The scan of `line` comes to `rest` and has kept `front`. -/
inductive Reaches (line : Text) : (front rest : Text) → Prop where
  | start : Reaches line [] line
  | escape {front rest behind : Text} {next : Char} (h : Reaches line front ('\\' :: rest))
      (hgap : rest.dropWhile isGap = next :: behind) :
      Reaches line (front ++ ['\\', next]) behind
  | span {front rest : Text} {c : Char} {n : Nat} (h : Reaches line front (c :: rest))
      (hc : IsQuote c) (hspan : spanLength c rest = some n) :
      Reaches line (front ++ c :: rest.take n) (rest.drop n)
  | unclosed {front rest : Text} {c : Char} (h : Reaches line front (c :: rest)) (hc : IsQuote c)
      (hspan : spanLength c rest = none) : Reaches line (front ++ [c]) rest
  | ordinary {front rest : Text} {c : Char} (h : Reaches line front (c :: rest))
      (hc : isOrdinary c) : Reaches line (front ++ [c]) rest

/-- The scan of a line goes on as the scan of what is left of it. -/
theorem Reaches.scan_eq {line front rest : Text} (h : Reaches line front rest) :
    scan line = (scan rest).prepend front := by
  induction h with
  | start => rfl
  | escape h hgap ih => rw [ih, scan_escape hgap, prepend_append]
  | span h hc hspan ih => rw [ih, scan_span hc hspan, prepend_append]
  | unclosed h hc hspan ih => rw [ih, scan_unclosed hc hspan, prepend_append]
  | ordinary h hc ih => rw [ih, scan_cons hc, prepend_append]

theorem isQuote_char (q : Quote) : IsQuote q.char := by
  cases q <;> decide

end Segment

/-! ## Reading where a span stands -/

theorem Quoted.between_opened (q : Quote) (rest : Text) :
    Quoted.between q.char (q.char :: rest) = Quoted.body q.char rest := by
  rw [Quoted.between, if_pos ⟨rfl, q.char_ne_backslash⟩]

theorem Quote.char_ne_newline (q : Quote) : q.char ≠ '\n' := by cases q <;> decide

namespace Session

/-- A session that reads a text and stands at a position of it, whatever it was asked before. -/
def At (text : Text) (position : Nat) (s : Session) : Prop :=
  (∃ ops, s = (start text).after ops) ∧ s.position = position

/-- A session can be brought to every position of a text. -/
theorem at_reset {text : Text} {position : Nat} (h : position ≤ text.length)
    (ops : List Operation) :
    At text position ((start text).after (ops ++ [.move (.reset position)])) := by
  refine ⟨⟨_, rfl⟩, ?_⟩
  have hafter : ∀ s : Session, s.text = text → s.Faithful →
      (s.after (ops ++ [.move (.reset position)])).position = position := by
    induction ops with
    | nil =>
      intro s htext _
      simp [after, step, Place.move, htext, h]
    | cons op ops ih =>
      intro s htext hs
      obtain ⟨-, -, htext', hfaithful⟩ := step_spec hs op
      exact ih _ (htext'.trans htext) hfaithful
  exact hafter _ rfl (faithful_start text)

section Opened

variable {text rest : Text} {position : Nat} {q : Quote} {s : Session}

/-- Where a session reads, its text and what it kept are in order. -/
theorem At.spec (h : s.At text position) :
    s.text = text ∧ s.rest = text.drop position ∧ s.Faithful := by
  obtain ⟨⟨ops, rfl⟩, hposition⟩ := h
  obtain ⟨-, htext, hfaithful⟩ := run_spec (faithful_start text) ops
  refine ⟨htext, ?_, hfaithful⟩
  rw [Place.rest, htext, hposition]
  rfl

/-- A session at an opening quote reads the body of the string and ends behind the closing one. -/
theorem At.quoted_of_body (h : s.At text position) (hrest : text.drop position = q.char :: rest)
    {inner behind : Text} (hbody : Quoted.body q.char rest = some (inner, behind))
    (taking : Taking) :
    (s.quoted q.char taking).1 = .ok (Quoted.take q.char inner taking) ∧
      (s.quoted q.char taking).2.position = position + (inner.length + 2) := by
  obtain ⟨-, hat, hfaithful⟩ := h.spec
  rw [hrest] at hat
  obtain ⟨inner', t, hread, hanswer, htext, ht⟩ | ⟨t, hread, -⟩ :=
    quoted_cases hfaithful q.char taking
  · have hcut := congrArg List.length (Quoted.between_eq_some hread)
    rw [hat, Quoted.between_opened, hbody] at hread
    obtain ⟨rfl, hbehind⟩ := Prod.mk.inj (Option.some.inj hread)
    have hinside := hfaithful.inside
    have hinside' := ht.inside
    -- both positions are counted from the end of the text
    simp only [Place.rest, List.length_cons, List.length_append, List.length_drop, htext, h.2]
      at hcut hinside hinside'
    rw [hanswer]
    exact ⟨rfl, by simp only; omega⟩
  · rw [hat, Quoted.between_opened, hbody] at hread
    cases hread

/-- A session at an opening quote fails if the string has no end. -/
theorem At.quoted_of_body_eq_none (h : s.At text position)
    (hrest : text.drop position = q.char :: rest) (hbody : Quoted.body q.char rest = none)
    (taking : Taking) : ∃ m, (s.quoted q.char taking).1 = .error m := by
  obtain ⟨-, hat, hfaithful⟩ := h.spec
  rw [hrest] at hat
  obtain ⟨inner, t, hread, -⟩ | ⟨t, -, hanswer, -⟩ := quoted_cases hfaithful q.char taking
  · rw [hat, Quoted.between_opened, hbody] at hread
    cases hread
  · exact ⟨_, by rw [hanswer]⟩

end Opened

end Session

/-! ## The scan and the grammars agree -/

namespace Segment

/-- The span that opens at a position: the two quotes and the body between them. -/
theorem extract_closing {s rest inner behind : Text} {p : Nat} {q : Char}
    (hrest : s.drop p = q :: rest) (hbody : Quoted.body q rest = some (inner, behind)) :
    s.extract p (p + (inner.length + 2)) = q :: (inner ++ [q]) := by
  have hcut : s.drop p = (q :: (inner ++ [q])) ++ behind := by
    rw [hrest, Quoted.body_eq_some hbody]
    simp
  rw [List.extract_eq_take_drop, hcut]
  exact List.take_left' (by simp)

section Span

variable {s inner behind : Text} {p : Nat} {q : Quote}

theorem drop_of_opening (hp : s[p]? = some q.char) : s.drop p = q.char :: s.drop (p + 1) := by
  obtain ⟨hlt, hget⟩ := List.getElem?_eq_some_iff.1 hp
  rw [List.drop_eq_getElem_cons hlt, hget]

/-- A session at an opening quote reads up to the end of the span, or fails if there is none. -/
theorem closing_iff_quoted (hs : '\n' ∉ s) (hp : s[p]? = some q.char) {session : Session}
    (hsession : session.At s p) (taking : Taking) :
    (∀ e, closing s p q.char = some e ↔ ∃ content,
      (session.quoted q.char taking).1 = .ok content ∧
        (session.quoted q.char taking).2.position = e) ∧
    (closing s p q.char = none ↔ ∃ m, (session.quoted q.char taking).1 = .error m) := by
  have hrest := drop_of_opening hp
  cases hbody : Quoted.body q.char (s.drop (p + 1)) with
  | none =>
    obtain ⟨m, hm⟩ := hsession.quoted_of_body_eq_none hrest hbody taking
    have hnone := (closing_eq_none_iff hs).2 hbody
    rw [hnone, hm]
    refine ⟨fun e => ⟨nofun, ?_⟩, fun _ => ⟨m, rfl⟩, fun _ => rfl⟩
    rintro ⟨content, hcontent, -⟩
    cases hcontent
  | some found =>
    obtain ⟨inner, behind⟩ := found
    obtain ⟨hcontent, hposition⟩ := hsession.quoted_of_body hrest hbody taking
    have hsome := (closing_eq_some_iff hs).2 ⟨inner, behind, hbody, rfl⟩
    rw [hsome, hcontent, hposition]
    refine ⟨fun e => ⟨?_, ?_⟩, nofun, ?_⟩
    · rintro ⟨⟩
      exact ⟨_, rfl, rfl⟩
    · rintro ⟨_, -, rfl⟩
      rfl
    · rintro ⟨m, hm⟩
      cases hm

/-- A scan that comes to a span keeps it in one step. -/
theorem Reaches.text_eq {front : Text} (h : Reaches s front (s.drop p))
    (hrest : s.drop p = q.char :: s.drop (p + 1))
    (hbody : Quoted.body q.char (s.drop (p + 1)) = some (inner, behind)) :
    ∃ last, (scan s).text = front ++ (s.extract p (p + (inner.length + 2)) ++ last) := by
  have hlength := spanLength_of_body hbody
  have htake : s.extract p (p + (inner.length + 2)) =
      q.char :: (s.drop (p + 1)).take (inner.length + 1) := by
    rw [List.extract_eq_take_drop, hrest, Nat.add_sub_cancel_left, List.take_succ_cons]
  refine ⟨(scan ((s.drop (p + 1)).drop (inner.length + 1))).text, ?_⟩
  rw [h.scan_eq, hrest, scan_span (isQuote_char q) hlength, htake]
  rfl

end Span

/-- **The scan and the grammars agree on where a quoted string ends.** On a text without a line
feed, a session at an opening quote, whatever it read before, reads a quoted string up to the end of
the span that opens there, and fails exactly if no span does. As it is written, the string is the
span. Where the scan of the text comes to a span, it keeps the span, and in any text in which the
span then stands it is read as one string. -/
theorem closing_agrees {s : Text} (hs : '\n' ∉ s) {p : Nat} {q : Quote}
    (hp : s[p]? = some q.char) :
    (∀ session : Session, session.At s p → ∀ taking,
      (∀ e, closing s p q.char = some e ↔ ∃ content,
        (session.quoted q.char taking).1 = .ok content ∧
          (session.quoted q.char taking).2.position = e) ∧
      (closing s p q.char = none ↔ ∃ m, (session.quoted q.char taking).1 = .error m)) ∧
    ∀ e, closing s p q.char = some e →
      (∀ session : Session, session.At s p →
        (session.quoted q.char .written).1 = .ok (s.extract p e)) ∧
      (∀ front, Reaches s front (s.drop p) →
        ∃ behind, (scan s).text = front ++ (s.extract p e ++ behind)) ∧
      ∀ before behind, ∀ session : Session,
        session.At (before ++ (s.extract p e ++ behind)) before.length →
        (session.quoted q.char .written).1 = .ok (s.extract p e) ∧
          (session.quoted q.char .written).2.position = before.length + (e - p) := by
  have hrest := drop_of_opening hp
  refine ⟨fun session hsession taking => closing_iff_quoted hs hp hsession taking,
    fun e he => ?_⟩
  obtain ⟨inner, behind, hbody, rfl⟩ := (closing_eq_some_iff hs).1 he
  have hspan := extract_closing hrest hbody
  have hwritten : Quoted.take q.char inner .written = s.extract p (p + (inner.length + 2)) :=
    hspan.symm
  refine ⟨fun session hsession => ?_, fun front hfront => hfront.text_eq hrest hbody,
    fun before behind' session hsession => ?_⟩
  · rw [(hsession.quoted_of_body hrest hbody .written).1, hwritten]
  · -- only the body counts, not what follows the closing quote
    have hstands : (before ++ (s.extract p (p + (inner.length + 2)) ++ behind')).drop
        before.length = q.char :: (inner ++ q.char :: behind') := by
      rw [List.drop_left, hspan]
      simp
    have hbody' := (Quoted.isBody_of_body hbody).body_append q.char_ne_backslash q.char_ne_newline
      behind'
    obtain ⟨hcontent, hposition⟩ := hsession.quoted_of_body hstands hbody' .written
    rw [hcontent, hposition, hwritten]
    exact ⟨rfl, by omega⟩

/-- An escaped quote closes no span, and neither does a quote of the other kind. -/
theorem closing_agrees_escaped : ∃ s, s = "k=\"#\\\"\" \x27b".toList ∧
    closing s 2 '"' = some 7 ∧
    (((Session.start s).after [.move (.reset 2)]).quoted '"' .written).1 =
      .ok "\"#\\\"\"".toList ∧
    closing s 8 '\x27' = none ∧
    ∃ m, (((Session.start s).after [.move (.reset 8)]).quoted '\x27' .value).1 = .error m := by
  refine ⟨_, rfl, ?_⟩
  have hdouble := closing_agrees (s := "k=\"#\\\"\" \x27b".toList) (p := 2) (q := .double)
    (by decide) (by decide)
  have hsingle := closing_agrees (s := "k=\"#\\\"\" \x27b".toList) (p := 8) (q := .single)
    (by decide) (by decide)
  have hclosing : closing "k=\"#\\\"\" \x27b".toList 2 '"' = some 7 := by decide
  have hopen : closing "k=\"#\\\"\" \x27b".toList 8 '\x27' = none := by decide
  exact ⟨hclosing, (hdouble.2 7 hclosing).1 _ (Session.at_reset (by decide) []), hopen,
    (hsingle.1 _ (Session.at_reset (by decide) []) .value).2.1 hopen⟩

end Segment

end Dockerlint
