import Dockerlint.Proofs.Line
import Dockerlint.Proofs.Word

/-!
# Assignments are read back

Assignments with keys and values in double quotes come back from a line behind a keyword, whatever
the keys and values contain. Where a key occurs twice, its last value counts.

## Main results

* `Table.find?_ofList_of_last`, `Table.find?_ofList_of_notMem`: the values after insertions in turn
* `Assignments.readPairs_render`: rendered assignments are read back in order
* `Document.parse_assignments`: assignments of a document
-/

namespace Dockerlint

/-! ## Insertions in turn -/

namespace Table

variable {α : Type}

theorem ofList_concat (es : List (Text × α)) (e : Text × α) :
    ofList (es ++ [e]) = (ofList es).insert e.1 e.2 := by
  simp only [ofList, List.foldl_append, List.foldl_cons, List.foldl_nil]

theorem find?_ofList_append {key : Text} (es : List (Text × α)) {later : List (Text × α)}
    (h : ∀ e ∈ later, e.1 ≠ key) : (ofList (es ++ later)).find? key = (ofList es).find? key := by
  -- the induction is on the later entries, and those before them grow
  induction later generalizing es with
  | nil => rw [List.append_nil]
  | cons e later ih =>
    have he : key ≠ e.1 := Ne.symm (h e (by simp))
    have htail := ih (es ++ [e]) fun d hd => h d (List.mem_cons_of_mem e hd)
    rw [List.append_assoc, List.singleton_append] at htail
    rw [htail, ofList_concat, find?_insert, if_neg he]

/-- The last entry of a key decides. -/
theorem find?_ofList_of_last {key : Text} (value : α) (es : List (Text × α))
    {later : List (Text × α)} (h : ∀ e ∈ later, e.1 ≠ key) :
    (ofList (es ++ (key, value) :: later)).find? key = some value := by
  have hcut : es ++ (key, value) :: later = (es ++ [(key, value)]) ++ later := by simp
  rw [hcut, find?_ofList_append _ h, ofList_concat, find?_insert, if_pos rfl]

theorem find?_ofList_of_notMem {key : Text} {es : List (Text × α)} (h : ∀ e ∈ es, e.1 ≠ key) :
    (ofList es).find? key = none := by
  have hnil := find?_ofList_append [] h
  rw [List.nil_append] at hnil
  rw [hnil]
  rfl

end Table

namespace Assignments

/-! ## One assignment -/

/-- An assignment with its key and its value in double quotes. -/
def renderPair (p : Text × Text) : Text :=
  Quoted.render .double p.1 ++ '=' :: Quoted.render .double p.2

theorem render_eq (pairs : List (Text × Text)) :
    render pairs = Text.join [' '] (pairs.map renderPair) := rfl

/-- The assignments of a text, one at a time. -/
theorem readPairs_eq (t : Text) : readPairs t =
    match Word.read ['='] (Text.trimLeft t) with
    | none => ([], t)
    | some (key, rest) =>
      match Text.after ['='] rest with
      | none => ([], t)
      | some behind =>
        let value := readValue behind
        let more := readPairs value.2
        ((key.value, value.1) :: more.1, more.2) := by
  rw [readPairs]
  split
  · next h => simp only [h]
  · next key rest h =>
    split
    · next ha => simp only [h, ha]
    · next behind ha => simp only [h, ha]

@[simp] theorem readPairs_nil : readPairs [] = ([], []) := readPairs_eq []

theorem readPairs_renderPair (p : Text × Text) (rest : Text) :
    readPairs (renderPair p ++ rest) = (p :: (readPairs rest).1, (readPairs rest).2) := by
  have htext : renderPair p ++ rest =
      Quoted.render .double p.1 ++ ('=' :: (Quoted.render .double p.2 ++ rest)) := by
    simp [renderPair]
  have hvalue : readValue (Quoted.render .double p.2 ++ rest) = (p.2, rest) := by
    rw [readValue, Word.read_render]
    simp
  have htrim : Text.trimLeft (renderPair p ++ rest) = renderPair p ++ rest :=
    Text.trimLeft_eq_self rfl
  rw [readPairs_eq, htrim, htext, Word.read_render]
  simp [Text.after, hvalue]

/-- A blank before an assignment does not matter. -/
theorem readPairs_blank {c : Char} (hc : isBlank c) {t : Text} (h : (readPairs t).1 ≠ []) :
    readPairs (c :: t) = readPairs t := by
  rw [readPairs_eq] at h
  rw [readPairs_eq, readPairs_eq t, Text.trimLeft_cons, if_pos hc]
  split
  · -- with no assignment the whole text is left, and there the blank would count
    next hw => simp [hw] at h
  · next key rest hw =>
    split
    · next ha => simp [hw, ha] at h
    · rfl

/-! ## All assignments -/

/-- **Rendered assignments are read back**, in order and with nothing left. -/
theorem readPairs_render {pairs : List (Text × Text)} (hne : pairs ≠ []) :
    readPairs (render pairs) = (pairs, []) := by
  rw [render_eq]
  induction pairs with
  | nil => exact absurd rfl hne
  | cons p pairs ih =>
    cases pairs with
    | nil =>
      have hone := readPairs_renderPair p []
      rw [List.append_nil, readPairs_nil] at hone
      rw [List.map_singleton, Text.join_singleton, hone]
    | cons p' pairs =>
      have htail := ih (by simp)
      rw [List.map_cons, List.map_cons, Text.join_cons_cons, ← List.map_cons, readPairs_renderPair]
      rw [List.singleton_append, readPairs_blank rfl (by rw [htail]; simp), htail]

theorem trimLeft_render (pairs : List (Text × Text)) :
    Text.trimLeft (render pairs) = render pairs := by
  cases pairs with
  | nil => rfl
  | cons p pairs =>
    rw [render_eq, List.map_cons]
    cases pairs.map renderPair with
    | nil => rw [Text.join_singleton]; exact Text.trimLeft_eq_self rfl
    | cons t ts => rw [Text.join_cons_cons]; exact Text.trimLeft_eq_self rfl

theorem read_render {pairs : List (Text × Text)} (hne : pairs ≠ []) :
    Assignments.read (render pairs) = .ok (Table.ofList pairs) := by
  obtain ⟨p, ps, rfl⟩ := List.exists_cons_of_ne_nil hne
  rw [Assignments.read, trimLeft_render, readPairs_render hne]
  rfl

theorem verbatim_renderPair (p : Text × Text) : Segment.Verbatim (renderPair p) :=
  .append (.render .double p.1) (.cons rfl (.render .double p.2))

theorem newline_notMem_renderPair (p : Text × Text) : '\n' ∉ renderPair p := by
  simp [renderPair, Quoted.newline_notMem_render]

theorem trimRight_renderPair (p : Text × Text) :
    Text.trimRight (renderPair p) = renderPair p := by
  have hlast : renderPair p =
      (Quoted.render .double p.1 ++ '=' :: '"' :: Quoted.escape .double p.2) ++ ['"'] := by
    simp [renderPair, Quoted.render, Quote.char]
  rw [hlast]
  exact Text.trimRight_concat _ rfl

/-- Rendered assignments can stand on a line. -/
theorem argument_render {pairs : List (Text × Text)} (hne : pairs ≠ []) :
    Line.Argument (render pairs) := by
  refine ⟨.join (.cons rfl .nil) ?_, Text.notMem_join (by decide) ?_,
    trimLeft_render pairs, Text.trimRight_join _ ?_, ?_⟩
  · intro t ht
    obtain ⟨p, -, rfl⟩ := List.mem_map.1 ht
    exact verbatim_renderPair p
  · intro t ht
    obtain ⟨p, -, rfl⟩ := List.mem_map.1 ht
    exact newline_notMem_renderPair p
  · intro t ht
    obtain ⟨p, -, rfl⟩ := List.mem_map.1 ht
    exact ⟨nofun, trimRight_renderPair p⟩
  · -- from an empty text no assignment would be read back
    intro h
    have hread := readPairs_render hne
    rw [h, readPairs_nil] at hread
    exact hne (congrArg Prod.fst hread).symm

end Assignments

/-! ## Assignments in documents -/

/-- **Assignments are read back from a document.** Behind `ENV` or `LABEL`, any keys and values in
double quotes are one instruction whose table is that of the pairs inserted in turn, so that the
last pair with a key decides its value and no other key has one. -/
theorem Document.parse_assignments (pairs : List (Text × Text)) (hne : pairs ≠ [])
    (k : Keyword) (hk : k ∈ [Keyword.env, .label]) :
    ∃ d i, Document.parse (k.text ++ ' ' :: (Assignments.render pairs ++ ['\n'])) = .ok d ∧
      d.instructions = [i] ∧ i.keyword = k ∧ i.isValid ∧
      i.args = .ofOperand k (.assignments (Table.ofList pairs)) ∧
      (∀ key value earlier later, pairs = earlier ++ (key, value) :: later →
        (∀ p ∈ later, p.1 ≠ key) → i.valueOf key .exact = some value) ∧
      (∀ key, (∀ p ∈ pairs, p.1 ≠ key) → i.valueOf key .exact = none) := by
  have hform : k.form? = some .assignments := by
    revert hk
    cases k <;> decide
  have hread : Form.read .assignments (Assignments.render pairs) =
      .ok (.assignments (Table.ofList pairs)) := by
    rw [Form.read, Assignments.read_render hne]
    rfl
  obtain ⟨d, i, hd, hi, hk, hvalid, -, hargs⟩ :=
    Document.parse_operand (Assignments.argument_render hne) hform hread
  have hvalue : ∀ key, i.valueOf key .exact = (Table.ofList pairs).find? key := by
    intro key
    rw [Instruction.valueOf, hargs, Args.assignments?_ofOperand hform]
    rfl
  refine ⟨d, i, hd, hi, hk, hvalid, hargs, ?_, ?_⟩
  · rintro key value earlier later rfl hlater
    rw [hvalue]
    exact Table.find?_ofList_of_last value earlier hlater
  · intro key hkey
    rw [hvalue]
    exact Table.find?_ofList_of_notMem hkey

/-- A key that is assigned twice, with an equals sign and a quote in it. -/
theorem Document.parse_assignments_twice :
    ([(['=', '"'], ['#']), (['=', '"'], [])] : List (Text × Text)) ≠ [] ∧
    Keyword.label ∈ [Keyword.env, .label] ∧
    ∃ d i, Document.parse "LABEL \"=\\\"\"=\"#\" \"=\\\"\"=\"\"\n".toList = .ok d ∧
      d.instructions = [i] ∧ i.valueOf ['=', '"'] .exact = some [] ∧
      i.valueOf ['#'] .exact = none := by
  have hne : ([(['=', '"'], ['#']), (['=', '"'], [])] : List (Text × Text)) ≠ [] := by simp
  have hk : Keyword.label ∈ [Keyword.env, .label] := by decide
  obtain ⟨d, i, hd, hi, -, -, -, hlast, hnone⟩ := Document.parse_assignments _ hne .label hk
  exact ⟨hne, hk, d, i, hd, hi, hlast _ _ [(['=', '"'], ['#'])] [] rfl (by simp),
    hnone ['#'] (by decide)⟩

end Dockerlint
