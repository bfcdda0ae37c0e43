import Dockerlint.Proofs.Line

/-!
# Arrays are read back

An array that is written on a line behind a keyword comes back element by element, whatever the
elements contain. Three machines read its text in turn: the scan of the line copies it, the reader
of quoted strings finds the ends of the elements, and unescaping resolves what is between them.

## Main results

* `Reader.elements_render`: the elements of a rendered array are read back, up to what follows
* `Command.read_renderArray`, `Command.quoting_renderArray`: the array of a command
* `Transfer.read_renderArray`: the array of a transfer
* `Document.parse_array`: arrays of a document
-/

namespace Dockerlint

/-- Whether an element of an array may have the quotes `q`. -/
def ElementQuotes.Allows (quotes : ElementQuotes) (q : Quote) : Prop := quotes = .any ∨ q = .double

namespace Reader

/-! ## One element -/

section Element

variable {quotes : ElementQuotes} {e : Element}

/-- The elements of an array, one at a time. -/
theorem elements_eq (quotes : ElementQuotes) (t : Text) : elements quotes t =
    match elementQuote quotes (Text.trimLeft t) with
    | none => .error (.expected (elementExpectation quotes) (Text.trimLeft t))
    | some q =>
      match Quoted.read q (Text.trimLeft t) with
      | none => .error (.expected (.enclosed q.char) (Text.trimLeft t))
      | some (inner, behind) =>
        match Text.trimLeft behind with
        | ',' :: rest =>
          (elements quotes rest).map fun (more, last) => (⟨q, Quoted.unescape inner⟩ :: more, last)
        | ']' :: rest => .ok ([⟨q, Quoted.unescape inner⟩], rest)
        | rest => .error (.expected .delimiter rest) := by
  -- both sides look at the same values in turn
  rw [elements]
  dsimp only
  cases elementQuote quotes (Text.trimLeft t) with
  | none => rfl
  | some q =>
    dsimp only
    cases Quoted.read q (Text.trimLeft t) with
    | none => rfl
    | some found =>
      dsimp only
      split
      · next rest hrest =>
        simp only [hrest]
        cases elements quotes rest <;> rfl
      · next rest hrest => simp only [hrest]
      · simp only

theorem ne_nil_of_elements {t rest : Text} {es : List Element}
    (h : Reader.elements quotes t = .ok (es, rest)) : es ≠ [] := by
  rw [elements_eq] at h
  split at h
  · cases h
  · split at h
    · cases h
    · split at h
      · obtain ⟨⟨more, last⟩, -, hpair⟩ := exists_of_map_eq_ok h
        rw [← (Prod.mk.inj hpair).1]
        exact List.cons_ne_nil _ _
      · obtain ⟨rfl, -⟩ := Prod.mk.inj (Except.ok.inj h)
        exact List.cons_ne_nil _ _
      · cases h

theorem trimLeft_render (e : Element) (rest : Text) :
    Text.trimLeft (e.render ++ rest) = e.render ++ rest := by
  refine Text.trimLeft_eq_self ?_
  cases e.quote <;> rfl

theorem elementQuote_render (h : quotes.Allows e.quote) (rest : Text) :
    elementQuote quotes (e.render ++ rest) = some e.quote := by
  obtain ⟨q, value⟩ := e
  cases q with
  | double => rfl
  | single =>
    -- single quotes are allowed only where any are
    obtain rfl : quotes = .any := h.resolve_right nofun
    rfl

theorem read_render (e : Element) (rest : Text) :
    Quoted.read e.quote (e.render ++ rest) = some (Quoted.escape e.quote e.value, rest) :=
  Quoted.read_render e.quote e.value rest

theorem elements_last (h : quotes.Allows e.quote) (rest : Text) :
    elements quotes (e.render ++ ']' :: rest) = .ok ([e], rest) := by
  rw [elements_eq, trimLeft_render, elementQuote_render h]
  simp only [read_render, Text.trimLeft_eq_self (c := ']') rfl, Quoted.unescape_escape]

theorem elements_more (h : quotes.Allows e.quote) (rest : Text) :
    elements quotes (e.render ++ ',' :: rest) =
      (elements quotes rest).map fun (more, last) => (e :: more, last) := by
  rw [elements_eq, trimLeft_render, elementQuote_render h]
  simp only [read_render, Text.trimLeft_eq_self (c := ',') rfl, Quoted.unescape_escape]

/-- A blank before an element does not matter. -/
theorem elements_blank (quotes : ElementQuotes) {c : Char} (hc : isBlank c) (t : Text) :
    elements quotes (c :: t) = elements quotes t := by
  rw [elements_eq, elements_eq quotes t, Text.trimLeft_cons, if_pos hc]

end Element

/-! ## The whole array -/

/-- **The elements of a rendered array are read back**, up to the bracket that closes it. -/
theorem elements_render {quotes : ElementQuotes} {es : List Element} (hne : es ≠ [])
    (h : ∀ e ∈ es, quotes.Allows e.quote) (rest : Text) :
    elements quotes (Text.join [',', ' '] (es.map Element.render) ++ ']' :: rest) =
      .ok (es, rest) := by
  induction es with
  | nil => exact absurd rfl hne
  | cons e es ih =>
    have he := h e (by simp)
    cases es with
    | nil =>
      rw [List.map_singleton, Text.join_singleton]
      exact elements_last he rest
    | cons e' es =>
      have htail := ih (by simp) fun d hd => h d (List.mem_cons_of_mem e hd)
      rw [List.map_cons, List.map_cons, Text.join_cons_cons, List.append_assoc, ← List.map_cons]
      -- the comma is the delimiter, and the space behind it is skipped
      simp only [List.cons_append, List.nil_append]
      rw [elements_more he, elements_blank quotes rfl, htail]
      rfl

theorem array_render {quotes : ElementQuotes} {es : List Element} (hne : es ≠ [])
    (h : ∀ e ∈ es, quotes.Allows e.quote) : array quotes (renderArray es) = .ok (es, []) := by
  rw [renderArray, array_eq, elements_render hne h]

theorem trimLeft_renderArray (es : List Element) :
    Text.trimLeft (renderArray es) = renderArray es :=
  Text.trimLeft_eq_self rfl

/-- A rendered array can stand on a line. -/
theorem argument_renderArray (es : List Element) : Line.Argument (renderArray es) := by
  refine ⟨?_, ?_, trimLeft_renderArray es, ?_, by simp [renderArray]⟩
  · have hes : ∀ t ∈ es.map Element.render, Segment.Verbatim t := by
      intro t ht
      obtain ⟨e, -, rfl⟩ := List.mem_map.1 ht
      exact .render e.quote e.value
    have hjoin : Segment.Verbatim (Text.join [',', ' '] (es.map Element.render)) :=
      .join (.cons rfl (.cons rfl .nil)) hes
    exact .cons rfl (hjoin.append (.cons rfl .nil))
  · have hes : ∀ t ∈ es.map Element.render, '\n' ∉ t := by
      intro t ht
      obtain ⟨e, -, rfl⟩ := List.mem_map.1 ht
      exact Quoted.newline_notMem_render e.quote e.value
    have hjoin : '\n' ∉ Text.join [',', ' '] (es.map Element.render) :=
      Text.notMem_join (by decide) hes
    simp [renderArray, hjoin]
  · exact Text.trimRight_concat ('[' :: Text.join [',', ' '] (es.map Element.render)) rfl

end Reader

/-! ## Arrays as arguments -/

theorem Command.read_renderArray {es : List Element} (hne : es ≠ []) :
    Command.read (Reader.renderArray es) = .ok (es.map (·.value)) := by
  rw [Command.read, Reader.trimLeft_renderArray]
  simp only [Reader.array_render hne fun _ _ => .inl rfl]
  rfl

theorem Command.quoting_renderArray {es : List Element} (hne : es ≠ []) :
    Command.quoting (Reader.renderArray es) =
      if ∀ e ∈ es, e.quote = .double then .double else .single := by
  rw [Command.quoting, Command.readArray, Reader.trimLeft_renderArray]
  simp only [Reader.array_render hne fun _ _ => .inl rfl]
  simp [Reader.finish]

namespace Transfer

/-- A text that does not begin with two dashes has no flags. -/
theorem readAll_of_not_dashes {t : Text} (h : ¬ ['-', '-'] <+: Text.trimLeft t) :
    Flag.readAll flags t = ([], t) := by
  have hread : ∀ f ∈ flags, f.read (Text.trimLeft t) = none := by
    intro f hf
    have hopening : ['-', '-'] <+: f.opening := by
      revert f
      decide
    cases hafter : Text.after f.opening (Text.trimLeft t) with
    | none => rw [Flag.read, hafter, Option.bind_none]
    | some left =>
      rw [Text.after_eq_some_iff] at hafter
      exact absurd (hopening.trans ⟨left, hafter.symm⟩) h
  rw [Flag.readAll_eq]
  simp only [flags, List.mem_cons, List.not_mem_nil, or_false, forall_eq_or_imp, forall_eq] at hread
  simp only [flags, Flag.pick, hread.1, hread.2, Option.map_none]

/-- No flag begins with a bracket, so that the flags of a bracketed text are none. -/
theorem readAll_bracket (t : Text) : Flag.readAll flags ('[' :: t) = ([], '[' :: t) := by
  refine readAll_of_not_dashes ?_
  rw [Text.trimLeft_eq_self rfl]
  rintro ⟨left, hleft⟩
  cases hleft

theorem exists_concat_of_two_le {l : List Text} (h : 2 ≤ l.length) :
    ∃ sources destination, sources ≠ [] ∧ l = sources ++ [destination] := by
  rcases List.eq_nil_or_concat l with rfl | ⟨sources, destination, rfl⟩
  · simp at h
  · rw [List.concat_eq_append] at h ⊢
    refine ⟨sources, destination, ?_, rfl⟩
    rintro rfl
    simp at h

theorem divide_concat {sources : List Text} (hne : sources ≠ []) (destination : Text) :
    divide (sources ++ [destination]) = some (sources, destination) := by
  rw [divide, List.dropLast_concat, List.getLast?_concat]
  obtain ⟨source, sources, rfl⟩ := List.exists_cons_of_ne_nil hne
  rfl

theorem read_renderArray {es : List Element} (h : ∀ e ∈ es, e.quote = .double)
    {sources : List Text} {destination : Text} (hne : sources ≠ [])
    (hes : es.map (·.value) = sources ++ [destination]) :
    Transfer.read (Reader.renderArray es) = .ok ⟨none, none, sources, destination⟩ := by
  have hes' : es ≠ [] := by
    rintro rfl
    simp at hes
  have harray : readArray (Reader.renderArray es) = .ok (sources, destination) := by
    rw [readArray]
    simp only [Reader.array_render hes' fun e he => .inr (h e he), hes, divide_concat hne]
    rfl
  rw [Transfer.read, Reader.renderArray, readAll_bracket, ← Reader.renderArray,
    Reader.trimLeft_renderArray, readParts, harray]
  rfl

end Transfer

/-! ## Arrays in documents -/

/-- **Arrays are read back from a document.** Behind `CMD`, `ENTRYPOINT`, `RUN`, `SHELL` or
`VOLUME`, an array of any strings in any quotes is one instruction whose arguments are those
strings, and its quoting is double exactly if every element is in double quotes. Behind `ADD` or
`COPY`, two or more strings in double quotes are the sources and the destination. -/
theorem Document.parse_array (es : List Element) (hne : es ≠ []) :
    (∀ k ∈ [Keyword.cmd, .entrypoint, .run, .shell, .volume],
      ∃ d i, Document.parse (k.text ++ ' ' :: (Reader.renderArray es ++ ['\n'])) = .ok d ∧
        d.instructions = [i] ∧ i.keyword = k ∧ i.isValid ∧
        i.args = .ofOperand k (.command (es.map (·.value))) ∧
        (i.quoting = .double ↔ ∀ e ∈ es, e.quote = .double) ∧
        (i.quoting = .single ↔ ¬ ∀ e ∈ es, e.quote = .double)) ∧
    (∀ k ∈ [Keyword.add, .copy], 2 ≤ es.length → (∀ e ∈ es, e.quote = .double) →
      ∃ d i, ∃ parts : Transfer,
        Document.parse (k.text ++ ' ' :: (Reader.renderArray es ++ ['\n'])) = .ok d ∧
        d.instructions = [i] ∧ i.keyword = k ∧ i.isValid ∧
        i.args = .ofOperand k (.transfer parts) ∧
        parts.sources ++ [parts.destination] = es.map (·.value) ∧
        parts.owner = none ∧ parts.origin = none) := by
  constructor
  · intro k hk
    have hform : k.form? = some .command := by
      revert hk
      cases k <;> decide
    have hread : Form.read .command (Reader.renderArray es) = .ok (.command (es.map (·.value))) := by
      rw [Form.read, Command.read_renderArray hne]
      rfl
    obtain ⟨d, i, hd, hi, hk, hvalid, hargument, hargs⟩ :=
      Document.parse_operand (Reader.argument_renderArray es) hform hread
    refine ⟨d, i, hd, hi, hk, hvalid, hargs, ?_⟩
    rw [Instruction.quoting, hargument, Command.quoting_renderArray hne]
    by_cases hdouble : ∀ e ∈ es, e.quote = .double
    · rw [if_pos hdouble]
      exact ⟨by simpa using hdouble, by simpa using hdouble⟩
    · rw [if_neg hdouble]
      exact ⟨by simpa using hdouble, by simpa using hdouble⟩
  · intro k hk hlen hquote
    have hform : k.form? = some .transfer := by
      revert hk
      cases k <;> decide
    -- the last element is the destination, and there is one before it
    obtain ⟨sources, destination, hne, hcut⟩ := Transfer.exists_concat_of_two_le (l := es.map (·.value))
      (by rwa [List.length_map])
    have hread : Form.read .transfer (Reader.renderArray es) =
        .ok (.transfer ⟨none, none, sources, destination⟩) := by
      rw [Form.read, Transfer.read_renderArray hquote hne hcut]
      rfl
    obtain ⟨d, i, hd, hi, hk, hvalid, -, hargs⟩ :=
      Document.parse_operand (Reader.argument_renderArray es) hform hread
    exact ⟨d, i, _, hd, hi, hk, hvalid, hargs, hcut.symm, rfl, rfl⟩

/-- A backslash and a quote with a comment sign behind it, as the elements of an array. -/
theorem Document.parse_array_backslash :
    ([⟨.double, ['\\']⟩, ⟨.double, ['"', '#', '\n']⟩] : List Element) ≠ [] ∧
    (∃ d i, Document.parse "CMD [\"\\\\\", \"\\\"#\\n\"]\n".toList = .ok d ∧ d.instructions = [i] ∧
      i.args = .cmd (some [['\\'], ['"', '#', '\n']]) ∧ i.quoting = .double) ∧
    ∃ d i, ∃ parts : Transfer, Document.parse "COPY [\"\\\\\", \"\\\"#\\n\"]\n".toList = .ok d ∧
      d.instructions = [i] ∧ i.args = .copy parts.toArgs ∧
      parts.sources ++ [parts.destination] = [['\\'], ['"', '#', '\n']] := by
  have hne : ([⟨.double, ['\\']⟩, ⟨.double, ['"', '#', '\n']⟩] : List Element) ≠ [] := by simp
  obtain ⟨hcommand, htransfer⟩ := Document.parse_array _ hne
  obtain ⟨d, i, hd, hi, -, -, hargs, hdouble, -⟩ := hcommand .cmd (by decide)
  obtain ⟨d', i', parts, hd', hi', -, -, hargs', hparts, -⟩ :=
    htransfer .copy (by decide) (by decide) (by decide)
  exact ⟨hne, ⟨d, i, hd, hi, hargs, hdouble.2 (by decide)⟩, d', i', parts, hd', hi', hargs', hparts⟩

end Dockerlint
