import Mathlib
import Dockerlint.Proofs.Document.Append

/-!
# The stages of instructions

Each `FROM` begins a block, and the instructions of a block carry the stage of the block. The stage
has the name that the `FROM` gives. A `FROM` that gives none, or that does not fit its grammar,
begins a stage with the number of the `FROM`s before it. Numbers are never given twice, whatever the
names in between are, so a query for the number of a block selects that block and nothing else,
although it selects by value. Before the first `FROM` the number is -1, and no name is taken for a
number.

## Main definitions

* `Instruction.Names`: a `FROM` that fits its grammar and gives its stage a name
* `Document.Tagged`: the instructions of a document carry the stages of their blocks

## Main results

* `Instruction.Parsed.names_iff`: a name among the arguments is one of a valid `FROM`
* `Block.Numbered.stage_getElem?`: the stage of a block by its place
* `Block.Numbered.filter_numbered`: the only block with a number
* `Document.exists_tagged`: the instructions of a document carry the stages of their blocks
-/

namespace Dockerlint

/-! ## Names -/

/-- A `FROM` that fits its grammar and gives its stage a name. -/
def Instruction.Names (i : Instruction) (name : Text) : Prop :=
  i.isValid ∧ ∃ base, i.args = .fromImage base ∧ base.stageName = some name

theorem Args.image?_eq_some_iff {a : Args} {base : ImageArgs} :
    a.image? = some base ↔ a = .fromImage base := by
  cases a <;> simp [image?]

/-- An instruction that does not fit its grammar has no attributes, and so no name to give. -/
theorem Instruction.Parsed.names_iff {i : Instruction} (h : i.Parsed) {name : Text} :
    i.Names name ↔ i.args.image?.bind (·.stageName) = some name := by
  rw [Option.bind_eq_some_iff]
  simp only [Args.image?_eq_some_iff]
  refine ⟨fun hnames => hnames.2, fun hnamed => ⟨?_, hnamed⟩⟩
  by_contra hvalid
  obtain ⟨base, hargs, hname⟩ := hnamed
  have hempty := h.args_of_syntaxErrors (mt List.isEmpty_iff.2 hvalid)
  have hfield : i.args.field? "stage_name" = some (.text name) := by
    rw [hargs]
    exact congrArg (Option.map Field.text) hname
  rw [hempty, Args.field?_empty] at hfield
  cases hfield

namespace Block

theorem name?_eq_none_iff {b : Block} (h : b.opening.Parsed) :
    b.name? = none ↔ ∀ name, ¬ b.opening.Names name := by
  rw [Option.eq_none_iff_forall_ne_some]
  exact forall_congr' fun name => not_congr h.names_iff.symm

/-! ## Blocks by their places -/

section Numbered

variable {ordinal k : Nat} {b : Block} {blocks : List Block}

/-- The stage of a block is that of its `FROM`, with as many others before it. -/
theorem Numbered.stage_getElem? (h : Numbered ordinal blocks) (hb : blocks[k]? = some b) :
    b.stage = Stage.ofImage b.opening (ordinal + k) := by
  induction blocks generalizing ordinal k with
  | nil => cases hb
  | cons c blocks ih =>
    obtain ⟨hstage, hnumbered⟩ := h
    cases k with
    | zero =>
      obtain rfl := Option.some.inj hb
      exact hstage
    | succ k =>
      rw [ih hnumbered hb, Nat.add_assoc, Nat.add_comm 1 k]

theorem Numbered.stage_of_name (h : Numbered ordinal blocks) (hb : blocks[k]? = some b)
    {name : Text} (hname : b.name? = some name) : b.stage = .named name := by
  rw [name?] at hname
  rw [h.stage_getElem? hb, Stage.ofImage, hname]

theorem Numbered.stage_of_no_name (h : Numbered ordinal blocks) (hb : blocks[k]? = some b)
    (hname : b.name? = none) : b.stage = .numbered (ordinal + k : Nat) := by
  rw [name?] at hname
  rw [h.stage_getElem? hb, Stage.ofImage, hname]

/-- The numbers of later blocks are greater. -/
theorem Numbered.filter_earlier (h : Numbered ordinal blocks) {n : Nat} (hn : n < ordinal) :
    blocks.filter (·.stage == .numbered n) = [] := by
  rw [List.filter_eq_nil_iff]
  intro c hc
  rw [beq_iff_eq]
  intro hstage
  rcases h.stage_cases hc with ⟨name, -, hnamed⟩ | ⟨m, hm, -, hnumber⟩
  · cases hnamed.symm.trans hstage
  · have := Stage.numbered.inj (hnumber.symm.trans hstage)
    omega

/-- **The only block with a number** is the one at that place, if its `FROM` gives no name. -/
theorem Numbered.filter_numbered (h : Numbered ordinal blocks) (hb : blocks[k]? = some b)
    (hname : b.name? = none) : blocks.filter (·.stage == .numbered (ordinal + k : Nat)) = [b] := by
  induction blocks generalizing ordinal k with
  | nil => cases hb
  | cons c blocks ih =>
    have hnumbered : Numbered (ordinal + 1) blocks := h.2
    cases k with
    | zero =>
      have hstage := h.stage_of_no_name hb hname
      obtain rfl := Option.some.inj hb
      have hlater : ordinal + 0 < ordinal + 1 := Nat.lt_succ_self ordinal
      rw [List.filter_cons_of_pos (by simp [hstage]), hnumbered.filter_earlier hlater]
    | succ k =>
      -- the first block has a name or a smaller number
      have hne : c.stage ≠ .numbered (ordinal + (k + 1) : Nat) := by
        intro hstage
        rw [h.1, Stage.ofImage] at hstage
        split at hstage
        · cases hstage
        · have := Stage.numbered.inj hstage
          omega
      have hplace : ordinal + (k + 1) = ordinal + 1 + k := by omega
      rw [List.filter_cons_of_neg (by simpa only [beq_iff_eq] using hne), hplace,
        ih hnumbered hb]

end Numbered

end Block

namespace Document

/-! ## Documents -/

/-- The instructions of a document carry the stages of their blocks, and the stages are named and
numbered by the `FROM`s of the blocks. -/
structure Tagged (d : Document) (front : List Instruction) (blocks : List Block) : Prop where
  /-- The document is what stands before its first `FROM`, and then its blocks. -/
  instructions : d.instructions = front ++ blocks.flatMap Block.instructions
  keyword_front : ∀ i ∈ front, i.keyword ≠ .fromImage
  /-- There is one block for each `FROM`, and one stage for each block. -/
  openings : d.ofKeyword .fromImage none = blocks.map Block.opening
  length_stages : d.stages.length = blocks.length
  /-- The stage of a block has the name that its `FROM` gives. -/
  named : ∀ (k : Nat) b name, blocks[k]? = some b → b.opening.Names name →
    d.stages[k]? = some (.named name)
  /-- Otherwise it has the number of its place, from 0 on. -/
  numbered : ∀ (k : Nat) b, blocks[k]? = some b → (∀ name, ¬ b.opening.Names name) →
    d.stages[k]? = some (.numbered k)
  /-- Before the first `FROM` the number is -1. -/
  stage_front : ∀ i ∈ front, i.stage = .numbered (-1)
  stage_block : ∀ (k : Nat) b, blocks[k]? = some b → ∀ i ∈ b.instructions,
    d.stages[k]? = some i.stage
  select_front : d.select (some (.numbered (-1))) = front
  /-- A number selects its block as a whole, and nothing else. -/
  select_block : ∀ (k : Nat) b, blocks[k]? = some b → (∀ name, ¬ b.opening.Names name) →
    d.select (some (.numbered k)) = b.instructions
  /-- No name is taken for a number. -/
  select_named : ∀ name n, ∀ i ∈ d.select (some (.named name)), i ∉ d.select (some (.numbered n))

namespace Layout

variable {d : Document} {front : List Instruction} {blocks : List Block} {b : Block} {k : Nat}

theorem stages_getElem? (h : d.Layout front blocks) (hb : blocks[k]? = some b) :
    d.stages[k]? = some b.stage := by
  rw [h.stages_eq, List.getElem?_map, hb]
  rfl

theorem select_beforeFirst (h : d.Layout front blocks) :
    d.select (some .beforeFirst) = front := by
  have hnone : blocks.filter (·.stage == .beforeFirst) = [] := by
    rw [List.filter_eq_nil_iff]
    intro b hb
    simpa using h.numbered.stage_ne_beforeFirst hb
  rw [h.select_eq, if_pos rfl, hnone, List.flatMap_nil, List.append_nil]

/-- A query for the number of a block without a name selects that block. -/
theorem select_numbered (h : d.Layout front blocks) (hb : blocks[k]? = some b)
    (hname : b.name? = none) : d.select (some (.numbered k)) = b.instructions := by
  have hfilter := h.numbered.filter_numbered hb hname
  have hne : Stage.numbered k ≠ .beforeFirst := by
    intro heq
    have := Stage.numbered.inj heq
    omega
  rw [Nat.zero_add] at hfilter
  rw [h.select_eq, if_neg hne, hfilter]
  simp

end Layout

theorem not_mem_select_numbered {d : Document} {name : Text} {i : Instruction}
    (h : i ∈ d.select (some (.named name))) (n : Int) : i ∉ d.select (some (.numbered n)) := by
  intro h'
  have hnamed : i.stage = .named name := by simpa [inStage] using (List.mem_filter.1 h).2
  have hnumbered : i.stage = .numbered n := by simpa [inStage] using (List.mem_filter.1 h').2
  cases hnamed.symm.trans hnumbered

/-- **The instructions of a document carry the stages of their blocks.** -/
theorem exists_tagged {content : Text} {d : Document} (h : Document.parse content = .ok d) :
    ∃ front blocks, d.Tagged front blocks := by
  obtain ⟨front, blocks, hlayout⟩ := exists_layout h
  refine ⟨front, blocks, ?_⟩
  have hselect : d.select none = d.instructions := by simp [select, inStage]
  have hparsed : ∀ {k : Nat} {b : Block}, blocks[k]? = some b → b.opening.Parsed := by
    intro k b hb
    apply parsed_of_mem h
    rw [hlayout.instructions]
    exact List.mem_append_right front
      (List.mem_flatMap.2 ⟨b, List.mem_of_getElem? hb, List.mem_cons_self ..⟩)
  exact
    { instructions := hlayout.instructions
      keyword_front := hlayout.keyword_front
      openings := by rw [ofKeyword, hselect, hlayout.filter_keyword]
      length_stages := by rw [hlayout.stages_eq, List.length_map]
      named := by
        intro k b name hb hname
        rw [hlayout.stages_getElem? hb,
          hlayout.numbered.stage_of_name hb ((hparsed hb).names_iff.1 hname)]
      numbered := by
        intro k b hb hname
        rw [hlayout.stages_getElem? hb,
          hlayout.numbered.stage_of_no_name hb ((Block.name?_eq_none_iff (hparsed hb)).2 hname),
          Nat.zero_add]
      stage_front := hlayout.stage_front
      stage_block := by
        intro k b hb i hi
        rw [hlayout.stages_getElem? hb, Block.stage_of_mem hi]
      select_front := hlayout.select_beforeFirst
      select_block := by
        intro k b hb hname
        exact hlayout.select_numbered hb ((Block.name?_eq_none_iff (hparsed hb)).2 hname)
      select_named := fun name n i hi => not_mem_select_numbered hi n }

/-- A stage whose name is the number of the next one, and a `FROM` that does not fit its grammar. -/
theorem exists_tagged_digits :
    ∃ d, Document.parse "ARG v\nFROM a AS 1\nRUN b\nFROM\nCMD c\n".toList = .ok d ∧
      d.stages = [.named ['1'], .numbered 1] ∧
      (d.select (some (.named ['1']))).map (·.keyword) = [.fromImage, .run] ∧
      (d.select (some (.numbered 1))).map (·.keyword) = [.fromImage, .cmd] ∧
      ∃ front blocks, d.Tagged front blocks := by
  have hparse : (Document.parse "ARG v\nFROM a AS 1\nRUN b\nFROM\nCMD c\n".toList).map
      (fun d => (d.stages, (d.select (some (.named ['1']))).map (·.keyword),
        (d.select (some (.numbered 1))).map (·.keyword))) =
        .ok ([.named ['1'], .numbered 1], [.fromImage, .run], [.fromImage, .cmd]) := by
    cbv
  obtain ⟨d, hd, hvalue⟩ := exists_of_map_eq_ok hparse
  simp only [Prod.mk.injEq] at hvalue
  obtain ⟨hstages, hnamed, hnumbered⟩ := hvalue
  exact ⟨d, hd, hstages, hnamed, hnumbered, exists_tagged hd⟩

end Document

end Dockerlint
