import Dockerlint.Document.Query

/-!
# The blocks of a document

Stages are known by name or number, so a query for a stage selects by value. By position, a
document is its instructions before the first `FROM` and then one block for each `FROM`. All
instructions of a block are in the stage that its `FROM` begins, and a query for a stage selects
the blocks of that stage. Numbers never repeat, so two blocks share a stage exactly if their `FROM`s
give the same name.

## Main definitions

* `Block`: a `FROM` and the instructions up to the next one
* `Block.Numbered`: blocks whose stages are assigned from a given ordinal on
* `Document.Layout`: a document as its front and its blocks
* `Document.stageNames`: the names that the `FROM`s of a document give

## Main results

* `Stage.exists_blocks_of_assign`: assigning stages gives numbered blocks
* `Document.exists_layout`: a document has a layout
* `Document.Layout.select_eq`: what a query for a stage selects
* `Document.Layout.nodup_stages_iff`: stages repeat exactly if names do
-/

namespace Dockerlint

/-! ## Blocks -/

/-- The instructions from one `FROM` up to the next, all of them in its stage. -/
structure Block where
  /-- The `FROM` that begins the stage. -/
  opening : Instruction
  /-- The instructions behind it. -/
  others : List Instruction
  keyword_opening : opening.keyword = .fromImage
  keyword_others : ∀ i ∈ others, i.keyword ≠ .fromImage
  stage_others : ∀ i ∈ others, i.stage = opening.stage

namespace Block

/-- The instructions of a block in order. -/
def instructions (b : Block) : List Instruction := b.opening :: b.others

/-- The stage of a block. -/
def stage (b : Block) : Stage := b.opening.stage

/-- The name that the `FROM` of a block gives. -/
def name? (b : Block) : Option Text := b.opening.args.image?.bind (·.stageName)

/-- The stages of blocks are those of their `FROM`s, where `ordinal` others began before. -/
def Numbered : (ordinal : Nat) → List Block → Prop
  | _, [] => True
  | ordinal, b :: bs => b.stage = Stage.ofImage b.opening ordinal ∧ Numbered (ordinal + 1) bs

theorem stage_of_mem {b : Block} {i : Instruction} (h : i ∈ b.instructions) :
    i.stage = b.stage := by
  rcases List.mem_cons.1 h with rfl | h
  · rfl
  · exact b.stage_others i h

end Block

namespace Stage

/-- **Assigning stages gives numbered blocks**, behind instructions in the current stage. -/
theorem exists_blocks_of_assign (ordinal : Nat) (current : Stage) (is : List Instruction) :
    ∃ front blocks,
      (assign ordinal current is).1 = front ++ blocks.flatMap Block.instructions ∧
      (∀ i ∈ front, i.keyword ≠ .fromImage) ∧ (∀ i ∈ front, i.stage = current) ∧
      Block.Numbered ordinal blocks := by
  -- the induction is on the instructions, so the ordinal and the current stage vary
  induction is generalizing ordinal current with
  | nil => exact ⟨[], [], rfl, by simp, by simp, trivial⟩
  | cons i is ih =>
    by_cases hi : i.keyword = .fromImage
    · -- a `FROM` closes the front that follows it into a block
      obtain ⟨front, blocks, hassign, hkeyword, hstage, hnumbered⟩ :=
        ih (ordinal + 1) (ofImage i ordinal)
      let b : Block := ⟨{ i with stage := ofImage i ordinal }, front, hi, hkeyword, hstage⟩
      refine ⟨[], b :: blocks, ?_, by simp, by simp, rfl, hnumbered⟩
      rw [assign_cons_of_image ordinal current is hi, hassign]
      rfl
    · obtain ⟨front, blocks, hassign, hkeyword, hstage, hnumbered⟩ := ih ordinal current
      refine ⟨{ i with stage := current } :: front, blocks, ?_, ?_, ?_, hnumbered⟩
      · rw [assign_cons_of_ne ordinal current is hi, hassign]
        rfl
      · intro j hj
        rcases List.mem_cons.1 hj with rfl | hj
        · exact hi
        · exact hkeyword j hj
      · intro j hj
        rcases List.mem_cons.1 hj with rfl | hj
        · rfl
        · exact hstage j hj

end Stage

namespace Block

/-! ## The stages of blocks -/

theorem filter_keyword (blocks : List Block) :
    (blocks.flatMap instructions).filter (·.keyword == .fromImage) = blocks.map (·.opening) := by
  induction blocks with
  | nil => rfl
  | cons b blocks ih =>
    have hothers : b.others.filter (·.keyword == .fromImage) = [] := by
      rw [List.filter_eq_nil_iff]
      intro i hi
      simpa using b.keyword_others i hi
    rw [List.flatMap_cons, List.filter_append, ih, instructions,
      List.filter_cons_of_pos (by simp [b.keyword_opening]), hothers]
    rfl

/-- A query for a stage takes a block as a whole or not at all. -/
theorem filter_stage (blocks : List Block) (s : Stage) :
    (blocks.flatMap instructions).filter (·.stage == s) =
      (blocks.filter (·.stage == s)).flatMap instructions := by
  induction blocks with
  | nil => rfl
  | cons b blocks ih =>
    rw [List.flatMap_cons, List.filter_append, ih]
    -- all instructions of a block are in its stage
    by_cases hb : b.stage = s
    · have hall : b.instructions.filter (·.stage == s) = b.instructions := by
        rw [List.filter_eq_self]
        intro i hi
        simp [stage_of_mem hi, hb]
      rw [hall, List.filter_cons_of_pos (by simp [hb]), List.flatMap_cons]
    · have hnone : b.instructions.filter (·.stage == s) = [] := by
        rw [List.filter_eq_nil_iff]
        intro i hi
        simp [stage_of_mem hi, hb]
      rw [hnone, List.filter_cons_of_neg (by simp [hb]), List.nil_append]

theorem filter_stage_of_nodup {blocks : List Block} (h : (blocks.map stage).Nodup) {b : Block}
    (hb : b ∈ blocks) : blocks.filter (·.stage == b.stage) = [b] := by
  induction blocks with
  | nil => simp at hb
  | cons c blocks ih =>
    rw [List.map_cons, List.nodup_cons] at h
    obtain ⟨hfresh, hnodup⟩ := h
    rcases List.mem_cons.1 hb with rfl | hb
    · -- the first block with the stage is the only one
      have hnone : blocks.filter (·.stage == b.stage) = [] := by
        rw [List.filter_eq_nil_iff]
        intro b' hb'
        simp only [beq_iff_eq]
        intro hstage
        exact hfresh (hstage ▸ List.mem_map_of_mem hb')
      rw [List.filter_cons_of_pos (by simp), hnone]
    · have hne : c.stage ≠ b.stage := by
        intro hstage
        exact hfresh (hstage ▸ List.mem_map_of_mem hb)
      rw [List.filter_cons_of_neg (by simp [hne]), ih hnodup hb]

section Numbered

variable {ordinal : Nat} {b : Block} {blocks : List Block}

/-- The stage of a block has its name, or else a number from the first ordinal on. -/
theorem Numbered.stage_cases (h : Numbered ordinal blocks) (hb : b ∈ blocks) :
    (∃ name, b.name? = some name ∧ b.stage = .named name) ∨
      ∃ n : Nat, ordinal ≤ n ∧ b.name? = none ∧ b.stage = .numbered n := by
  induction blocks generalizing ordinal with
  | nil => simp at hb
  | cons b' blocks ih =>
    obtain ⟨hstage, hnumbered⟩ := h
    rcases List.mem_cons.1 hb with rfl | hb
    · rw [hstage, Stage.ofImage]
      cases hname : b.name? with
      | some name => exact .inl ⟨name, rfl, by rw [name?] at hname; rw [hname]⟩
      | none => exact .inr ⟨ordinal, Nat.le_refl _, rfl, by rw [name?] at hname; rw [hname]⟩
    · rcases ih hnumbered hb with hnamed | ⟨n, hn, hrest⟩
      · exact .inl hnamed
      · exact .inr ⟨n, by omega, hrest⟩

theorem Numbered.stage_ne_beforeFirst (h : Numbered ordinal blocks) (hb : b ∈ blocks) :
    b.stage ≠ .beforeFirst := by
  rcases h.stage_cases hb with ⟨name, -, hstage⟩ | ⟨n, -, -, hstage⟩
  · rw [hstage]
    exact nofun
  · rw [hstage, Stage.beforeFirst]
    intro hn
    have := Stage.numbered.inj hn
    omega

theorem Numbered.named_mem_iff (h : Numbered ordinal blocks) (name : Text) :
    Stage.named name ∈ blocks.map stage ↔ name ∈ blocks.filterMap name? := by
  rw [List.mem_map, List.mem_filterMap]
  constructor
  · rintro ⟨b, hb, hstage⟩
    refine ⟨b, hb, ?_⟩
    rcases h.stage_cases hb with ⟨name', hname, hstage'⟩ | ⟨n, -, -, hstage'⟩
    · rw [hname, Stage.named.inj (hstage'.symm.trans hstage)]
    · exact absurd (hstage'.symm.trans hstage) nofun
  · rintro ⟨b, hb, hname⟩
    refine ⟨b, hb, ?_⟩
    rcases h.stage_cases hb with ⟨name', hname', hstage⟩ | ⟨n, -, hname', -⟩
    · rw [hstage, Option.some.inj (hname'.symm.trans hname)]
    · exact absurd (hname'.symm.trans hname) nofun

/-- **Stages repeat exactly if names do**: the numbers increase, and no number is a name. -/
theorem Numbered.nodup_iff (h : Numbered ordinal blocks) :
    (blocks.map stage).Nodup ↔ (blocks.filterMap name?).Nodup := by
  induction blocks generalizing ordinal with
  | nil => simp
  | cons b blocks ih =>
    have hnumbered : Numbered (ordinal + 1) blocks := h.2
    rw [List.map_cons, List.nodup_cons, ih hnumbered]
    rcases h.stage_cases (List.mem_cons_self ..) with ⟨name, hname, hnamed⟩ | ⟨n, -, hname, -⟩
    · rw [List.filterMap_cons_some hname, List.nodup_cons, hnamed, hnumbered.named_mem_iff]
    · -- the stages behind have greater numbers, or names
      have hfresh : b.stage ∉ blocks.map stage := by
        rw [h.1, Stage.ofImage, ← name?, hname]
        intro hmem
        obtain ⟨b', hb', hstage'⟩ := List.mem_map.1 hmem
        rcases hnumbered.stage_cases hb' with ⟨name, -, hnamed⟩ | ⟨m, hm, -, hnumber⟩
        · exact absurd (hnamed.symm.trans hstage') nofun
        · have := Stage.numbered.inj (hnumber.symm.trans hstage')
          omega
      rw [List.filterMap_cons_none hname]
      exact and_iff_right hfresh

end Numbered

end Block

namespace Document

/-! ## The layout of a document -/

/-- The names that the `FROM`s of a document give to their stages, in order. -/
def stageNames (d : Document) : List Text :=
  (d.ofKeyword .fromImage none).filterMap fun i => i.args.image?.bind (·.stageName)

/-- A document as the instructions before its first `FROM` and its blocks. -/
structure Layout (d : Document) (front : List Instruction) (blocks : List Block) : Prop where
  instructions : d.instructions = front ++ blocks.flatMap Block.instructions
  keyword_front : ∀ i ∈ front, i.keyword ≠ .fromImage
  stage_front : ∀ i ∈ front, i.stage = .beforeFirst
  numbered : Block.Numbered 0 blocks
  stages : d.stages = (d.instructions.filter (·.keyword == .fromImage)).map (·.stage)

theorem exists_layout {content : Text} {d : Document} (h : Document.parse content = .ok d) :
    ∃ front blocks, d.Layout front blocks := by
  have hstages := stages_of_parse h
  unfold Document.parse at h
  split at h
  · cases h
  · obtain ⟨is, -, rfl⟩ := exists_of_map_eq_ok h
    obtain ⟨front, blocks, hassign, hkeyword, hstage, hnumbered⟩ :=
      Stage.exists_blocks_of_assign 0 .beforeFirst is
    exact ⟨front, blocks, hassign, hkeyword, hstage, hnumbered, hstages⟩

namespace Layout

variable {d : Document} {front : List Instruction} {blocks : List Block}

theorem filter_keyword (h : d.Layout front blocks) :
    d.instructions.filter (·.keyword == .fromImage) = blocks.map (·.opening) := by
  have hfront : front.filter (·.keyword == .fromImage) = [] := by
    rw [List.filter_eq_nil_iff]
    intro i hi
    simpa using h.keyword_front i hi
  rw [h.instructions, List.filter_append, hfront, Block.filter_keyword, List.nil_append]

theorem stages_eq (h : d.Layout front blocks) : d.stages = blocks.map Block.stage := by
  rw [h.stages, h.filter_keyword, List.map_map]
  rfl

theorem stageNames_eq (h : d.Layout front blocks) :
    d.stageNames = blocks.filterMap Block.name? := by
  have hselect : d.select none = d.instructions := by
    simp [select, inStage]
  rw [stageNames, ofKeyword, hselect, h.filter_keyword, List.filterMap_map]
  rfl

/-- **What a query for a stage selects**: the front for the stage before the first `FROM`, and the
blocks of the stage, each as a whole and in order. -/
theorem select_eq (h : d.Layout front blocks) (s : Stage) :
    d.select (some s) = (if s = .beforeFirst then front else []) ++
      (blocks.filter (·.stage == s)).flatMap Block.instructions := by
  have hfront : front.filter (·.stage == s) = if s = .beforeFirst then front else [] := by
    split
    · next hs =>
      rw [List.filter_eq_self]
      intro i hi
      simp [h.stage_front i hi, hs]
    · next hs =>
      rw [List.filter_eq_nil_iff]
      intro i hi
      simp [h.stage_front i hi, Ne.symm hs]
  have hselect : d.select (some s) = d.instructions.filter (·.stage == s) := rfl
  rw [hselect, h.instructions, List.filter_append, hfront, Block.filter_stage]

/-- Where no stage repeats, a query for the stage of a block selects that block. -/
theorem select_block (h : d.Layout front blocks) (hnodup : d.stages.Nodup) {b : Block}
    (hb : b ∈ blocks) : d.select (some b.stage) = b.instructions := by
  rw [h.stages_eq] at hnodup
  rw [h.select_eq, if_neg (h.numbered.stage_ne_beforeFirst hb),
    Block.filter_stage_of_nodup hnodup hb]
  simp

theorem nodup_stages_iff (h : d.Layout front blocks) : d.stages.Nodup ↔ d.stageNames.Nodup := by
  rw [h.stages_eq, h.stageNames_eq]
  exact h.numbered.nodup_iff

end Layout

end Document

end Dockerlint
