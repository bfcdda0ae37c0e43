import Mathlib
import Dockerlint.Lint.Rule
import Dockerlint.Proofs.Document.Blocks

/-!
# The scopes of a document

The contexts of the scopes are meant to divide a document by its `FROM`s: each instruction from the
first `FROM` on belongs to one stage, the last stage is what stands from the last `FROM` on, and the
builder stages are what stands before it. A context selects by the name or the number of a stage,
so this is so exactly if no two `FROM`s give the same name.

## Main definitions

* `Document.Divided`: a document divided at its first and at its last `FROM`
* `Document.ScopesPartition`: the scopes follow that division

## Main results

* `Document.Divided.unique`: a document is divided in one way
* `Document.scopesPartition_iff`: the scopes follow the division exactly if no name repeats
-/

namespace Dockerlint.Document

/-- A document divided at its first and at its last `FROM`. -/
structure Divided (d : Document) (front builders final : List Instruction) : Prop where
  instructions : d.instructions = front ++ (builders ++ final)
  front : ∀ i ∈ front, i.keyword ≠ .fromImage
  builders : ∀ i, builders.head? = some i → i.keyword = .fromImage
  final : ∃ i others, final = i :: others ∧ i.keyword = .fromImage ∧
    ∀ j ∈ others, j.keyword ≠ .fromImage

/-- The scopes follow the division of a document: every instruction from the first `FROM` on is
selected by exactly one context of every stage, the context of the last stage selects what stands
from the last `FROM` on, the contexts of the builder stages select together what stands before it,
and no instruction is selected by both of these. -/
structure ScopesPartition (d : Document) (policy : Policy)
    (builders final : List Instruction) : Prop where
  everyStage : ∀ i ∈ builders ++ final,
    (Scope.everyStage.contexts d policy).countP (fun c => i ∈ d.select c.stage) = 1
  lastStage : (Scope.lastStage.contexts d policy).map (fun c => d.select c.stage) = [final]
  builderStages :
    (Scope.builderStages.contexts d policy).flatMap (fun c => d.select c.stage) = builders
  disjoint : ∀ c ∈ Scope.builderStages.contexts d policy, ∀ i ∈ d.select c.stage,
    ∀ c' ∈ Scope.lastStage.contexts d policy, i ∉ d.select c'.stage

namespace Divided

variable {d : Document} {front builders final front' builders' final' : List Instruction}

theorem head?_append (h : d.Divided front builders final) {i : Instruction}
    (hi : (builders ++ final).head? = some i) : i.keyword = .fromImage := by
  cases builders with
  | nil =>
    obtain ⟨j, others, rfl, hj, -⟩ := h.final
    exact Option.some.inj hi ▸ hj
  | cons j builders => exact h.builders i hi

/-- What stands before the first `FROM` does not reach behind it. -/
theorem front_eq_of_append (h : d.Divided front builders final)
    (h' : d.Divided front' builders' final') {between : List Instruction}
    (hfront : front' = front ++ between) : front' = front := by
  cases between with
  | nil => rw [hfront, List.append_nil]
  | cons i between =>
    have hinstructions := h.instructions.symm.trans h'.instructions
    rw [hfront, List.append_assoc, List.append_cancel_left_eq] at hinstructions
    have hi : i.keyword = .fromImage := h.head?_append (by rw [hinstructions]; rfl)
    exact absurd hi (h'.front i (by simp [hfront]))

/-- What stands from the last `FROM` on does not begin before it. -/
theorem builders_eq_of_append (h : d.Divided front builders final)
    (h' : d.Divided front builders' final') {between : List Instruction}
    (hbuilders : builders' = builders ++ between) : builders' = builders := by
  cases between with
  | nil => rw [hbuilders, List.append_nil]
  | cons j between =>
    have hinstructions := h.instructions.symm.trans h'.instructions
    rw [hbuilders, List.append_assoc, List.append_cancel_left_eq,
      List.append_cancel_left_eq] at hinstructions
    -- the `FROM` of the second division stands behind that of the first
    obtain ⟨i, others, rfl, -, hothers⟩ := h.final
    obtain ⟨i', others', rfl, hi', -⟩ := h'.final
    rw [List.cons_append, List.cons.injEq] at hinstructions
    exact absurd hi' (hothers i' (by simp [hinstructions.2]))

/-- **A document is divided in one way.** -/
theorem unique (h : d.Divided front builders final) (h' : d.Divided front' builders' final') :
    front = front' ∧ builders = builders' ∧ final = final' := by
  have hinstructions := h.instructions.symm.trans h'.instructions
  have hfront : front = front' := by
    rcases List.append_eq_append_iff.1 hinstructions with ⟨between, hb, -⟩ | ⟨between, hb, -⟩
    · exact (h.front_eq_of_append h' hb).symm
    · exact h'.front_eq_of_append h hb
  subst hfront
  rw [List.append_cancel_left_eq] at hinstructions
  have hbuilders : builders = builders' := by
    rcases List.append_eq_append_iff.1 hinstructions with ⟨between, hb, -⟩ | ⟨between, hb, -⟩
    · exact (h.builders_eq_of_append h' hb).symm
    · exact h'.builders_eq_of_append h hb
  subst hbuilders
  exact ⟨rfl, rfl, List.append_cancel_left hinstructions⟩

end Divided

theorem mem_select_iff {d : Document} {s : Stage} {i : Instruction} :
    i ∈ d.select (some s) ↔ i ∈ d.instructions ∧ i.stage = s := by
  rw [select, List.mem_filter, inStage, beq_iff_eq]

namespace Layout

variable {d : Document} {front : List Instruction} {blocks : List Block} {b : Block}

/-- The division of a document by its blocks. -/
theorem divided (h : d.Layout front (blocks ++ [b])) :
    d.Divided front (blocks.flatMap Block.instructions) b.instructions where
  instructions := by
    rw [h.instructions, List.flatMap_append]
    simp
  front := h.keyword_front
  builders := by
    intro i hi
    cases blocks with
    | nil => simp at hi
    | cons c blocks =>
      rw [List.flatMap_cons, Block.instructions, List.cons_append, List.head?_cons] at hi
      rw [← Option.some.inj hi]
      exact c.keyword_opening
  final := ⟨b.opening, b.others, rfl, b.keyword_opening, b.keyword_others⟩

theorem lastStage_eq (h : d.Layout front (blocks ++ [b])) : d.lastStage = b.stage := by
  rw [lastStage, h.stages_eq, List.map_append, List.map_singleton, List.getLast?_concat]
  rfl

/-- The contexts of every stage that select an instruction of a block are those of its stage. -/
theorem countP_everyStage (h : d.Layout front blocks) (policy : Policy) (hb : b ∈ blocks)
    {i : Instruction} (hi : i ∈ b.instructions) :
    (Scope.everyStage.contexts d policy).countP (fun c => i ∈ d.select c.stage) =
      d.stages.count b.stage := by
  have hmem : i ∈ d.instructions := by
    rw [h.instructions, List.mem_append]
    exact .inr (List.mem_flatMap.2 ⟨b, hb, hi⟩)
  rw [Scope.contexts, Scope.stages, List.countP_map, List.countP_map, List.count]
  refine List.countP_congr fun s _ => ?_
  simp only [Function.comp_apply, decide_eq_true_eq, beq_iff_eq]
  rw [mem_select_iff, Block.stage_of_mem hi]
  exact ⟨fun hs => hs.2.symm, fun hs => ⟨hmem, hs.symm⟩⟩

/-- Where no stage repeats, the scopes follow the division by blocks. -/
theorem scopesPartition (h : d.Layout front (blocks ++ [b])) (hnodup : d.stages.Nodup)
    (policy : Policy) :
    d.ScopesPartition policy (blocks.flatMap Block.instructions) b.instructions := by
  have hlast := h.lastStage_eq
  have hbuilders : d.stages.dropLast = blocks.map Block.stage := by
    rw [h.stages_eq, List.map_append, List.map_singleton, List.dropLast_concat]
  refine ⟨?_, ?_, ?_, ?_⟩
  · -- the stage of a block occurs once among the stages, and so does its context
    intro i hi
    have hi' : i ∈ (blocks ++ [b]).flatMap Block.instructions := by
      rw [List.flatMap_append]
      simpa using hi
    obtain ⟨c, hc, hic⟩ := List.mem_flatMap.1 hi'
    have hstage : c.stage ∈ d.stages := by
      rw [h.stages_eq]
      exact List.mem_map_of_mem hc
    rw [h.countP_everyStage policy hc hic, hnodup.count, if_pos hstage]
  · simp only [Scope.contexts, Scope.stages, List.map_singleton, hlast]
    rw [h.select_block hnodup (by simp)]
  · simp only [Scope.contexts, Scope.stages, hbuilders, List.map_map, List.flatMap_map]
    rw [List.flatMap_def, List.flatMap_def]
    congr 1
    refine List.map_congr_left fun c hc => ?_
    exact h.select_block hnodup (List.mem_append_left _ hc)
  · -- an instruction selected twice would be in two stages
    intro c hc i hi c' hc' hi'
    simp only [Scope.contexts, Scope.stages, hbuilders, hlast, List.map_map, List.mem_map,
      List.map_singleton, List.mem_singleton] at hc hc'
    obtain ⟨b', hb', rfl⟩ := hc
    subst hc'
    have hstage : b'.stage = b.stage :=
      (mem_select_iff.1 hi).2.symm.trans (mem_select_iff.1 hi').2
    rw [h.stages_eq, List.map_append, List.nodup_append] at hnodup
    exact hnodup.2.2 _ (List.mem_map_of_mem hb') _ (by simp) hstage

/-- If the contexts of every stage select each instruction once, no stage repeats. -/
theorem nodup_stages_of_everyStage (h : d.Layout front blocks) {policy : Policy}
    (hone : ∀ i ∈ blocks.flatMap Block.instructions,
      (Scope.everyStage.contexts d policy).countP (fun c => i ∈ d.select c.stage) = 1) :
    d.stages.Nodup := by
  rw [List.nodup_iff_count]
  intro s
  by_cases hs : s ∈ d.stages
  · rw [h.stages_eq] at hs
    obtain ⟨b, hb, rfl⟩ := List.mem_map.1 hs
    -- the `FROM` of the stage is selected by each context of the stage
    have hopening : b.opening ∈ b.instructions := List.mem_cons_self ..
    rw [← h.countP_everyStage policy hb hopening]
    exact Nat.le_of_eq (hone _ (List.mem_flatMap.2 ⟨b, hb, hopening⟩))
  · rw [List.count_eq_zero_of_not_mem hs]
    exact Nat.zero_le 1

end Layout

/-- A document with a `FROM` has a last block. -/
theorem exists_layout_concat {content : Text} {d : Document}
    (h : Document.parse content = .ok d) (hfrom : ∃ i ∈ d.instructions, i.keyword = .fromImage) :
    ∃ front blocks b, d.Layout front (blocks ++ [b]) := by
  obtain ⟨front, blocks, hlayout⟩ := exists_layout h
  rcases List.eq_nil_or_concat blocks with rfl | ⟨blocks, b, rfl⟩
  · obtain ⟨i, hi, hkeyword⟩ := hfrom
    rw [hlayout.instructions, List.flatMap_nil, List.append_nil] at hi
    exact absurd hkeyword (hlayout.keyword_front i hi)
  · exact ⟨front, blocks, b, List.concat_eq_append ▸ hlayout⟩

/-- The scopes follow the division by blocks exactly if no stage repeats. -/
theorem Layout.scopesPartition_iff_nodup_stages {d : Document} {front : List Instruction}
    {blocks : List Block} {b : Block} (h : d.Layout front (blocks ++ [b])) (policy : Policy) :
    d.ScopesPartition policy (blocks.flatMap Block.instructions) b.instructions ↔
      d.stages.Nodup := by
  constructor
  · intro hpartition
    refine h.nodup_stages_of_everyStage fun i hi => hpartition.everyStage i ?_
    rw [List.flatMap_append] at hi
    simpa using hi
  · intro hnodup
    exact h.scopesPartition hnodup policy

/-- **The scopes follow the division of a document exactly if no two of its `FROM`s give the same
name.** Numbers never repeat, and a `FROM` that does not fit its grammar gives no name. -/
theorem scopesPartition_iff {content : Text} {d : Document}
    (h : Document.parse content = .ok d) (hfrom : ∃ i ∈ d.instructions, i.keyword = .fromImage) :
    (∃ front builders final, d.Divided front builders final) ∧
      ∀ policy front builders final, d.Divided front builders final →
        (d.ScopesPartition policy builders final ↔ d.stageNames.Nodup) := by
  obtain ⟨_, _, _, hlayout⟩ := exists_layout_concat h hfrom
  refine ⟨⟨_, _, _, hlayout.divided⟩, ?_⟩
  intro policy front builders final hdivided
  obtain ⟨-, rfl, rfl⟩ := hlayout.divided.unique hdivided
  rw [← hlayout.nodup_stages_iff]
  exact hlayout.scopesPartition_iff_nodup_stages policy

/-- A named stage, and a `FROM` that does not fit its grammar, behind an argument. -/
theorem scopesPartition_of_distinct :
    ∃ d, Document.parse "ARG v\nFROM a AS x\nRUN b\nFROM\nCMD c\n".toList = .ok d ∧
      (∃ i ∈ d.instructions, i.keyword = .fromImage) ∧
      ∃ front builders final, d.Divided front builders final ∧
        d.ScopesPartition {} builders final := by
  have hparse : (Document.parse "ARG v\nFROM a AS x\nRUN b\nFROM\nCMD c\n".toList).map
      (fun d => (decide (∃ i ∈ d.instructions, i.keyword = .fromImage), d.stageNames)) =
        .ok (true, [['x']]) := by
    cbv
  obtain ⟨d, hd, hvalue⟩ := exists_of_map_eq_ok hparse
  obtain ⟨hfrom, hnames⟩ := Prod.mk.inj hvalue
  have hfrom := of_decide_eq_true hfrom
  obtain ⟨⟨front, builders, final, hdivided⟩, hiff⟩ := scopesPartition_iff hd hfrom
  refine ⟨d, hd, hfrom, front, builders, final, hdivided, (hiff _ _ _ _ hdivided).2 ?_⟩
  rw [hnames]
  decide

/-- Two stages with the same name: the context of the last stage selects both. -/
theorem select_lastStage_repeated :
    ∃ d, Document.parse "FROM a AS x\nRUN b\nFROM c AS x\nRUN d\n".toList = .ok d ∧
      d.instructions.map (·.keyword) = [.fromImage, .run, .fromImage, .run] ∧
      d.select (some d.lastStage) = d.instructions ∧
      ∀ policy front builders final, d.Divided front builders final →
        ¬ d.ScopesPartition policy builders final := by
  have hparse : (Document.parse "FROM a AS x\nRUN b\nFROM c AS x\nRUN d\n".toList).map
      (fun d => (d.instructions.map (·.keyword),
        decide (d.select (some d.lastStage) = d.instructions), d.stages)) =
        .ok ([.fromImage, .run, .fromImage, .run], true, [.named ['x'], .named ['x']]) := by
    cbv
  obtain ⟨d, hd, hvalue⟩ := exists_of_map_eq_ok hparse
  obtain ⟨hkeywords, hvalue⟩ := Prod.mk.inj hvalue
  obtain ⟨hselect, hstages⟩ := Prod.mk.inj hvalue
  refine ⟨d, hd, hkeywords, of_decide_eq_true hselect, ?_⟩
  intro policy front builders final hdivided hpartition
  -- the division has a `FROM`, so it is that by blocks
  obtain ⟨i, others, hfinal, hi, -⟩ := hdivided.final
  have hfrom : ∃ i ∈ d.instructions, i.keyword = .fromImage :=
    ⟨i, by rw [hdivided.instructions, hfinal]; simp, hi⟩
  obtain ⟨_, _, _, hlayout⟩ := exists_layout_concat hd hfrom
  obtain ⟨-, rfl, rfl⟩ := hlayout.divided.unique hdivided
  have hnodup := (hlayout.scopesPartition_iff_nodup_stages policy).1 hpartition
  rw [hstages] at hnodup
  exact absurd hnodup (by decide)

end Dockerlint.Document
