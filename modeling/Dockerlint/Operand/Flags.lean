import Dockerlint.Reader

/-!
# Flags

Flags `--name=value` in front of an argument, in any order and each at most once. The flags end
where a text stands that is none of those not yet read: something else, a repeated flag, or a flag
whose value cannot be read. That text is left for what follows.

## Main definitions

* `Flag`: a flag and how its value is read
* `Flag.readAll`: the flags that a text begins with
-/

namespace Dockerlint

/-- A flag of kind `ι`. -/
structure Flag (ι : Type) where
  /-- Which flag it is. -/
  kind : ι
  /-- The text of the flag up to its value. -/
  opening : Text
  /-- How its value is read. -/
  value : Text → Option (Text × Text)

namespace Flag

variable {ι : Type}

/-- The value of a flag that a text begins with, and the text behind it. -/
def read (f : Flag ι) (t : Text) : Option (Text × Text) :=
  (Text.after f.opening t).bind f.value

/-- A flag that was read. -/
structure Found (ι : Type) where
  /-- Which flag it is. -/
  kind : ι
  /-- The text of its value. -/
  value : Text
  /-- The text behind it. -/
  behind : Text
  /-- The flags that may still follow. -/
  others : List (Flag ι)

/-- The flag among `flags` that a text begins with. -/
def pick (t : Text) : (flags : List (Flag ι)) → Option (Found ι)
  | [] => none
  | f :: flags =>
    match f.read t with
    | some (value, behind) => some ⟨f.kind, value, behind, flags⟩
    | none => (pick t flags).map fun found => { found with others := f :: found.others }

theorem pick_length {t : Text} {flags : List (Flag ι)} {found : Found ι}
    (h : pick t flags = some found) : found.others.length + 1 = flags.length := by
  induction flags generalizing found with
  | nil => simp [pick] at h
  | cons f flags ih =>
    rw [pick] at h
    split at h
    · obtain rfl := Option.some.inj h
      rfl
    · obtain ⟨other, ho, rfl⟩ := Option.map_eq_some_iff.1 h
      simp [← ih ho]

/-- A flag that is picked is one of the flags, and the others are those that are left. -/
theorem pick_spec {t : Text} {flags : List (Flag ι)} {found : Found ι}
    (h : pick t flags = some found) :
    (∃ f ∈ flags, f.kind = found.kind ∧ f.read t = some (found.value, found.behind)) ∧
      ∀ f ∈ found.others, f ∈ flags := by
  induction flags generalizing found with
  | nil => cases h
  | cons f flags ih =>
    rw [pick] at h
    split at h
    · next value behind hread =>
      obtain rfl := Option.some.inj h
      exact ⟨⟨f, List.mem_cons_self .., rfl, hread⟩, fun g hg => List.mem_cons_of_mem f hg⟩
    · obtain ⟨other, hother, rfl⟩ := Option.map_eq_some_iff.1 h
      obtain ⟨⟨g, hg, hkind, hread⟩, hothers⟩ := ih hother
      refine ⟨⟨g, List.mem_cons_of_mem f hg, hkind, hread⟩, fun e he => ?_⟩
      rcases List.mem_cons.1 he with rfl | he
      · exact List.mem_cons_self ..
      · exact List.mem_cons_of_mem f (hothers e he)

/-- The flags among `flags` that a text begins with, with their values, and the text behind the
last of them. -/
def readAll (flags : List (Flag ι)) (t : Text) : List (ι × Text) × Text :=
  match _h : pick (Text.trimLeft t) flags with
  | none => ([], t)
  | some found =>
    let more := readAll found.others found.behind
    ((found.kind, found.value) :: more.1, more.2)
termination_by flags.length
decreasing_by
  have := pick_length _h
  omega

/-- The flags of a text, one at a time. -/
theorem readAll_eq (flags : List (Flag ι)) (t : Text) : readAll flags t =
    match pick (Text.trimLeft t) flags with
    | none => ([], t)
    | some found =>
      ((found.kind, found.value) :: (readAll found.others found.behind).1,
        (readAll found.others found.behind).2) := by
  rw [readAll]
  split
  · next h => simp only [h]
  · next found h => simp only [h]

end Flag

end Dockerlint
