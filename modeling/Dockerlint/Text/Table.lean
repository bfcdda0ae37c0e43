import Dockerlint.Text.Basic

/-!
# Tables

A table maps texts to values and lists its entries in the order of their keys. A later insertion
of a key replaces the earlier one.

## Main definitions

* `Table`: entries in strictly increasing order of their keys
* `Table.insert`, `Table.ofList`: insertion, and the insertion of a list in turn
* `Table.find?`, `Table.keys`: the value of a key, and the keys in order

## Main results

* `Table.find?_insert`: insertion sets one key and leaves the others
-/

namespace Dockerlint

/-- Entries in strictly increasing order of their keys. -/
structure Table (α : Type) where
  /-- The keys and their values. -/
  entries : List (Text × α)
  /-- No key occurs twice, and the keys increase. -/
  sorted : entries.Pairwise fun a b => Text.precedes a.1 b.1
deriving DecidableEq, Repr

namespace Table

variable {α : Type}

/-- The table without entries. -/
def empty : Table α := ⟨[], .nil⟩

/-- Whether a table has no entry. -/
def isEmpty (m : Table α) : Bool := m.entries.isEmpty

/-- The keys in order. -/
def keys (m : Table α) : List Text := m.entries.map (·.1)

/-- The value of the first entry with a given key. -/
def valueIn (key : Text) : List (Text × α) → Option α
  | [] => none
  | e :: es => if key = e.1 then some e.2 else valueIn key es

/-- The value of a key. -/
def find? (m : Table α) (key : Text) : Option α := valueIn key m.entries

/-- Whether a key has a value. -/
def contains (m : Table α) (key : Text) : Bool := (m.find? key).isSome

/-- Puts an entry into a list of entries at the place of its key. -/
def place (key : Text) (value : α) : List (Text × α) → List (Text × α)
  | [] => [(key, value)]
  | e :: es =>
    if Text.precedes key e.1 then (key, value) :: e :: es
    else if key = e.1 then (key, value) :: es
    else e :: place key value es

theorem mem_place {key : Text} {value : α} {es : List (Text × α)} {e : Text × α}
    (h : e ∈ place key value es) : e = (key, value) ∨ e ∈ es := by
  induction es with
  | nil => simpa [place] using h
  | cons d es ih =>
    rw [place] at h
    split at h
    · simpa using h
    · split at h
      · rcases List.mem_cons.1 h with rfl | h
        · exact .inl rfl
        · exact .inr (List.mem_cons_of_mem _ h)
      · rcases List.mem_cons.1 h with rfl | h
        · exact .inr (List.mem_cons_self ..)
        · exact (ih h).imp_right (List.mem_cons_of_mem _)

theorem pairwise_place (key : Text) (value : α) {es : List (Text × α)}
    (h : es.Pairwise fun a b => Text.precedes a.1 b.1) :
    (place key value es).Pairwise fun a b => Text.precedes a.1 b.1 := by
  induction es with
  | nil => simp [place]
  | cons d es ih =>
    obtain ⟨hd, hes⟩ := List.pairwise_cons.1 h
    rw [place]
    split
    · next hlt =>
      refine List.pairwise_cons.2 ⟨fun e he => ?_, h⟩
      rcases List.mem_cons.1 he with rfl | he
      · exact hlt
      · exact Text.precedes_trans hlt (hd e he)
    · split
      · next heq => exact List.pairwise_cons.2 ⟨fun e he => heq ▸ hd e he, hes⟩
      · next hlt hne =>
        have hgt : Text.precedes d.1 key := Text.precedes_of_not (Bool.eq_false_iff.2 hlt) hne
        refine List.pairwise_cons.2 ⟨fun e he => ?_, ih hes⟩
        rcases mem_place he with rfl | he
        · exact hgt
        · exact hd e he

/-- The table with a value for a key, which replaces any earlier one. -/
def insert (m : Table α) (key : Text) (value : α) : Table α :=
  ⟨place key value m.entries, pairwise_place key value m.sorted⟩

/-- The entries of a list, inserted in turn. -/
def ofList (es : List (Text × α)) : Table α :=
  es.foldl (fun m e => m.insert e.1 e.2) empty

theorem valueIn_place (key : Text) (value : α) (es : List (Text × α)) (k : Text) :
    valueIn k (place key value es) = if k = key then some value else valueIn k es := by
  induction es with
  | nil => simp [place, valueIn]
  | cons d es ih =>
    rw [place]
    split
    · rfl
    · split
      · next heq => by_cases hk : k = key <;> simp [valueIn, ← heq, hk]
      · next hne =>
        rw [valueIn, valueIn, ih]
        by_cases hk : k = key
        · simp [hk, hne]
        · simp [hk]

theorem find?_insert (m : Table α) (key : Text) (value : α) (k : Text) :
    (m.insert key value).find? k = if k = key then some value else m.find? k :=
  valueIn_place key value m.entries k

end Table

end Dockerlint
