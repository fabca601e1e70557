/-!
# Dictionaries

Finite maps whose keys are texts. A dictionary lists its entries in strictly increasing order of
their keys, so two dictionaries with the same entries are equal and listing one needs no sorting.
The order of texts by code points is also the order of their UTF-8 bytes.
-/

namespace SolidityBuild

namespace Entries

variable {α : Type}

/-- The value of the first entry with the given key. -/
def find? (key : String) : List (String × α) → Option α
  | [] => none
  | (k, v) :: rest => if k = key then some v else find? key rest

/-- Puts an entry at its place among ordered entries; an entry with the same key is replaced. -/
def insert (key : String) (value : α) : List (String × α) → List (String × α)
  | [] => [(key, value)]
  | (k, v) :: rest =>
    if key < k then (key, value) :: (k, v) :: rest
    else if key = k then (key, value) :: rest
    else (k, v) :: insert key value rest

/-- Entries in strictly increasing order of their keys. -/
def Ordered (entries : List (String × α)) : Prop := entries.Pairwise (fun a b => a.1 < b.1)

/-- Brings entries into order; of entries with the same key the last one stays. -/
def sort (entries : List (String × α)) : List (String × α) :=
  entries.foldl (fun sorted entry => insert entry.1 entry.2 sorted) []

theorem mem_insert {key : String} {value : α} {e : String × α} {entries : List (String × α)}
    (h : e ∈ insert key value entries) : e = (key, value) ∨ e ∈ entries := by
  induction entries with
  | nil => simpa [insert] using h
  | cons head rest ih =>
    obtain ⟨k, v⟩ := head
    unfold insert at h
    split at h
    · simpa using h
    · split at h
      · simp only [List.mem_cons] at h ⊢
        rcases h with h | h
        · exact Or.inl h
        · exact Or.inr (Or.inr h)
      · simp only [List.mem_cons] at h ⊢
        rcases h with h | h
        · exact Or.inr (Or.inl h)
        · rcases ih h with h | h
          · exact Or.inl h
          · exact Or.inr (Or.inr h)

theorem ordered_insert {key : String} {value : α} {entries : List (String × α)}
    (h : Ordered entries) : Ordered (insert key value entries) := by
  unfold Ordered at *
  induction entries with
  | nil => simp [insert]
  | cons head rest ih =>
    obtain ⟨k, v⟩ := head
    obtain ⟨below, tail⟩ := List.pairwise_cons.1 h
    unfold insert
    split
    · next lt =>
      refine List.pairwise_cons.2 ⟨?_, h⟩
      intro e mem
      rcases List.mem_cons.1 mem with rfl | mem
      · exact lt
      · exact String.lt_trans lt (below e mem)
    · split
      · next eq => subst eq; exact List.pairwise_cons.2 ⟨below, tail⟩
      · next notLess notSame =>
        refine List.pairwise_cons.2 ⟨?_, ih tail⟩
        intro e mem
        rcases mem_insert mem with rfl | mem
        · show k < key
          grind
        · exact below e mem

theorem ordered_sort (entries : List (String × α)) : Ordered (sort entries) := by
  suffices h : ∀ start : List (String × α), Ordered start →
      Ordered (entries.foldl (fun sorted entry => insert entry.1 entry.2 sorted) start) from
    h [] List.Pairwise.nil
  induction entries with
  | nil => exact fun _ h => h
  | cons e rest ih => exact fun start h => ih _ (ordered_insert h)

theorem find?_insert (key other : String) (value : α) (entries : List (String × α)) :
    find? other (insert key value entries) =
      if other = key then some value else find? other entries := by
  induction entries with
  | nil => by_cases h : other = key <;> grind [insert, find?]
  | cons head rest ih => grind [insert, find?]

end Entries

/-- A finite map from texts, listed in order of its keys. -/
structure Dict (α : Type) where
  entries : List (String × α)
  ordered : Entries.Ordered entries

namespace Dict

variable {α β : Type}

/-- The dictionary without entries. -/
def empty : Dict α := ⟨[], List.Pairwise.nil⟩

instance : Inhabited (Dict α) := ⟨empty⟩
instance : EmptyCollection (Dict α) := ⟨empty⟩

/-- The value of a key. -/
def get? (d : Dict α) (key : String) : Option α := Entries.find? key d.entries

/-- Sets the value of a key. -/
def insert (d : Dict α) (key : String) (value : α) : Dict α :=
  ⟨Entries.insert key value d.entries, Entries.ordered_insert d.ordered⟩

/-- The dictionary of the given entries, where the last of several values of a key stays. -/
def ofList (entries : List (String × α)) : Dict α := ⟨Entries.sort entries, Entries.ordered_sort entries⟩

/-- All entries of `d`, overruled by those of `above`. -/
def union (d above : Dict α) : Dict α :=
  above.entries.foldl (fun result entry => result.insert entry.1 entry.2) d

def toList (d : Dict α) : List (String × α) := d.entries
def keys (d : Dict α) : List String := d.entries.map (·.1)
def values (d : Dict α) : List α := d.entries.map (·.2)
def size (d : Dict α) : Nat := d.entries.length
def isEmpty (d : Dict α) : Bool := d.entries.isEmpty
def contains (d : Dict α) (key : String) : Bool := (d.get? key).isSome

/-- Applies a function to every value. -/
def mapValues (f : α → β) (d : Dict α) : Dict β where
  entries := d.entries.map fun entry => (entry.1, f entry.2)
  ordered := by
    have h := d.ordered
    unfold Entries.Ordered at *
    exact List.pairwise_map.2 h

instance [BEq α] : BEq (Dict α) := ⟨fun a b => a.entries == b.entries⟩
instance [DecidableEq α] : DecidableEq (Dict α) := fun a b =>
  decidable_of_iff (a.entries = b.entries) (by cases a; cases b; simp)

@[simp] theorem get?_empty (key : String) : (empty : Dict α).get? key = none := rfl

theorem get?_insert (d : Dict α) (key other : String) (value : α) :
    (d.insert key value).get? other = if other = key then some value else d.get? other :=
  Entries.find?_insert key other value d.entries

end Dict

end SolidityBuild
