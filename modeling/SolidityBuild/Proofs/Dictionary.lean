import SolidityBuild.Dict
import Mathlib.Data.List.Nodup
import Mathlib.Data.List.Perm.Subperm

/-!
# Laws of dictionaries

A dictionary is determined by its look-ups: its entries are exactly the pairs of a key and the value
found under it, in the one order that is allowed. What a list of entries is turned into is told by the
last entry of every key.
-/

namespace SolidityBuild

namespace Entries

variable {α : Type}

theorem find?_append (key : String) (first second : List (String × α)) :
    find? key (first ++ second) = (find? key first <|> find? key second) := by
  induction first with
  | nil => rfl
  | cons entry rest ih =>
    obtain ⟨k, v⟩ := entry
    by_cases same : k = key
    · simp [find?, same]
    · simp [find?, same, ih]

theorem find?_map {β : Type} (f : α → β) (key : String) (entries : List (String × α)) :
    find? key (entries.map fun entry => (entry.1, f entry.2)) = (find? key entries).map f := by
  induction entries with
  | nil => rfl
  | cons entry rest ih =>
    obtain ⟨k, v⟩ := entry
    by_cases same : k = key
    · simp [find?, same]
    · simp [find?, same, ih]

theorem mem_of_find? {key : String} {value : α} {entries : List (String × α)}
    (found : find? key entries = some value) : (key, value) ∈ entries := by
  induction entries with
  | nil => cases found
  | cons entry rest ih =>
    obtain ⟨k, v⟩ := entry
    by_cases same : k = key
    · simp only [find?, same, if_true, Option.some.injEq] at found
      simp [same, found]
    · simp only [find?, same, if_false] at found
      exact List.mem_cons_of_mem _ (ih found)

theorem isSome_find? {key : String} {entries : List (String × α)} :
    (find? key entries).isSome = true ↔ ∃ value, (key, value) ∈ entries := by
  constructor
  · intro found
    obtain ⟨value, there⟩ := Option.isSome_iff_exists.mp found
    exact ⟨value, mem_of_find? there⟩
  · rintro ⟨value, mem⟩
    induction entries with
    | nil => cases mem
    | cons entry rest ih =>
      obtain ⟨k, v⟩ := entry
      by_cases same : k = key
      · simp [find?, same]
      · have later : (key, value) ∈ rest := by simpa [Ne.symm same] using mem
        simpa [find?, same] using ih later

/-- Ordered entries have one value for every key. -/
theorem find?_of_mem {key : String} {value : α} {entries : List (String × α)} (ordered : Ordered entries)
    (mem : (key, value) ∈ entries) : find? key entries = some value := by
  induction entries with
  | nil => cases mem
  | cons entry rest ih =>
    obtain ⟨k, v⟩ := entry
    obtain ⟨below, tail⟩ := List.pairwise_cons.mp ordered
    rcases List.mem_cons.mp mem with same | later
    · cases same
      simp [find?]
    · have before : k < key := below _ later
      have differs : k ≠ key := fun equal => String.lt_irrefl key (equal ▸ before)
      simpa [find?, differs] using ih tail later

theorem find?_eq_some_iff {key : String} {value : α} {entries : List (String × α)}
    (ordered : Ordered entries) : find? key entries = some value ↔ (key, value) ∈ entries :=
  ⟨mem_of_find?, find?_of_mem ordered⟩

/-- Ordered entries may be searched from either end. -/
theorem find?_reverse {entries : List (String × α)} (ordered : Ordered entries) (key : String) :
    find? key entries.reverse = find? key entries := by
  refine Option.ext fun value => ?_
  rw [find?_eq_some_iff ordered]
  constructor
  · exact fun found => List.mem_reverse.mp (mem_of_find? found)
  · intro mem
    obtain ⟨other, found⟩ := Option.isSome_iff_exists.mp (isSome_find?.mpr ⟨value, List.mem_reverse.mpr mem⟩)
    have there := find?_of_mem ordered (List.mem_reverse.mp (mem_of_find? found))
    have here := find?_of_mem ordered mem
    rw [found, ← here, there]

/-- Leaving out entries by their values. -/
theorem find?_filter {entries : List (String × α)} (ordered : Ordered entries) (keeps : α → Bool) (key : String) :
    find? key (entries.filter fun entry => keeps entry.2) = (find? key entries).filter keeps := by
  have ordered' : Ordered (entries.filter fun entry => keeps entry.2) := List.Pairwise.filter _ ordered
  refine Option.ext fun value => ?_
  rw [find?_eq_some_iff ordered', List.mem_filter, Option.filter_eq_some_iff, find?_eq_some_iff ordered]

theorem find?_sort (key : String) (entries : List (String × α)) :
    find? key (sort entries) = find? key entries.reverse := by
  suffices general : ∀ start : List (String × α),
      find? key (entries.foldl (fun sorted entry => insert entry.1 entry.2 sorted) start) =
        (find? key entries.reverse <|> find? key start) by
    simpa [sort, find?] using general []
  induction entries with
  | nil => intro start; simp [find?]
  | cons entry rest ih =>
    intro start
    obtain ⟨k, v⟩ := entry
    simp only [List.foldl_cons, ih, find?_insert, List.reverse_cons, find?_append, find?]
    by_cases same : k = key
    · subst same
      cases find? k rest.reverse <;> simp
    · have other : ¬ key = k := fun equal => same equal.symm
      simp only [if_neg same, if_neg other]
      cases find? key rest.reverse <;> simp

theorem ordered_iff_keys {entries : List (String × α)} :
    Ordered entries ↔ (entries.map (·.1)).Pairwise (· < ·) := List.pairwise_map.symm

theorem keys_nodup {entries : List (String × α)} (ordered : Ordered entries) : (entries.map (·.1)).Nodup := by
  rw [List.Nodup, List.pairwise_map]
  refine List.Pairwise.imp ?_ ordered
  intro a b before same
  exact String.lt_irrefl b.1 (same ▸ before)

theorem nodup_of_ordered {entries : List (String × α)} (ordered : Ordered entries) : entries.Nodup :=
  List.Nodup.of_map (·.1) (keys_nodup ordered)

theorem mem_sort {entries : List (String × α)} {entry : String × α} (mem : entry ∈ sort entries) : entry ∈ entries := by
  have found := find?_of_mem (ordered_sort entries) mem
  rw [find?_sort] at found
  exact List.mem_reverse.mp (mem_of_find? found)

/-- The key of the first of ordered entries is not among the others. -/
theorem find?_tail {key : String} {value : α} {rest : List (String × α)} (ordered : Ordered ((key, value) :: rest)) :
    find? key rest = none := by
  rw [← Option.not_isSome_iff_eq_none, isSome_find?]
  rintro ⟨other, mem⟩
  exact String.lt_irrefl key ((List.pairwise_cons.mp ordered).1 _ mem)

theorem find?_erase (key other : String) (entries : List (String × α)) :
    find? other (entries.filter fun entry => entry.1 ≠ key) = if other = key then none else find? other entries := by
  induction entries with
  | nil => simp [find?]
  | cons entry rest ih =>
    obtain ⟨k, v⟩ := entry
    by_cases gone : k = key
    · rw [List.filter_cons_of_neg (by simp [gone]), ih]
      by_cases same : other = key
      · simp [same]
      · simp [same, find?, gone, Ne.symm same]
    · rw [List.filter_cons_of_pos (by simp [gone])]
      by_cases same : k = other
      · have stays : other ≠ key := same ▸ gone
        simp [find?, same, stays]
      · simp only [find?, if_neg same, ih]

/-- There is one order in which given entries can stand. -/
theorem eq_of_perm {first second : List (String × α)} (ordered : Ordered first) (ordered' : Ordered second)
    (perm : first.Perm second) : first = second := by
  refine perm.eq_of_pairwise ?_ ordered ordered'
  intro a b _ _ before after
  exact absurd after (String.lt_asymm before)

/-- Ordered entries that answer every look-up alike are equal. -/
theorem eq_of_find? {first second : List (String × α)} (ordered : Ordered first) (ordered' : Ordered second)
    (same : ∀ key, find? key first = find? key second) : first = second := by
  apply eq_of_perm ordered ordered'
  rw [List.perm_ext_iff_of_nodup (nodup_of_ordered ordered) (nodup_of_ordered ordered')]
  rintro ⟨key, value⟩
  rw [← find?_eq_some_iff ordered, ← find?_eq_some_iff ordered', same]

theorem sort_of_ordered {entries : List (String × α)} (ordered : Ordered entries) : sort entries = entries := by
  refine eq_of_find? (ordered_sort entries) ordered fun key => ?_
  rw [find?_sort, find?_reverse ordered]

end Entries

namespace Dict

variable {α β : Type}

theorem get?_eq_some_iff {d : Dict α} {key : String} {value : α} :
    d.get? key = some value ↔ (key, value) ∈ d.toList := Entries.find?_eq_some_iff d.ordered

theorem get?_ofList (key : String) (entries : List (String × α)) :
    (ofList entries).get? key = Entries.find? key entries.reverse := Entries.find?_sort key entries

/-- Of several entries that are put in, the last one of a key is found. -/
theorem get?_foldl_insert (d : Dict α) (entries : List (String × α)) (key : String) :
    (entries.foldl (fun result entry => result.insert entry.1 entry.2) d).get? key =
      (Entries.find? key entries.reverse <|> d.get? key) := by
  induction entries generalizing d with
  | nil => rfl
  | cons entry rest ih =>
    obtain ⟨k, v⟩ := entry
    rw [List.foldl_cons, ih, get?_insert, List.reverse_cons, Entries.find?_append]
    by_cases same : key = k
    · subst same
      cases Entries.find? key rest.reverse <;> simp [Entries.find?]
    · have other : ¬k = key := fun equal => same equal.symm
      cases Entries.find? key rest.reverse <;> simp [Entries.find?, same, other]

theorem get?_union (d above : Dict α) (key : String) : (d.union above).get? key = (above.get? key <|> d.get? key) := by
  rw [union, get?_foldl_insert, Entries.find?_reverse above.ordered]
  rfl

theorem isSome_get?_ofList {entries : List (String × α)} {key : String} :
    ((ofList entries).get? key).isSome = true ↔ ∃ value, (key, value) ∈ entries := by
  simp only [get?_ofList, Entries.isSome_find?, List.mem_reverse]

/-- Entries with different keys are all found. -/
theorem get?_ofList_of_nodup {entries : List (String × α)} (nodup : (entries.map (·.1)).Nodup) {key : String}
    {value : α} : (ofList entries).get? key = some value ↔ (key, value) ∈ entries := by
  rw [get?_ofList]
  constructor
  · exact fun found => List.mem_reverse.mp (Entries.mem_of_find? found)
  · intro mem
    have distinct : (entries.reverse.map (·.1)).Nodup := by
      rw [List.map_reverse, List.nodup_reverse]
      exact nodup
    have mem' := List.mem_reverse.mpr mem
    generalize entries.reverse = listed at distinct mem'
    induction listed with
    | nil => cases mem'
    | cons entry rest ih =>
      obtain ⟨k, v⟩ := entry
      obtain ⟨new, others⟩ := List.nodup_cons.mp distinct
      rcases List.mem_cons.mp mem' with same | later
      · cases same
        simp [Entries.find?]
      · have differs : k ≠ key := by
          rintro rfl
          exact new (List.mem_map_of_mem (f := (·.1)) later)
        simpa [Entries.find?, differs] using ih others later

theorem eq_of_entries {a b : Dict α} (same : a.entries = b.entries) : a = b := by
  cases a; cases b; simpa using same

theorem eq_of_perm {a b : Dict α} (perm : a.entries.Perm b.entries) : a = b :=
  eq_of_entries (Entries.eq_of_perm a.ordered b.ordered perm)

/-- Dictionaries that answer every look-up alike are equal. -/
theorem eq_of_get? {a b : Dict α} (same : ∀ key, a.get? key = b.get? key) : a = b :=
  eq_of_entries (Entries.eq_of_find? a.ordered b.ordered same)

/-- Counting suffices for equality where one dictionary has all entries of the other. -/
theorem eq_of_size_of_subset {a b : Dict α} (size : a.size = b.size)
    (subset : ∀ entry ∈ b.toList, a.get? entry.1 = some entry.2) : a = b := by
  have inside : b.entries ⊆ a.entries := fun entry mem => get?_eq_some_iff.mp (subset entry mem)
  have small : b.entries.Subperm a.entries :=
    List.subperm_of_subset (Entries.nodup_of_ordered b.ordered) inside
  exact eq_of_perm (small.perm_of_length_le (Nat.le_of_eq size)).symm

theorem pairwise_keys (d : Dict α) : d.keys.Pairwise (· < ·) := Entries.ordered_iff_keys.mp d.ordered

theorem mem_keys {d : Dict α} {key : String} : key ∈ d.keys ↔ ∃ value, d.get? key = some value := by
  simp only [keys, List.mem_map]
  constructor
  · rintro ⟨⟨k, value⟩, mem, rfl⟩
    exact ⟨value, get?_eq_some_iff.mpr mem⟩
  · rintro ⟨value, found⟩
    exact ⟨(key, value), get?_eq_some_iff.mp found, rfl⟩

theorem get?_mapValues (f : α → β) (d : Dict α) (key : String) :
    (d.mapValues f).get? key = (d.get? key).map f := Entries.find?_map f key d.entries

/-- Applying a function after building a dictionary is building it from changed entries. -/
theorem mapValues_ofList (f : α → β) (entries : List (String × α)) :
    (ofList entries).mapValues f = ofList (entries.map fun entry => (entry.1, f entry.2)) := by
  apply eq_of_get?
  intro key
  rw [get?_mapValues, get?_ofList, get?_ofList, ← List.map_reverse, Entries.find?_map]

/-- A function that separates the values of two dictionaries separates the dictionaries. -/
theorem mapValues_inj {f : α → β} {a b : Dict α}
    (separates : ∀ x ∈ a.values, ∀ y ∈ b.values, f x = f y → x = y) :
    a.mapValues f = b.mapValues f ↔ a = b := by
  refine ⟨fun same => eq_of_get? fun key => ?_, fun same => same ▸ rfl⟩
  have agree : (a.get? key).map f = (b.get? key).map f := by
    rw [← get?_mapValues, ← get?_mapValues, same]
  have listed : ∀ {d : Dict α} {value : α}, d.get? key = some value → value ∈ d.values :=
    fun found => List.mem_map_of_mem (f := (·.2)) (get?_eq_some_iff.mp found)
  cases foundA : a.get? key with
  | none =>
    cases foundB : b.get? key with
    | none => rfl
    | some y => simp [foundA, foundB] at agree
  | some x =>
    cases foundB : b.get? key with
    | none => simp [foundA, foundB] at agree
    | some y =>
      have equal : f x = f y := by simpa [foundA, foundB] using agree
      rw [separates x (listed foundA) y (listed foundB) equal]

end Dict

end SolidityBuild
