import SolidityBuild.Json.Basic
import SolidityBuild.Proofs.Dictionary

/-!
# Values in layers

What a value that is laid over another one leaves: under each key of two objects, what the values there leave, and
the upper value itself where one of the two is no object (`find?_overlayMembers`). Objects have to list their
members in order for this, as those of every value that is read do (`ordered_canonical`).
-/

namespace SolidityBuild

namespace Dict

variable {α : Type} {f : α → α → α}

/-- Both dictionaries in one, with `f` of the two values where both have one. -/
def mergeWith (f : α → α → α) (d above : Dict α) : Dict α :=
  above.entries.foldl (fun merged (key, value) => merged.insert key (((merged.get? key).map (f · value)).getD value)) d

theorem get?_mergeWith (f : α → α → α) (d above : Dict α) (key : String) :
    (d.mergeWith f above).get? key = (d.get? key).merge f (above.get? key) := by
  obtain ⟨entries, ordered⟩ := above
  change (entries.foldl _ d).get? key = (d.get? key).merge f (Entries.find? key entries)
  induction entries generalizing d with
  | nil => simp [Entries.find?]
  | cons entry rest ih =>
    obtain ⟨k, v⟩ := entry
    have tail : Entries.Ordered rest := List.Pairwise.of_cons ordered
    rw [List.foldl_cons, ih _ tail, get?_insert]
    by_cases same : key = k
    · subst same
      have once : Entries.find? key rest = none := Entries.find?_tail ordered
      cases d.get? key <;> simp [Entries.find?, once]
    · simp [Entries.find?, same, Ne.symm same]

theorem mergeWith_assoc (assoc : ∀ x y z, f (f x y) z = f x (f y z)) (d above top : Dict α) :
    (d.mergeWith f above).mergeWith f top = d.mergeWith f (above.mergeWith f top) := by
  apply eq_of_get?
  intro key
  simp only [get?_mergeWith]
  cases d.get? key <;> cases above.get? key <;> cases top.get? key <;> simp [assoc]

end Dict

namespace Json

variable {below above : Json} {members added : List (String × Json)}

/-! ## Ordered values -/

/-- A value whose objects list their members in order of their keys: it itself, and its members again. What stands in
a list is nothing to lay values over. -/
inductive Ordered : Json → Prop where
  | leaf {value : Json} (leaf : value.members? = none) : Ordered value
  | object {members : List (String × Json)} (ordered : Entries.Ordered members)
      (values : ∀ member ∈ members, Ordered member.2) : Ordered (.object members)

theorem Ordered.entries (ordered : (Json.object members).Ordered) : Entries.Ordered members := by
  cases ordered with
  | leaf leaf => cases leaf
  | object ordered _ => exact ordered

theorem Ordered.value (ordered : (Json.object members).Ordered) {key : String} {value : Json}
    (found : Entries.find? key members = some value) : value.Ordered := by
  cases ordered with
  | leaf leaf => cases leaf
  | object _ values => exact values _ (Entries.mem_of_find? found)

theorem Ordered.erase (ordered : (Json.object members).Ordered) (key : String) :
    ((Json.object members).erase key).Ordered := by
  refine .object (List.Pairwise.filter _ ordered.entries) fun member mem => ?_
  exact ordered.value (Entries.find?_of_mem ordered.entries (List.mem_filter.mp mem).1)

theorem canonicalMembers_eq_map (members : List (String × Json)) :
    canonicalMembers members = members.map fun member => (member.1, member.2.canonical) := by
  induction members with
  | nil => rfl
  | cons member rest ih =>
    obtain ⟨key, value⟩ := member
    rw [canonicalMembers, ih, List.map_cons]

theorem canonicalItems_eq_map (items : List Json) : canonicalItems items = items.map canonical := by
  induction items with
  | nil => rfl
  | cons item rest ih => rw [canonicalItems, ih, List.map_cons]

theorem canonical_object (members : List (String × Json)) :
    (Json.object members).canonical =
      .object (Entries.sort (members.map fun member => (member.1, member.2.canonical))) := by
  rw [canonical, canonicalMembers_eq_map]

theorem find?_canonical (members : List (String × Json)) (key : String) :
    Entries.find? key (Entries.sort (members.map fun member => (member.1, member.2.canonical))) =
      (Entries.find? key members.reverse).map canonical := by
  rw [Entries.find?_sort, ← List.map_reverse, Entries.find?_map]

/-- The values that are read are ordered. -/
theorem ordered_canonical : (value : Json) → value.canonical.Ordered
  | .null => .leaf rfl
  | .bool _ => .leaf rfl
  | .integer _ => .leaf rfl
  | .double _ => .leaf rfl
  | .string _ => .leaf rfl
  | .array _ => .leaf rfl
  | .object members => by
    rw [canonical_object]
    refine .object (Entries.ordered_sort _) fun member mem => ?_
    obtain ⟨written, listed, same⟩ := List.mem_map.mp (Entries.mem_sort mem)
    have smaller : sizeOf written.2 < sizeOf members := by
      have inside := List.sizeOf_lt_of_mem listed
      obtain ⟨key, value⟩ := written
      simp only [Prod.mk.sizeOf_spec] at inside ⊢
      omega
    rw [← same]
    exact ordered_canonical written.2
termination_by value => sizeOf value

/-! ## Layers -/

theorem overlay_of_leaf (leaf : below.members? = none) (above : Json) : below.overlay above = above := by
  cases above with
  | object added => cases below <;> first | rfl | cases leaf
  | _ => rfl

theorem overlay_leaf (below : Json) (leaf : above.members? = none) : below.overlay above = above := by
  cases above with
  | object added => cases leaf
  | _ => rfl

theorem overlay_object (members added : List (String × Json)) :
    (Json.object members).overlay (.object added) = .object (overlayMembers members added) := rfl

theorem ordered_overlayMembers (ordered : Entries.Ordered members) :
    Entries.Ordered (overlayMembers members added) := by
  induction added generalizing members with
  | nil => exact ordered
  | cons member rest ih => exact ih (Entries.ordered_insert ordered)

/-- Under each key lies what the values there leave. -/
theorem find?_overlayMembers (members : List (String × Json)) (ordered : Entries.Ordered added) (key : String) :
    Entries.find? key (overlayMembers members added) =
      (Entries.find? key members).merge overlay (Entries.find? key added) := by
  induction added generalizing members with
  | nil => simp [overlayMembers, Entries.find?]
  | cons member rest ih =>
    obtain ⟨k, v⟩ := member
    have tail : Entries.Ordered rest := List.Pairwise.of_cons ordered
    rw [overlayMembers, ih _ tail, Entries.find?_insert]
    by_cases same : key = k
    · subst same
      have once : Entries.find? key rest = none := Entries.find?_tail ordered
      cases Entries.find? key members <;> simp [Entries.find?, once]
    · simp [Entries.find?, same, Ne.symm same]

theorem overlay_emptyObject (ordered : above.Ordered) : emptyObject.overlay above = above := by
  cases ordered with
  | leaf leaf => exact overlay_leaf _ leaf
  | @object added order values =>
    refine congrArg Json.object (Entries.eq_of_find? (ordered_overlayMembers List.Pairwise.nil) order fun key => ?_)
    rw [find?_overlayMembers _ order]
    exact Option.merge_none_left

theorem Ordered.overlay (ordered : below.Ordered) (ordered' : above.Ordered) : (below.overlay above).Ordered := by
  induction ordered' generalizing below with
  | leaf leaf => rw [overlay_leaf _ leaf]; exact .leaf leaf
  | @object added order values ih =>
    cases ordered with
    | leaf leaf => rw [overlay_of_leaf leaf]; exact .object order values
    | @object members order' values' =>
      rw [overlay_object]
      refine .object (ordered_overlayMembers order') fun member mem => ?_
      have found := Entries.find?_of_mem (ordered_overlayMembers order') mem
      rw [find?_overlayMembers _ order, Option.merge_eq_some_iff] at found
      obtain ⟨lower, -⟩ | ⟨-, upper⟩ | ⟨lower, upper, foundLower, foundUpper, same⟩ := found
      · exact values' _ (Entries.mem_of_find? lower)
      · exact values _ (Entries.mem_of_find? upper)
      · rw [← same]
        exact ih _ (Entries.mem_of_find? foundUpper) (values' _ (Entries.mem_of_find? foundLower))

/-- A value laid over itself changes nothing. -/
theorem overlay_self (ordered : below.Ordered) : below.overlay below = below := by
  induction ordered with
  | leaf leaf => exact overlay_leaf _ leaf
  | @object members order values ih =>
    rw [overlay_object, Entries.eq_of_find? (ordered_overlayMembers order) order]
    intro key
    rw [find?_overlayMembers _ order]
    cases found : Entries.find? key members with
    | none => rfl
    | some value =>
      have same : value.overlay value = value := ih _ (Entries.mem_of_find? found)
      simp [same]

end Json

end SolidityBuild
