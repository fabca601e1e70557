import SolidityBuild.Proofs.NameRegistry
import Mathlib.Data.List.Induction

/-!
# Sequences of registrations

What a registry holds after any names were registered for any files: a name stands for the file of the first
registration of it, no file has two owners (`ownersApart_registerAll`), and a file that was accepted under a
primary name is owned by a primary name (`exists_primary_owner`).
-/

namespace SolidityBuild

/-- A name that is registered for a file. -/
structure Registration where
  name : String
  file : Path
  isPrimary : Bool

namespace NameRegistry

def registerAll (registry : NameRegistry) (registrations : List Registration) : NameRegistry :=
  registrations.foldl (fun registry r => registry.register r.name r.file r.isPrimary) registry

@[simp] theorem registerAll_nil (registry : NameRegistry) : registry.registerAll [] = registry := rfl

@[simp] theorem registerAll_cons (registry : NameRegistry) (r : Registration) (rest : List Registration) :
    registry.registerAll (r :: rest) = (registry.register r.name r.file r.isPrimary).registerAll rest := rfl

@[simp] theorem registerAll_append (registry : NameRegistry) (first second : List Registration) :
    registry.registerAll (first ++ second) = (registry.registerAll first).registerAll second := List.foldl_append

theorem extends_registerAll (registry : NameRegistry) (registrations : List Registration) :
    Extends registry (registry.registerAll registrations) := by
  unfold registerAll
  exact extends_foldl (fun registry r => extends_register registry r.name r.file r.isPrimary) registry registrations

/-- Registering accepts names that stand for no other file, and passes over all others. -/
def AcceptedIn (registrations : List Registration) (r : Registration) : Prop :=
  ∃ before after, registrations = before ++ r :: after ∧ (empty.registerAll before).Free r.name r.file

theorem acceptedIn_concat {registrations : List Registration} {last r : Registration} :
    AcceptedIn (registrations ++ [last]) r ↔
      AcceptedIn registrations r ∨ r = last ∧ (empty.registerAll registrations).Free r.name r.file := by
  constructor
  · rintro ⟨before, after, whole, free⟩
    rcases List.eq_nil_or_concat after with rfl | ⟨rest, final, rfl⟩
    · obtain ⟨rfl, same⟩ := List.append_inj' whole rfl
      exact .inr ⟨(List.head_eq_of_cons_eq same).symm, free⟩
    · rw [List.concat_eq_append, ← List.cons_append, ← List.append_assoc] at whole
      obtain ⟨same, _⟩ := List.append_inj' whole rfl
      exact .inl ⟨before, rest, same, free⟩
  · rintro (⟨before, after, rfl, free⟩ | ⟨rfl, free⟩)
    · exact ⟨before, after ++ [last], by simp, free⟩
    · exact ⟨registrations, [], rfl, free⟩

theorem get?_registerAll_cases {registry : NameRegistry} {registrations : List Registration} {name : String}
    {file : Path} (found : (registry.registerAll registrations).names.get? name = some file) :
    registry.names.get? name = some file ∨ ∃ r ∈ registrations, r.file = file := by
  induction registrations generalizing registry with
  | nil => exact .inl found
  | cons r rest ih =>
    rcases ih found with before | ⟨later, mem, same⟩
    · rcases get?_register_cases before with old | rfl
      · exact .inl old
      · exact .inr ⟨r, by simp, rfl⟩
    · exact .inr ⟨later, List.mem_cons_of_mem _ mem, same⟩

theorem get?_of_acceptedIn {registrations : List Registration} {r : Registration}
    (accepted : AcceptedIn registrations r) :
    ∃ present, (empty.registerAll registrations).names.get? r.name = some present ∧ present.same r.file = true := by
  obtain ⟨before, after, rfl, free⟩ := accepted
  rw [registerAll_append, registerAll_cons]
  generalize empty.registerAll before = registry at free ⊢
  have now : (registry.register r.name r.file r.isPrimary).names.get? r.name =
      some ((registry.names.get? r.name).getD r.file) := by rw [get?_register, if_pos rfl]
  refine ⟨_, (extends_registerAll _ after).get? now, ?_⟩
  cases found : registry.names.get? r.name with
  | none => exact Path.same_refl _
  | some present => exact free present found

/-! ## Owners -/

/-- No file is listed twice as one that has an owner. -/
def OwnersApart (registry : NameRegistry) : Prop := registry.owners.Pairwise fun a b => a.1.same b.1 = false

theorem OwnersApart.setOwner {registry : NameRegistry} (apart : OwnersApart registry) (file : Path) (name : String) :
    OwnersApart (registry.setOwner file name) := by
  unfold OwnersApart NameRegistry.setOwner at *
  by_cases known : registry.owners.any (·.1.same file) = true
  · have unmoved (entry : Path × String) : (if entry.1.same file then (entry.1, name) else entry).1 = entry.1 := by
      split <;> rfl
    simp only [known, if_true, List.pairwise_map, unmoved]
    exact apart
  · simp only [known, Bool.false_eq_true, if_false]
    refine List.pairwise_append.mpr ⟨apart, List.pairwise_singleton .., fun entry mem last single => ?_⟩
    rw [List.mem_singleton.mp single]
    by_contra same
    exact known (List.any_eq_true.mpr ⟨entry, mem, by simpa using same⟩)

theorem ownersApart_registerAll (registrations : List Registration) : OwnersApart (empty.registerAll registrations) := by
  induction registrations using List.reverseRecOn with
  | nil => exact .nil
  | append_singleton registrations last ih =>
    rw [registerAll_append, registerAll_cons, registerAll_nil]
    by_cases free : (empty.registerAll registrations).Free last.name last.file
    · have named : OwnersApart ((empty.registerAll registrations).withName last.name last.file last.isPrimary) := ih
      rw [register_of_free free]
      split
      · exact named.setOwner last.file last.name
      · exact named
    · rw [register_of_taken free]
      exact ih

theorem owner?_eq_some_iff {registry : NameRegistry} (apart : OwnersApart registry) {file : Path} {name : String} :
    registry.owner? file = some name ↔ ∃ entry ∈ registry.owners, entry.1.same file = true ∧ entry.2 = name := by
  unfold owner?
  rw [Option.map_eq_some_iff]
  constructor
  · rintro ⟨entry, found, same⟩
    exact ⟨entry, List.mem_of_find?_eq_some found, by simpa using List.find?_some found, same⟩
  · rintro ⟨entry, mem, here, same⟩
    refine ⟨entry, ?_, same⟩
    obtain ⟨before, after, whole⟩ := List.append_of_mem mem
    rw [List.find?_eq_some_iff_append]
    refine ⟨here, before, after, whole, fun earlier inside => ?_⟩
    unfold OwnersApart at apart
    rw [whole] at apart
    have differs := (List.pairwise_append.mp apart).2.2 earlier inside entry (by simp)
    by_contra same
    rw [Path.same_trans (by simpa using same) (Path.same_symm here)] at differs
    cases differs

/-! ## Primary names -/

theorem mem_primaryNames_registerAll {registrations : List Registration} {name : String} :
    name ∈ (empty.registerAll registrations).primaryNames ↔
      ∃ r, AcceptedIn registrations r ∧ r.isPrimary = true ∧ r.name = name := by
  induction registrations using List.reverseRecOn with
  | nil => simp [AcceptedIn, empty]
  | append_singleton registrations last ih =>
    simp only [acceptedIn_concat, or_and_right, exists_or, ← ih, registerAll_append, registerAll_cons, registerAll_nil]
    by_cases free : (empty.registerAll registrations).Free last.name last.file
    · rw [primaryNames_register free, mem_primaryNames_withName]
      refine or_congr_right ⟨?_, ?_⟩
      · rintro ⟨primary, rfl⟩
        exact ⟨last, ⟨rfl, free⟩, primary, rfl⟩
      · rintro ⟨r, ⟨rfl, _⟩, primary, rfl⟩
        exact ⟨primary, rfl⟩
    · rw [register_of_taken free]
      refine ⟨.inl, Or.rec id ?_⟩
      rintro ⟨r, ⟨rfl, free'⟩, _⟩
      exact absurd free' free

theorem exists_primary_owner {registrations : List Registration} {r : Registration}
    (accepted : AcceptedIn registrations r) (primary : r.isPrimary = true) :
    ∃ owner, (empty.registerAll registrations).owner? r.file = some owner ∧
      owner ∈ (empty.registerAll registrations).primaryNames := by
  obtain ⟨before, after, rfl, free⟩ := accepted
  rw [registerAll_append, registerAll_cons]
  generalize empty.registerAll before = registry at free ⊢
  have now : ∃ owner, (registry.register r.name r.file r.isPrimary).owner? r.file = some owner ∧
      owner ∈ (registry.register r.name r.file r.isPrimary).primaryNames := by
    rw [owner?_register free, primaryNames_register free]
    by_cases takes : (registry.withName r.name r.file r.isPrimary).takesOver r.name r.file r.isPrimary = true
    · rw [if_pos ⟨takes, Path.same_refl _⟩]
      exact ⟨r.name, rfl, mem_primaryNames_withName.mpr (.inr ⟨primary, rfl⟩)⟩
    · rw [if_neg fun both => takes both.1]
      simp only [takesOver_iff, not_forall] at takes
      obtain ⟨owner, owns, keeps⟩ := takes
      refine ⟨owner, owns, mem_primaryNames_withName.mpr ?_⟩
      by_contra new
      rw [not_or, not_and] at new
      exact keeps ⟨new.2 primary, primary, new.1⟩
  obtain ⟨owner, owns, isPrimary⟩ := now
  exact ⟨owner, (extends_registerAll _ after).owner owns isPrimary⟩

end NameRegistry

end SolidityBuild
