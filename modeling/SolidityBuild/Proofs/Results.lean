import SolidityBuild.Error
import Mathlib.Data.List.Forall2

/-!
# Operations that succeed

What it takes for a sequence of operations to succeed: every one of them succeeds, each on the value of
the one before.
-/

namespace SolidityBuild

variable {ε α β : Type}

theorem bind_eq_ok_iff {action : Except ε α} {next : α → Except ε β} {value : β} :
    (action >>= next) = .ok value ↔ ∃ found, action = .ok found ∧ next found = .ok value := by
  cases action with
  | error e => simp [bind, Except.bind]
  | ok found => simp [bind, Except.bind]

theorem map_eq_ok_iff {action : Except ε α} {f : α → β} {value : β} :
    action.map f = .ok value ↔ ∃ found, action = .ok found ∧ f found = value := by
  cases action with
  | error e => simp [Except.map]
  | ok found => simp [Except.map]

theorem toOption_eq_some_iff {action : Except ε α} {value : α} : action.toOption = some value ↔ action = .ok value := by
  cases action with
  | error e => simp [Except.toOption]
  | ok found => simp [Except.toOption]

theorem eq_ok_of_isSome {action : Except ε α} (succeeds : action.toOption.isSome = true) :
    action = .ok (action.toOption.get succeeds) := by
  cases action with
  | error e => cases succeeds
  | ok value => rfl

theorem eq_ok_pair {action : Except ε (α × β)} {succeeds : action.toOption.isSome = true} {found : α × β}
    (same : found = action.toOption.get succeeds) : action = .ok (found.1, found.2) := by
  rw [same]
  exact eq_ok_of_isSome succeeds

theorem mapM_cons_eq_ok_iff {f : α → Except ε β} {x : α} {rest : List α} {values : List β} :
    (x :: rest).mapM f = .ok values ↔
      ∃ value others, f x = .ok value ∧ rest.mapM f = .ok others ∧ values = value :: others := by
  rw [List.mapM_cons, bind_eq_ok_iff]
  constructor
  · rintro ⟨value, read, h⟩
    obtain ⟨others, readRest, same⟩ := bind_eq_ok_iff.mp h
    cases same
    exact ⟨value, others, read, readRest, rfl⟩
  · rintro ⟨value, others, read, readRest, rfl⟩
    exact ⟨value, read, bind_eq_ok_iff.mpr ⟨others, readRest, rfl⟩⟩

/-- A list of operations succeeds with the list of their values. -/
theorem mapM_eq_ok_iff {f : α → Except ε β} {xs : List α} {values : List β} :
    xs.mapM f = .ok values ↔ List.Forall₂ (fun x value => f x = .ok value) xs values := by
  induction xs generalizing values with
  | nil =>
    rw [List.mapM_nil, List.forall₂_nil_left_iff]
    exact ⟨fun same => by cases same; rfl, fun same => by cases same; rfl⟩
  | cons x rest ih =>
    rw [mapM_cons_eq_ok_iff]
    constructor
    · rintro ⟨value, others, read, readRest, rfl⟩
      exact .cons read (ih.mp readRest)
    · intro related
      cases related with
      | cons read readRest => exact ⟨_, _, read, ih.mpr readRest, rfl⟩

theorem exists_mapM_eq_ok {f : α → Except ε β} {xs : List α} (all : ∀ x ∈ xs, ∃ value, f x = .ok value) :
    ∃ values, xs.mapM f = .ok values := by
  induction xs with
  | nil => exact ⟨[], rfl⟩
  | cons x rest ih =>
    obtain ⟨value, read⟩ := all x (by simp)
    obtain ⟨values, readRest⟩ := ih fun y mem => all y (List.mem_cons_of_mem _ mem)
    exact ⟨value :: values, mapM_cons_eq_ok_iff.mpr ⟨value, values, read, readRest, rfl⟩⟩

theorem mapM_congr {f g : α → Except ε β} {xs : List α} (same : ∀ x ∈ xs, f x = g x) : xs.mapM f = xs.mapM g := by
  induction xs with
  | nil => rfl
  | cons x rest ih =>
    rw [List.mapM_cons, List.mapM_cons, same x (by simp), ih fun y mem => same y (List.mem_cons_of_mem _ mem)]

theorem ok_of_mem_of_mapM {f : α → Except ε β} {xs : List α} {values : List β} (all : xs.mapM f = .ok values)
    {x : α} (mem : x ∈ xs) : ∃ value ∈ values, f x = .ok value := by
  rw [mapM_eq_ok_iff] at all
  induction all with
  | nil => cases mem
  | cons read _ ih =>
    rcases List.mem_cons.mp mem with rfl | later
    · exact ⟨_, by simp, read⟩
    · obtain ⟨value, listed, found⟩ := ih later
      exact ⟨value, List.mem_cons_of_mem _ listed, found⟩

theorem mem_of_mem_of_mapM {f : α → Except ε β} {xs : List α} {values : List β} (all : xs.mapM f = .ok values)
    {value : β} (mem : value ∈ values) : ∃ x ∈ xs, f x = .ok value := by
  rw [mapM_eq_ok_iff] at all
  induction all with
  | nil => cases mem
  | cons read _ ih =>
    rcases List.mem_cons.mp mem with rfl | later
    · exact ⟨_, by simp, read⟩
    · obtain ⟨x, listed, found⟩ := ih later
      exact ⟨x, List.mem_cons_of_mem _ listed, found⟩

end SolidityBuild
