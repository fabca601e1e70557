import SolidityBuild.Proofs.Dictionary
import SolidityBuild.Source.Vendored
import Mathlib.Data.List.MinMax

/-!
# Vendored files by their names

A name stands for the first of the shallowest files that have it (`get?_vendoredIndex`). Adding one file after the
other keeps the least depth so far and the first file of that depth, which is what `List.argmin` finds
(`get?_vendoredIndex_eq_argmin`). Hence the order of the files only matters among those of one name and one depth.
-/

namespace SolidityBuild.Source

/-- The files of a name. -/
def filesNamed (name : String) (files : List Path) : List Path := files.filter fun file => vendoredName? file = some name

/-- The files of a name that have a given depth. -/
def filesAt (name : String) (level : Nat) (files : List Path) : List Path :=
  (filesNamed name files).filter fun file => depth file = level

/-- A file is the first of its name and depth, and no file of the name is less deep. -/
def IsShallowest (files : List Path) (name : String) (file : Path) : Prop :=
  (filesAt name (depth file) files).head? = some file ∧
    ∀ other ∈ files, vendoredName? other = some name → depth file ≤ depth other

instance (files : List Path) (name : String) (file : Path) : Decidable (IsShallowest files name file) :=
  inferInstanceAs (Decidable (_ ∧ _))

theorem mem_filesNamed {name : String} {files : List Path} {file : Path} :
    file ∈ filesNamed name files ↔ file ∈ files ∧ vendoredName? file = some name := by
  simp [filesNamed]

theorem mem_filesAt {name : String} {level : Nat} {files : List Path} {file : Path} :
    file ∈ filesAt name level files ↔ file ∈ filesNamed name files ∧ depth file = level := by
  simp [filesAt]

theorem filesNamed_concat (name : String) (files : List Path) (file : Path) :
    filesNamed name (files ++ [file]) =
      if vendoredName? file = some name then filesNamed name files ++ [file] else filesNamed name files := by
  by_cases same : vendoredName? file = some name
  · simp [filesNamed, same]
  · simp [filesNamed, same]

/-! ## Adding files -/

/-- Adding a file only matters for its own name, and there only if it is less deep than the one present. -/
theorem get?_addVendored (index : Dict Path) (file : Path) (name : String) :
    (addVendored index file).get? name =
      if vendoredName? file = some name then
        match index.get? name with
        | none => some file
        | some present => if depth file < depth present then some file else some present
      else index.get? name := by
  unfold addVendored
  cases named : vendoredName? file with
  | none => simp
  | some own =>
    by_cases same : own = name
    · subst same
      cases found : index.get? own with
      | none => simp [found, Dict.get?_insert]
      | some present =>
        by_cases deeper : depth present ≤ depth file
        · simp [found, deeper, Nat.not_lt.mpr deeper]
        · simp [found, deeper, Nat.lt_of_not_le deeper, Dict.get?_insert]
    · have other : ¬name = own := fun equal => same equal.symm
      cases found : index.get? own with
      | none => simp [found, same, other, Dict.get?_insert]
      | some present =>
        by_cases deeper : depth present ≤ depth file
        · simp [found, deeper, same]
        · simp [found, deeper, same, other, Dict.get?_insert]

theorem get?_vendoredIndex_eq_argmin (files : List Path) (name : String) :
    (vendoredIndex files).get? name = (filesNamed name files).argmin depth := by
  induction files using List.reverseRecOn with
  | nil => rfl
  | append_singleton files file ih =>
    have step : vendoredIndex (files ++ [file]) = addVendored (vendoredIndex files) file := by simp [vendoredIndex]
    rw [step, get?_addVendored, filesNamed_concat, ih]
    by_cases same : vendoredName? file = some name
    · rw [if_pos same, if_pos same, List.argmin_concat]
      cases (filesNamed name files).argmin depth with
      | none => rfl
      | some present => rfl
    · rw [if_neg same, if_neg same]

/-! ## The shallowest file -/

/-- What is least and found first: nothing is less, and of those that are equal it is the first. -/
theorem argmin_eq_some_iff_head? {α : Type} (f : α → Nat) (xs : List α) (x : α) :
    xs.argmin f = some x ↔ (xs.filter fun y => f y = f x).head? = some x ∧ ∀ y ∈ xs, f x ≤ f y := by
  induction xs generalizing x with
  | nil => simp
  | cons y ys ih =>
    rw [List.argmin_cons]
    cases found : ys.argmin f with
    | none =>
      obtain rfl := List.argmin_eq_none.mp found
      by_cases same : f y = f x
      · simp [same]
      · have other : y ≠ x := fun equal => same (congrArg f equal)
        simp [same, other]
    | some c =>
      obtain ⟨first, least⟩ := (ih c).mp found
      have mem : c ∈ ys := List.argmin_mem found
      by_cases less : f c < f y
      · simp only [if_pos less, Option.some.injEq]
        constructor
        · rintro rfl
          rw [List.filter_cons_of_neg (by simp; omega)]
          refine ⟨first, ?_⟩
          intro z mem
          rcases List.mem_cons.mp mem with rfl | behind
          · exact Nat.le_of_lt less
          · exact least z behind
        · rintro ⟨head, all⟩
          have below := all c (List.mem_cons_of_mem _ mem)
          rw [List.filter_cons_of_neg (by simp; omega)] at head
          have again := (ih x).mpr ⟨head, fun z there => all z (List.mem_cons_of_mem _ there)⟩
          exact Option.some.inj (found.symm.trans again)
      · simp only [if_neg less, Option.some.injEq]
        constructor
        · rintro rfl
          refine ⟨by simp, ?_⟩
          intro z mem
          rcases List.mem_cons.mp mem with rfl | behind
          · exact Nat.le_refl _
          · exact Nat.le_trans (Nat.le_of_not_lt less) (least z behind)
        · rintro ⟨head, all⟩
          by_cases same : f y = f x
          · simpa [same] using head
          · rw [List.filter_cons_of_neg (by simpa using same)] at head
            have behind : x ∈ ys := (List.mem_filter.mp (List.mem_of_mem_head? head)).1
            have above := least x behind
            have below := all y List.mem_cons_self
            omega

theorem get?_vendoredIndex_eq_some_iff {files : List Path} {name : String} {file : Path} :
    (vendoredIndex files).get? name = some file ↔ IsShallowest files name file := by
  rw [get?_vendoredIndex_eq_argmin, argmin_eq_some_iff_head?]
  simp only [mem_filesNamed, and_imp]
  rfl

theorem get?_vendoredIndex_eq_none_iff {files : List Path} {name : String} :
    (vendoredIndex files).get? name = none ↔ ∀ file ∈ files, vendoredName? file ≠ some name := by
  rw [get?_vendoredIndex_eq_argmin, List.argmin_eq_none, List.eq_nil_iff_forall_not_mem]
  simp only [mem_filesNamed, not_and]

/-- Whether a file is the shallowest is told by the files of its name, depth by depth. -/
theorem isShallowest_congr {files others : List Path} {name : String}
    (same : ∀ level, filesAt name level others = filesAt name level files) (file : Path) :
    IsShallowest others name file ↔ IsShallowest files name file := by
  have mem (other : Path) : other ∈ filesNamed name others ↔ other ∈ filesNamed name files := by
    have here := congrArg (other ∈ ·) (same (depth other))
    simpa [mem_filesAt] using here
  have least : (∀ other ∈ others, vendoredName? other = some name → depth file ≤ depth other) ↔
      ∀ other ∈ files, vendoredName? other = some name → depth file ≤ depth other := by
    simp only [← and_imp, ← mem_filesNamed, mem]
  unfold IsShallowest
  rw [same, least]

/-- Neighbours of different depths may change places. -/
theorem filesAt_swap {file other : Path} (apart : depth file ≠ depth other) (name : String) (level : Nat)
    (rest : List Path) : filesAt name level (file :: other :: rest) = filesAt name level (other :: file :: rest) := by
  have split (first : Path) (others : List Path) :
      filesAt name level (first :: others) = filesAt name level [first] ++ filesAt name level others := by
    unfold filesAt filesNamed
    rw [← List.filter_append, ← List.filter_append, List.singleton_append]
  have nothingAt {first : Path} (elsewhere : depth first ≠ level) : filesAt name level [first] = [] := by
    rw [List.eq_nil_iff_forall_not_mem]
    intro found mem
    obtain ⟨named, same⟩ := mem_filesAt.mp mem
    obtain rfl := List.mem_singleton.mp (mem_filesNamed.mp named).1
    exact elsewhere same
  rw [split file, split other, split other (file :: rest), split file rest]
  by_cases here : depth file = level
  · rw [nothingAt fun same => apart (here.trans same.symm), List.nil_append, List.nil_append]
  · rw [nothingAt here, List.nil_append, List.nil_append]

/-- A name stands for the first of its shallowest files, and for nothing if no file has it. So an index is the same for
all lists that have the files of one name and one depth in the same order. -/
theorem get?_vendoredIndex (files : List Path) :
    (∀ name file, (vendoredIndex files).get? name = some file ↔ IsShallowest files name file) ∧
      (∀ name, (vendoredIndex files).get? name = none ↔ ∀ file ∈ files, vendoredName? file ≠ some name) ∧
      ∀ others : List Path, (∀ name level, filesAt name level others = filesAt name level files) →
        vendoredIndex others = vendoredIndex files := by
  refine ⟨fun name file => get?_vendoredIndex_eq_some_iff, fun name => get?_vendoredIndex_eq_none_iff, ?_⟩
  intro others same
  refine Dict.eq_of_get? fun name => Option.ext fun file => ?_
  rw [get?_vendoredIndex_eq_some_iff, get?_vendoredIndex_eq_some_iff]
  exact isShallowest_congr (same name) file

/-- Two copies of one depth, and a deeper one that is found before or after the first of them. -/
theorem get?_vendoredIndex_deeper :
    let deep := Path.ofText "/p/lib/token/lib/auth/src/auth.sol"
    let first := Path.ofText "/p/lib//auth/src/./auth.sol"
    let second := Path.ofText "/p/lib/auth/src/auth.sol"
    (∀ name level, filesAt name level [first, deep, second] = filesAt name level [deep, first, second]) ∧
      vendoredIndex [first, deep, second] = vendoredIndex [deep, first, second] ∧
      (vendoredIndex [deep, first, second]).get? "auth/auth.sol" = some first ∧
      (vendoredIndex [deep, first, second]).get? "auth" = none := by
  intro deep first second
  have moves (name : String) (level : Nat) :
      filesAt name level [first, deep, second] = filesAt name level [deep, first, second] :=
    filesAt_swap (by decide) name level [second]
  obtain ⟨chosen, absent, same⟩ := get?_vendoredIndex [deep, first, second]
  exact ⟨moves, same _ moves, (chosen _ _).mpr (by decide), (absent _).mpr (by decide)⟩

end SolidityBuild.Source
