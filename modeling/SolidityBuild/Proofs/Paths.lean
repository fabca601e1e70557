import SolidityBuild.Path.Basic
import Mathlib.Data.List.Basic

/-!
# Laws of paths

Paths of one place are interchangeable wherever places are compared. The components of a relative path behind
an absolute one follow the components of this (`components_join`). The last segment of a path that is continued by
a text is the end of that text, and if it is a name then it is the last component as well.
-/

namespace SolidityBuild.Path

/-! ## Places -/

theorem same_refl (p : Path) : p.same p = true := by simp [Path.same]

theorem same_symm {p q : Path} (same : p.same q = true) : q.same p = true := by
  simp only [Path.same, decide_eq_true_eq] at same ⊢
  exact same.symm

theorem same_trans {p q r : Path} (first : p.same q = true) (second : q.same r = true) : p.same r = true := by
  simp only [Path.same, decide_eq_true_eq] at first second ⊢
  exact first.trans second

theorem same_right {p q : Path} (same : p.same q = true) (r : Path) : r.same p = r.same q := by
  have equal : p.components = q.components := by simpa [Path.same] using same
  simp only [Path.same, equal]

theorem parent?_congr {p q : Path} (same : p.same q = true) : p.parent? = q.parent? := by
  have equal : p.components = q.components := by simpa [Path.same] using same
  unfold parent?
  rw [equal]

theorem isAbsolute_cons (first : String) {rest : List String} (nonempty : rest ≠ []) :
    isAbsolute ⟨first :: rest⟩ = decide (first = "") := by
  obtain ⟨second, others, rfl⟩ := List.exists_cons_of_ne_nil nonempty
  by_cases void : first = ""
  · simp [void, isAbsolute]
  · simp [void, isAbsolute]

/-! ## Components -/

theorem component?_of_isVoid {segment : String} (void : isVoid segment = true) : component? segment = none := by
  rw [component?, if_pos void]

/-- Without `..`, the components of segments are their names. -/
theorem filterMap_component? {segments : List String} (noParent : ".." ∉ segments.filter (!isVoid ·)) :
    segments.filterMap component? = (segments.filter (!isVoid ·)).map .name := by
  induction segments with
  | nil => rfl
  | cons segment rest ih =>
    cases void : isVoid segment with
    | true =>
      rw [List.filterMap_cons_none (component?_of_isVoid void), List.filter_cons_of_neg (by simp [void])]
      exact ih (by simpa [void] using noParent)
    | false =>
      rw [List.filter_cons_of_pos (by simp [void])] at noParent ⊢
      simp only [List.mem_cons, not_or] at noParent
      have component : component? segment = some (.name segment) := by
        rw [component?, void, if_neg Bool.false_ne_true, if_neg fun same => noParent.1 same.symm]
      rw [List.filterMap_cons_some component, List.map_cons, ih noParent.2]

theorem components_cons {segments : List String} (nonempty : segments ≠ []) :
    (⟨"" :: segments⟩ : Path).components = .root :: segments.filterMap component? := by
  obtain ⟨next, rest, rfl⟩ := List.exists_cons_of_ne_nil nonempty
  rfl

/-- The components of a relative path behind an absolute one. -/
theorem components_join {p q : Path} (absolute : p.isAbsolute = true) (relative : q.isAbsolute = false)
    (nonempty : q.segments ≠ []) : (p.join q).components = p.components ++ q.segments.filterMap component? := by
  obtain ⟨_ | ⟨first, _ | ⟨next, rest⟩⟩⟩ := p
  · cases absolute
  · simp [isAbsolute] at absolute
  obtain rfl : first = "" := by simpa [isAbsolute_cons] using absolute
  have isEmpty : (⟨"" :: next :: rest⟩ : Path).isEmpty = false := by simp [Path.isEmpty]
  rw [join, relative, isEmpty, Bool.or_false, if_neg Bool.false_ne_true, components_cons (by simp)]
  split
  · next void =>
    rw [List.getLast?_cons_cons] at void
    obtain ⟨front, segments⟩ := List.getLast?_eq_some_iff.mp void
    have last : [""].filterMap component? = [] := by decide
    rw [segments, ← List.cons_append, List.dropLast_concat, List.cons_append, components_cons (by simp [nonempty]),
      List.filterMap_append, List.filterMap_append, last, List.append_nil, List.cons_append]
  · rw [List.cons_append, components_cons (by simp), List.filterMap_append, List.cons_append]

/-! ## Last names -/

/-- A segment that names an entry of the directory in which it stands. -/
def IsName (segment : String) : Prop := isVoid segment = false ∧ segment ≠ ".."

theorem splitSlashes_cons {c : Char} (other : c ≠ '/') (rest : List Char) :
    ∃ first more, splitSlashes rest = first :: more ∧ splitSlashes (c :: rest) = (c :: first) :: more := by
  have nonempty : splitSlashes rest ≠ [] := by
    unfold splitSlashes
    split
    · simp
    · simp
    · split <;> simp
  obtain ⟨first, more, same⟩ := List.exists_cons_of_ne_nil nonempty
  refine ⟨first, more, same, ?_⟩
  rw [splitSlashes, same]
  exact other

theorem splitSlashes_of_plain {cs : List Char} (plain : '/' ∉ cs) : splitSlashes cs = [cs] := by
  induction cs with
  | nil => rfl
  | cons c rest ih =>
    have other : c ≠ '/' := fun same => plain (by simp [same])
    obtain ⟨first, more, split, whole⟩ := splitSlashes_cons other rest
    rw [ih fun mem => plain (List.mem_cons_of_mem _ mem)] at split
    cases split
    exact whole

/-- The last segment of a text ends as the text does. -/
theorem getLast?_splitSlashes {tail : List Char} (plain : '/' ∉ tail) (front : List Char) :
    ∃ head, (splitSlashes (front ++ tail)).getLast? = some (head ++ tail) := by
  induction front with
  | nil => exact ⟨[], by simp [splitSlashes_of_plain plain]⟩
  | cons c front ih =>
    obtain ⟨head, last⟩ := ih
    obtain ⟨before, split⟩ := List.getLast?_eq_some_iff.mp last
    by_cases slash : c = '/'
    · subst slash
      refine ⟨head, ?_⟩
      rw [List.cons_append, splitSlashes, split, List.getLast?_cons]
      simp
    · obtain ⟨first, more, split', whole⟩ := splitSlashes_cons slash (front ++ tail)
      rw [List.cons_append, whole]
      cases more with
      | nil =>
        rw [split'] at last
        simp only [List.getLast?_singleton, Option.some.injEq] at last
        exact ⟨c :: head, by simp [last]⟩
      | cons second others =>
        rw [split', List.getLast?_cons_cons] at last
        exact ⟨head, by rw [List.getLast?_cons_cons]; exact last⟩

theorem segments_ofText_ne_nil (text : String) : (ofText text).segments ≠ [] := by
  unfold ofText
  cases chars : text.toList with
  | nil => simp [splitSlashes]
  | cons c rest =>
    by_cases slash : c = '/'
    · subst slash; simp [splitSlashes]
    · obtain ⟨first, more, _, whole⟩ := splitSlashes_cons slash rest
      simp [whole]

theorem getLast?_child (p : Path) (text : String) :
    (p.child text).segments.getLast? = (ofText text).segments.getLast? := by
  have nonempty := segments_ofText_ne_nil text
  unfold child join
  split
  · rfl
  split
  · exact List.getLast?_append_of_ne_nil _ nonempty
  · exact List.getLast?_append_of_ne_nil _ nonempty

/-- A name without slashes is the last segment of a path continued by it. -/
theorem getLast?_child_of_plain (p : Path) {name : String} (plain : '/' ∉ name.toList) :
    (p.child name).segments.getLast? = some name := by
  simp [getLast?_child, ofText, splitSlashes_of_plain plain, String.ofList_toList]

theorem getLast?_child_append (p : Path) (front : String) {ending : String} (plain : '/' ∉ ending.toList) :
    ∃ head, (p.child (front ++ ending)).segments.getLast? = some (String.ofList (head ++ ending.toList)) := by
  obtain ⟨head, last⟩ := getLast?_splitSlashes plain front.toList
  refine ⟨head, ?_⟩
  rw [getLast?_child, ofText, List.getLast?_map, String.toList_append, last]
  rfl

theorem isName_of_getLast? {name : String} {c : Char} (last : name.toList.getLast? = some c) (other : c ≠ '.') :
    IsName name := by
  refine ⟨?_, ?_⟩
  · simp only [isVoid, Bool.or_eq_false_iff, decide_eq_false_iff_not]
    constructor
    · rintro rfl
      simp at last
    · rintro rfl
      exact other (Option.some.inj last).symm
  · rintro rfl
    exact other (Option.some.inj last).symm

theorem components_of_isName {p : Path} {name : String} (last : p.segments.getLast? = some name)
    (isName : IsName name) : p.components.getLast? = some (.name name) := by
  obtain ⟨front, segments⟩ := List.getLast?_eq_some_iff.mp last
  have notDot : name ≠ "." := by rintro rfl; exact absurd isName.1 (by decide)
  have component : component? name = some (.name name) := by simp [component?, isName.1, isName.2]
  have ends (before : List String) :
      ((before ++ [name]).filterMap component?).getLast? = some (.name name) := by
    simp [List.filterMap_append, component]
  have more (c : Component) (before : List String) :
      (c :: (before ++ [name]).filterMap component?).getLast? = some (.name name) := by
    rw [List.getLast?_cons, ends]
    rfl
  unfold components
  split
  · next next rest same =>
    cases front with
    | nil => simp [same] at segments
    | cons first before =>
      have behind : next :: rest = before ++ [name] := by
        rw [same, List.cons_append] at segments
        exact (List.cons.inj segments).2
      rw [behind]
      exact more .root before
  · next rest same =>
    cases front with
    | nil =>
      rw [same, List.nil_append] at segments
      exact absurd (List.cons.inj segments).1.symm notDot
    | cons first before =>
      have behind : rest = before ++ [name] := by
        rw [same, List.cons_append] at segments
        exact (List.cons.inj segments).2
      rw [behind]
      exact more .current before
  · rw [segments]
    exact ends front

/-- Paths of one place have the same last name. -/
theorem getLast?_eq_of_same {p q : Path} {name other : String} (same : p.same q = true)
    (last : p.segments.getLast? = some name) (isName : IsName name)
    (last' : q.segments.getLast? = some other) (isName' : IsName other) : name = other := by
  have equal : p.components = q.components := by simpa [Path.same] using same
  have here := components_of_isName last isName
  rw [equal, components_of_isName last' isName'] at here
  simpa using here.symm

end SolidityBuild.Path
