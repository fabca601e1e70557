import SolidityBuild.Path.Normal
import SolidityBuild.Proofs.Paths
import Mathlib.Algebra.Ring.Parity

/-!
# Normal forms of paths

Read from some place, the components of a path lead so many directories out of it and then along names: this is
the path's `Resolution`. The loop behind `normalized` keeps all the names. Of the steps out it keeps only
the parity, for a `..` that stays is taken back by the next one. So a normal form stands for its path behind
a directory exactly if at most one step leads out (`normalized_exact`), and a path that steps out of the root an
odd number of times keeps a `..` there.
-/

namespace SolidityBuild.Path

variable {p q : Path}

/-! ## Starts -/

/-- The components at which a path starts: the root, or nothing if the path is read from any place. -/
def start (p : Path) : List Component := if p.isAbsolute then [.root] else []

theorem start_eq (p : Path) : p.start = [] ∨ p.start = [.root] := by
  unfold start
  split <;> simp

theorem root_notMem_filterMap (segments : List String) : Component.root ∉ segments.filterMap component? := by
  intro mem
  obtain ⟨segment, -, component⟩ := List.mem_filterMap.mp mem
  unfold component? at component
  split at component
  · cases component
  · split at component <;> cases component

/-- Behind its start, a path has the components of segments, below a `.` perhaps. -/
theorem components_eq_start_append (p : Path) :
    ∃ (lead : List Component) (segments : List String), p.components = p.start ++ (lead ++ segments.filterMap component?) ∧ (lead = [] ∨ lead = [.current]) ∧
      (p.isAbsolute = false → segments.filterMap component? = p.segments.filterMap component?) := by
  obtain ⟨segments⟩ := p
  unfold start components
  split
  · next next rest same =>
    cases same
    exact ⟨[], next :: rest, rfl, .inl rfl, nofun⟩
  · next rest same =>
    cases same
    have relative : isAbsolute ⟨"." :: rest⟩ = false := rfl
    have void : ("." :: rest).filterMap component? = rest.filterMap component? := rfl
    exact ⟨[.current], rest, by simp [relative], .inr rfl, fun _ => void.symm⟩
  · next notRoot _ =>
    have relative : isAbsolute ⟨segments⟩ = false := by
      unfold isAbsolute
      split
      · next next rest same => exact absurd same (notRoot _ _)
      · rfl
    exact ⟨[], segments, by simp [relative], .inl rfl, fun _ => rfl⟩

theorem root_mem_components : .root ∈ p.components ↔ p.isAbsolute = true := by
  obtain ⟨lead, segments, components, leads, -⟩ := components_eq_start_append p
  have behind : Component.root ∉ lead ++ segments.filterMap component? := by
    rw [List.mem_append, not_or]
    exact ⟨by obtain rfl | rfl := leads <;> simp, root_notMem_filterMap segments⟩
  rw [components, List.mem_append, or_iff_left behind]
  unfold start
  split <;> simp_all

/-! ## Plain spellings -/

/-- A component whose spelling reads as this component wherever it stands. -/
def Component.Plain (c : Component) : Prop := component? c.segment = some c

theorem Component.plain_parent : Component.parent.Plain := by rw [Plain]; decide

theorem Component.plain_of_component? {segment : String} {c : Component} (component : component? segment = some c) :
    c.Plain := by
  have read := component
  unfold component? at component
  split at component
  · cases component
  split at component
  · cases component
    exact plain_parent
  · cases component
    exact read

theorem Component.plain_of_mem {text : String} (mem : .name text ∈ p.components) : (Component.name text).Plain := by
  obtain ⟨lead, segments, components, leads, -⟩ := components_eq_start_append p
  have mem' : Component.name text ∈ segments.filterMap component? := by
    rw [components] at mem
    obtain start | start := start_eq p <;> obtain rfl | rfl := leads <;> simpa [start] using mem
  obtain ⟨segment, -, component⟩ := List.mem_filterMap.mp mem'
  exact plain_of_component? component

theorem filterMap_segment {cs : List Component} (plain : ∀ c ∈ cs, c.Plain) :
    (cs.map Component.segment).filterMap component? = cs := by
  induction cs with
  | nil => rfl
  | cons c rest ih =>
    rw [List.forall_mem_cons] at plain
    rw [List.map_cons, List.filterMap_cons_some plain.1, ih plain.2]

/-- Spelled behind a start, plain components are read back. -/
theorem components_ofComponents (p : Path) {cs : List Component} (plain : ∀ c ∈ cs, c.Plain) :
    (ofComponents (p.start ++ cs)).components = p.start ++ cs := by
  have read := filterMap_segment plain
  obtain start | start := start_eq p <;> rw [start]
  · cases cs with
    | nil => decide
    | cons c rest =>
      have here : component? c.segment = some c := plain c (by simp)
      have same : ofComponents (c :: rest) = ⟨(c :: rest).map Component.segment⟩ := by
        unfold ofComponents
        split
        · next empty => cases empty
        · next single =>
          cases single
          cases here
        · rfl
      rw [List.nil_append, same]
      unfold components
      split
      · next next more segments =>
        obtain ⟨void, -⟩ := List.cons.inj segments
        rw [void] at here
        cases here
      · next more segments =>
        obtain ⟨void, -⟩ := List.cons.inj segments
        rw [void] at here
        cases here
      · exact read
  · cases cs with
    | nil => rfl
    | cons c rest =>
      have spelled : ofComponents ([.root] ++ c :: rest) = ⟨"" :: (c :: rest).map Component.segment⟩ := rfl
      rw [spelled, components_cons (by simp), read]
      rfl

/-! ## Resolutions -/

/-- Where components lead from any place: so many directories out of it, and then along names, the last one first. -/
structure Resolution where
  unmatched : Nat
  names : List String
deriving DecidableEq

namespace Resolution

/-- Goes along one more component: `..` takes back the last name, or leads one more directory out. -/
def take (left : Resolution) : Component → Resolution
  | .root => left
  | .current => left
  | .parent =>
    match left.names with
    | [] => { left with unmatched := left.unmatched + 1 }
    | _ :: names => { left with names }
  | .name text => { left with names := text :: left.names }

/-- What the loop behind the normal form has on its stack: two steps out are none. -/
def stack (left : Resolution) : List Component :=
  left.names.map .name ++ List.replicate (left.unmatched % 2) .parent

/-- Two resolutions one after the other. -/
def after (base left : Resolution) : Resolution :=
  ⟨base.unmatched + (left.unmatched - base.names.length), left.names ++ base.names.drop left.unmatched⟩

/-- One round of the loop. -/
theorem step_stack (left : Resolution) {start : List Component} (starts : start = [] ∨ start = [.root]) {c : Component}
    (notRoot : c ≠ .root) : step (left.stack ++ start) c = (left.take c).stack ++ start := by
  obtain ⟨unmatched, names⟩ := left
  cases c with
  | root => exact absurd rfl notRoot
  | current => rfl
  | name text => rfl
  | parent =>
    cases names with
    | cons last names => rfl
    | nil =>
      obtain even | odd := Nat.mod_two_eq_zero_or_one unmatched
      · have next : (unmatched + 1) % 2 = 1 := by omega
        obtain rfl | rfl := starts <;> simp [stack, take, even, next, step]
      · have next : (unmatched + 1) % 2 = 0 := by omega
        obtain rfl | rfl := starts <;> simp [stack, take, odd, next, step]

/-- The whole loop. -/
theorem foldl_step (left : Resolution) {start : List Component} (starts : start = [] ∨ start = [.root])
    {cs : List Component} (notRoot : .root ∉ cs) :
    cs.foldl step (left.stack ++ start) = (cs.foldl take left).stack ++ start := by
  induction cs generalizing left with
  | nil => rfl
  | cons c rest ih =>
    simp only [List.mem_cons, not_or] at notRoot
    rw [List.foldl_cons, step_stack left starts (Ne.symm notRoot.1), ih _ notRoot.2, List.foldl_cons]

theorem take_after (base left : Resolution) (c : Component) : (base.after left).take c = base.after (left.take c) := by
  obtain ⟨out, below⟩ := base
  obtain ⟨unmatched, names⟩ := left
  cases c with
  | root => rfl
  | current => rfl
  | name text => rfl
  | parent =>
    cases names with
    | cons last names => rfl
    | nil =>
      -- the names of the base are taken back as long as there are some
      obtain inside | outside := Nat.lt_or_ge unmatched below.length
      · have within : unmatched - below.length = 0 := by omega
        have within' : unmatched + 1 - below.length = 0 := by omega
        simp only [after, take, List.nil_append, List.drop_eq_getElem_cons inside, within, within']
      · have more : out + (unmatched - below.length) + 1 = out + (unmatched + 1 - below.length) := by omega
        simp [after, take, List.drop_eq_nil_of_le outside, List.drop_eq_nil_of_le (Nat.le_succ_of_le outside), more]

/-- Components lead from where others have led as they lead from any place. -/
theorem foldl_take_after (base left : Resolution) (cs : List Component) :
    cs.foldl take (base.after left) = base.after (cs.foldl take left) := by
  induction cs generalizing left with
  | nil => rfl
  | cons c rest ih => rw [List.foldl_cons, take_after, ih, List.foldl_cons]

theorem foldl_take (base : Resolution) (cs : List Component) : cs.foldl take base = base.after (cs.foldl take ⟨0, []⟩) := by
  rw [← foldl_take_after]
  simp [after]

theorem unmatched_take (left : Resolution) (c : Component) :
    (left.take c).unmatched ≤ left.unmatched + [c].count .parent := by
  obtain ⟨unmatched, names⟩ := left
  cases c with
  | parent => cases names <;> simp [take]
  | _ => simp [take]

theorem unmatched_foldl_take (left : Resolution) (cs : List Component) :
    (cs.foldl take left).unmatched ≤ left.unmatched + cs.count .parent := by
  induction cs generalizing left with
  | nil => simp
  | cons c rest ih =>
    have here := unmatched_take left c
    have behind := ih (left.take c)
    have count : (c :: rest).count .parent = [c].count .parent + rest.count .parent := by
      rw [← List.count_append, List.singleton_append]
    rw [List.foldl_cons]
    omega

theorem name_mem_foldl_take {text : String} {cs : List Component} {left : Resolution}
    (mem : text ∈ (cs.foldl take left).names) : .name text ∈ cs ∨ text ∈ left.names := by
  induction cs generalizing left with
  | nil => exact .inr mem
  | cons c rest ih =>
    obtain behind | here := ih mem
    · exact .inl (List.mem_cons_of_mem _ behind)
    obtain ⟨unmatched, names⟩ := left
    cases c with
    | root => exact .inr here
    | current => exact .inr here
    | name last =>
      obtain rfl | before := List.mem_cons.mp here
      · exact .inl (List.mem_cons_self ..)
      · exact .inr before
    | parent =>
      cases names with
      | nil => exact .inr here
      | cons last names => exact .inr (List.mem_cons_of_mem _ here)

theorem foldl_take_names (left : Resolution) (names : List String) :
    (names.map Component.name).foldl take left = { left with names := names.reverse ++ left.names } := by
  induction names generalizing left with
  | nil => rfl
  | cons name rest ih => simp [ih, take]

end Resolution

/-- Where a path leads from its start. -/
def resolution (p : Path) : Resolution := p.components.foldl .take ⟨0, []⟩

theorem name_mem_components {text : String} (mem : text ∈ p.resolution.names) : .name text ∈ p.components := by
  obtain there | before := Resolution.name_mem_foldl_take mem
  · exact there
  · cases before

theorem resolution_start_append {cs : List Component} (components : p.components = q.start ++ cs) :
    p.resolution = cs.foldl .take ⟨0, []⟩ := by
  rw [resolution, components]
  obtain start | start := start_eq q <;> rw [start] <;> rfl

theorem resolution_of_relative (relative : p.isAbsolute = false) :
    p.resolution = (p.segments.filterMap component?).foldl .take ⟨0, []⟩ := by
  obtain ⟨lead, segments, components, leads, same⟩ := components_eq_start_append p
  rw [resolution_start_append components, ← same relative]
  obtain rfl | rfl := leads <;> rfl

/-! ## Normal forms -/

/-- A normal form is spelled by where its path leads. -/
theorem normalized_eq (p : Path) :
    p.normalized = ofComponents (p.start ++
      (List.replicate (p.resolution.unmatched % 2) .parent ++ p.resolution.names.reverse.map .name)) := by
  obtain ⟨lead, segments, components, leads, -⟩ := components_eq_start_append p
  have notRoot : Component.root ∉ lead ++ segments.filterMap component? := by
    rw [List.mem_append, not_or]
    exact ⟨by obtain rfl | rfl := leads <;> simp, root_notMem_filterMap segments⟩
  have begins : p.start.foldl step [] = (⟨0, []⟩ : Resolution).stack ++ p.start := by
    obtain start | start := start_eq p <;> rw [start] <;> rfl
  have reversed : p.start.reverse = p.start := by
    obtain start | start := start_eq p <;> rw [start] <;> rfl
  rw [normalized, normalComponents]
  conv => lhs; rw [components]
  rw [List.foldl_append, begins, Resolution.foldl_step _ (start_eq p) notRoot, ← resolution_start_append components]
  simp [Resolution.stack, reversed]

theorem components_normalized (p : Path) :
    p.normalized.components = p.start ++
      (List.replicate (p.resolution.unmatched % 2) .parent ++ p.resolution.names.reverse.map .name) := by
  rw [normalized_eq]
  apply components_ofComponents p
  intro c mem
  obtain dots | names := List.mem_append.mp mem
  · obtain rfl := List.eq_of_mem_replicate dots
    exact Component.plain_parent
  · obtain ⟨text, named, rfl⟩ := List.mem_map.mp names
    exact Component.plain_of_mem (name_mem_components (List.mem_reverse.mp named))

theorem isAbsolute_normalized (p : Path) : p.normalized.isAbsolute = p.isAbsolute := by
  rw [Bool.eq_iff_iff, ← root_mem_components, components_normalized]
  unfold start
  split <;> simp_all [List.mem_replicate]

theorem start_normalized (p : Path) : p.normalized.start = p.start := by
  rw [start, isAbsolute_normalized, start]

theorem resolution_normalized (p : Path) :
    p.normalized.resolution = ⟨p.resolution.unmatched % 2, p.resolution.names⟩ := by
  rw [resolution_start_append (components_normalized p), List.foldl_append, Resolution.foldl_take_names]
  obtain even | odd := Nat.mod_two_eq_zero_or_one p.resolution.unmatched
  · simp [even]
  · simp [odd, Resolution.take]

/-- Normal forms are their own. -/
theorem normalized_normalized (p : Path) : p.normalized.normalized = p.normalized := by
  rw [normalized_eq p.normalized, start_normalized, resolution_normalized, Nat.mod_mod, ← normalized_eq]

/-- Paths have one normal form if they start alike and lead along the same names, as far out or an even number of
directories further. -/
theorem normalized_eq_iff : p.normalized = q.normalized ↔ p.isAbsolute = q.isAbsolute ∧
    p.resolution.unmatched % 2 = q.resolution.unmatched % 2 ∧ p.resolution.names = q.resolution.names := by
  constructor
  · intro same
    have leads := congrArg Path.resolution same
    rw [resolution_normalized, resolution_normalized] at leads
    obtain ⟨unmatched, names⟩ := Resolution.mk.inj leads
    refine ⟨?_, unmatched, names⟩
    rw [← isAbsolute_normalized p, same, isAbsolute_normalized]
  · rintro ⟨absolute, unmatched, names⟩
    rw [normalized_eq p, normalized_eq q, start, absolute, unmatched, names, start]

theorem segments_normalized_ne_nil (p : Path) : p.normalized.segments ≠ [] := by
  unfold normalized ofComponents
  split
  · simp
  · simp
  · next notVoid _ => simpa using notVoid

/-! ## Behind a directory -/

section Join

variable {directory : Path} {names : List String}

/-- Where a relative path leads from a directory. -/
theorem resolution_join (components : directory.components = .root :: names.map .name) (relative : p.isAbsolute = false)
    (nonempty : p.segments ≠ []) :
    (directory.join p).isAbsolute = true ∧
      (directory.join p).resolution = (⟨0, names.reverse⟩ : Resolution).after p.resolution := by
  have absolute : directory.isAbsolute = true := root_mem_components.mp (by simp [components])
  have joined := components_join absolute relative nonempty
  refine ⟨root_mem_components.mp (by simp [joined, components]), ?_⟩
  have base : directory.components.foldl Resolution.take ⟨0, []⟩ = ⟨0, names.reverse⟩ := by
    rw [components, List.foldl_cons]
    simp [Resolution.take, Resolution.foldl_take_names]
  rw [resolution, joined, List.foldl_append, base, Resolution.foldl_take, resolution_of_relative relative]

/-- Behind a directory that is deep enough, a normal form stands for its path exactly if at most one step leads out. -/
theorem normalized_join_normalized (components : directory.components = .root :: names.map .name)
    (deep : p.components.count .parent ≤ names.length) (nonempty : p.segments ≠ []) :
    (directory.join p.normalized).normalized = (directory.join p).normalized ↔
      p.isAbsolute = true ∨ p.resolution.unmatched ≤ 1 := by
  cases starts : p.isAbsolute with
  | true =>
    have whole : directory.join p = p := by simp [join, starts]
    have whole' : directory.join p.normalized = p.normalized := by simp [join, isAbsolute_normalized, starts]
    simp [whole, whole', normalized_normalized]
  | false =>
    have few : p.resolution.unmatched ≤ names.length :=
      Nat.le_trans (Resolution.unmatched_foldl_take _ _) (by simpa using deep)
    obtain ⟨absolute, leads⟩ := resolution_join components starts nonempty
    obtain ⟨absolute', leads'⟩ :=
      resolution_join components ((isAbsolute_normalized p).trans starts) (segments_normalized_ne_nil p)
    have within : p.resolution.unmatched - names.length = 0 := by omega
    have within' : p.resolution.unmatched % 2 - names.length = 0 := by omega
    rw [normalized_eq_iff, absolute, absolute', leads, leads', resolution_normalized]
    simp only [Resolution.after, List.length_reverse, within, within', List.append_cancel_left_eq, true_and,
      Bool.false_eq_true, false_or]
    constructor
    · intro same
      have length := congrArg List.length same
      simp only [List.length_drop, List.length_reverse] at length
      omega
    · intro most
      have same : p.resolution.unmatched % 2 = p.resolution.unmatched := by omega
      rw [same]

end Join

/-- What the normal form of a path is: no `.`, and in front of the names a single `..` if an odd number of steps leads
out of where the path starts, at the root too. It is a fixed point, and behind a directory that is deep enough it
stands for its path exactly if at most one step leads out. -/
theorem normalized_exact (nonempty : p.segments ≠ []) :
    p.normalized.components = p.start ++
      (List.replicate (p.resolution.unmatched % 2) .parent ++ p.resolution.names.reverse.map .name) ∧
    p.normalized.normalized = p.normalized ∧
    (.parent ∈ p.normalized.components ↔ Odd p.resolution.unmatched) ∧
    ∀ (directory : Path) (names : List String), directory.components = .root :: names.map .name →
      p.components.count .parent ≤ names.length →
      ((directory.join p.normalized).normalized = (directory.join p).normalized ↔
        p.isAbsolute = true ∨ p.resolution.unmatched ≤ 1) := by
  refine ⟨components_normalized p, normalized_normalized p, ?_, fun directory names components deep =>
    normalized_join_normalized components deep nonempty⟩
  have notStart : Component.parent ∉ p.start := by obtain start | start := start_eq p <;> simp [start]
  rw [components_normalized, List.mem_append, or_iff_right notStart, Nat.odd_iff]
  obtain even | odd := Nat.mod_two_eq_zero_or_one p.resolution.unmatched
  · simp [even]
  · simp [odd]

/-- Two steps out of `/a/b` are lost in the normal form, and the one out of the root stays. -/
theorem normalized_exact_steps_out :
    (⟨["..", "..", "x"]⟩ : Path).normalized = ⟨["x"]⟩ ∧
    ((⟨["", "a", "b"]⟩ : Path).join (⟨["..", "..", "x"]⟩ : Path).normalized).normalized ≠
      ((⟨["", "a", "b"]⟩ : Path).join ⟨["..", "..", "x"]⟩).normalized ∧
    .parent ∈ (⟨["", "..", "x"]⟩ : Path).normalized.components := by
  obtain ⟨-, -, -, behind⟩ := normalized_exact (p := ⟨["..", "..", "x"]⟩) (by decide)
  obtain ⟨-, -, parent, -⟩ := normalized_exact (p := ⟨["", "..", "x"]⟩) (by decide)
  refine ⟨by decide, fun same => ?_, parent.mpr (by decide)⟩
  exact absurd ((behind ⟨["", "a", "b"]⟩ ["a", "b"] rfl (by decide)).mp same) (by decide)

end SolidityBuild.Path
