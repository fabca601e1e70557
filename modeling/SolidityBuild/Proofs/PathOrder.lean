import SolidityBuild.Proofs.Paths

/-!
# The order of paths

Paths are ordered by their components: of two paths that name different places one comes before the other.
So bringing paths into order leaves one path for every place, each before all that stand behind it
(`increasing_ordered`).
-/

namespace SolidityBuild.Path

/-! ## Components -/

theorem Component.before_trans {a b c : Component} (first : a.before b = true) (second : b.before c = true) :
    a.before c = true := by
  cases a with
  | name s =>
    cases b with
    | name t =>
      cases c with
      | name u => exact decide_eq_true (String.lt_trans (of_decide_eq_true first) (of_decide_eq_true second))
      | _ => simp [Component.before, Component.rank] at second
    | _ => simp [Component.before, Component.rank] at first
  | _ => cases b <;> cases c <;> simp_all [Component.before, Component.rank]

theorem Component.before_or_eq_or_before (a b : Component) : a.before b = true ∨ a = b ∨ b.before a = true := by
  cases a with
  | name s =>
    cases b with
    | name t =>
      by_cases less : s < t
      · exact .inl (decide_eq_true less)
      by_cases more : t < s
      · exact .inr (.inr (decide_eq_true more))
      · exact .inr (.inl (congrArg Component.name (String.le_antisymm (String.not_lt.mp more) (String.not_lt.mp less))))
    | _ => simp [Component.before, Component.rank]
  | _ => cases b <;> simp [Component.before, Component.rank]

/-! ## Lists of components -/

theorem componentsBefore_trans {as bs cs : List Component} (first : componentsBefore as bs = true)
    (second : componentsBefore bs cs = true) : componentsBefore as cs = true := by
  induction as generalizing bs cs with
  | nil =>
    cases cs with
    | nil => cases bs <;> simp [componentsBefore] at second
    | cons c cs => rfl
  | cons a as ih =>
    cases bs with
    | nil => simp [componentsBefore] at first
    | cons b bs =>
      cases cs with
      | nil => simp [componentsBefore] at second
      | cons c cs =>
        simp only [componentsBefore, Bool.or_eq_true, Bool.and_eq_true, decide_eq_true_eq] at first second ⊢
        rcases first with less | ⟨rfl, rest⟩
        · rcases second with less' | ⟨rfl, _⟩
          · exact .inl (Component.before_trans less less')
          · exact .inl less
        · rcases second with less' | ⟨rfl, rest'⟩
          · exact .inl less'
          · exact .inr ⟨rfl, ih rest rest'⟩

theorem componentsBefore_or_eq_or (as bs : List Component) :
    componentsBefore as bs = true ∨ as = bs ∨ componentsBefore bs as = true := by
  induction as generalizing bs with
  | nil =>
    cases bs with
    | nil => exact .inr (.inl rfl)
    | cons b bs => exact .inl rfl
  | cons a as ih =>
    cases bs with
    | nil => exact .inr (.inr rfl)
    | cons b bs =>
      simp only [componentsBefore, Bool.or_eq_true, Bool.and_eq_true, decide_eq_true_eq, List.cons.injEq]
      rcases a.before_or_eq_or_before b with less | rfl | more
      · exact .inl (.inl less)
      · rcases ih bs with less | rfl | more
        · exact .inl (.inr ⟨rfl, less⟩)
        · exact .inr (.inl ⟨rfl, rfl⟩)
        · exact .inr (.inr (.inr ⟨rfl, more⟩))
      · exact .inr (.inr (.inl more))

/-! ## Paths in order -/

/-- Paths in strictly increasing order. -/
def Increasing (paths : List Path) : Prop := paths.Pairwise fun p q => p.before q = true

theorem before_of_not {p q : Path} (less : p.before q ≠ true) (other : p.same q ≠ true) : q.before p = true := by
  have differs : p.components ≠ q.components := by simpa [Path.same] using other
  exact ((componentsBefore_or_eq_or p.components q.components).resolve_left less).resolve_left differs

theorem mem_insertOrdered {p q : Path} {paths : List Path} (mem : q ∈ insertOrdered p paths) : q = p ∨ q ∈ paths := by
  induction paths with
  | nil => exact .inl (List.mem_singleton.mp mem)
  | cons r rest ih =>
    unfold insertOrdered at mem
    split at mem
    · exact List.mem_cons.mp mem
    split at mem
    · exact .inr mem
    · rcases List.mem_cons.mp mem with rfl | behind
      · exact .inr List.mem_cons_self
      · exact (ih behind).imp_right (List.mem_cons_of_mem _)

theorem mem_insertOrdered_of_mem {p q : Path} {paths : List Path} (mem : q ∈ paths) : q ∈ insertOrdered p paths := by
  induction paths with
  | nil => cases mem
  | cons r rest ih =>
    unfold insertOrdered
    split
    · exact List.mem_cons_of_mem _ mem
    split
    · exact mem
    · rcases List.mem_cons.mp mem with rfl | behind
      · exact List.mem_cons_self
      · exact List.mem_cons_of_mem _ (ih behind)

/-- What is inserted is there then, or had a path of its place before. -/
theorem exists_same_insertOrdered (p : Path) (paths : List Path) : ∃ q ∈ insertOrdered p paths, q.same p = true := by
  induction paths with
  | nil => exact ⟨p, List.mem_cons_self, same_refl p⟩
  | cons r rest ih =>
    unfold insertOrdered
    split
    · exact ⟨p, List.mem_cons_self, same_refl p⟩
    split
    · next same => exact ⟨r, List.mem_cons_self, same_symm same⟩
    · obtain ⟨q, mem, same⟩ := ih
      exact ⟨q, List.mem_cons_of_mem _ mem, same⟩

theorem increasing_insertOrdered (p : Path) {paths : List Path} (increasing : Increasing paths) :
    Increasing (insertOrdered p paths) := by
  induction paths with
  | nil => exact List.pairwise_singleton _ p
  | cons r rest ih =>
    obtain ⟨below, tail⟩ := List.pairwise_cons.mp increasing
    unfold insertOrdered
    split
    · next less =>
      refine List.pairwise_cons.mpr ⟨?_, increasing⟩
      intro q mem
      rcases List.mem_cons.mp mem with rfl | behind
      · exact less
      · exact componentsBefore_trans less (below q behind)
    split
    · exact increasing
    · next less other =>
      refine List.pairwise_cons.mpr ⟨?_, ih tail⟩
      intro q mem
      rcases mem_insertOrdered mem with rfl | there
      · exact before_of_not less other
      · exact below q there

/-- Bringing paths into order leaves one of them for every place, in increasing order. -/
theorem increasing_ordered (paths : List Path) :
    Increasing (ordered paths) ∧ (∀ p ∈ ordered paths, p ∈ paths) ∧ ∀ p ∈ paths, ∃ q ∈ ordered paths, q.same p = true := by
  suffices general : ∀ start : List Path, Increasing start →
      let sorted := paths.foldl (fun sorted p => insertOrdered p sorted) start
      Increasing sorted ∧ (∀ p ∈ sorted, p ∈ start ∨ p ∈ paths) ∧
        ∀ p, p ∈ start ∨ p ∈ paths → ∃ q ∈ sorted, q.same p = true by
    obtain ⟨increasing, mem, found⟩ := general [] List.Pairwise.nil
    exact ⟨increasing, fun p there => (mem p there).resolve_left (by simp), fun p there => found p (.inr there)⟩
  induction paths with
  | nil =>
    intro start increasing
    refine ⟨increasing, fun p there => .inl there, ?_⟩
    rintro p (there | there)
    · exact ⟨p, there, same_refl p⟩
    · cases there
  | cons r rest ih =>
    intro start increasing
    obtain ⟨increasing', mem, found⟩ := ih (insertOrdered r start) (increasing_insertOrdered r increasing)
    refine ⟨increasing', ?_, ?_⟩
    · intro p there
      rcases mem p there with inserted | behind
      · rcases mem_insertOrdered inserted with rfl | before
        · exact .inr List.mem_cons_self
        · exact .inl before
      · exact .inr (List.mem_cons_of_mem _ behind)
    · rintro p (there | there)
      · exact found p (.inl (mem_insertOrdered_of_mem there))
      · rcases List.mem_cons.mp there with rfl | behind
        · obtain ⟨q, inserted, same⟩ := exists_same_insertOrdered p start
          obtain ⟨q', there', same'⟩ := found q (.inl inserted)
          exact ⟨q', there', same_trans same' same⟩
        · exact found p (.inr behind)

end SolidityBuild.Path
