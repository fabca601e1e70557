import SolidityBuild.Proofs.CoverageSources

/-!
# Numbers of sources

The numbers in the table of a document come from two countings: that of the compiler for the sources that it
reports, and the positions in the request for all others. Each of the two gives different sources different
numbers, but the two are not kept apart (`numbers_distinct_iff`).
-/

namespace SolidityBuild

namespace CompilerResult

variable {raw : Json} {result : CompilerResult} {name : String}

/-! ## Reported numbers -/

/-- The number that an answer of the compiler gives for a source. -/
def reported? (raw : Json) (name : String) : Option Json := raw.at? ["sources", name, "id"]

theorem reported?_eq (raw : Json) (name : String) :
    reported? raw name = ((raw.get? "sources").bind (·.get? name)).bind (·.get? "id") := by
  simp [reported?, Json.at?, Option.bind_assoc]

/-- An answer in which the numbers of different sources are different integers below `2 ^ 32`. -/
structure DistinctNumbers (raw : Json) : Prop where
  integer {name : String} {id : Json} (reported : reported? raw name = some id) : ∃ n < idLimit, id = .integer (n : Nat)
  apart {name other : String} {id : Json} (reported : reported? raw name = some id)
    (reported' : reported? raw other = some id) : name = other

theorem get?_membersOf {α : Type} {read : Json → Option α} (ordered : raw.Ordered) (key name : String) :
    (membersOf raw key read).get? name = ((raw.get? key).bind (·.get? name)).bind read := by
  unfold membersOf
  cases found : raw.get? key with
  | none => rfl
  | some inner =>
    cases inner with
    | object members =>
      have order : Entries.Ordered members := by
        cases raw with
        | object all => exact (ordered.value found).entries
        | _ => cases found
      have nodup : ((members.filterMap fun member => (read member.2).map fun a => (member.1, a)).map (·.1)).Nodup := by
        refine (Entries.keys_nodup order).sublist (Batch.keys_filterMap_sublist ?_ members)
        rintro ⟨key, value⟩ entry made
        obtain ⟨a, -, rfl⟩ := Option.map_eq_some_iff.mp made
        rfl
      refine Option.ext fun a => ?_
      change (Dict.ofList _).get? name = some a ↔ (Entries.find? name members).bind read = some a
      rw [Dict.get?_ofList_of_nodup nodup, List.mem_filterMap, Option.bind_eq_some_iff]
      constructor
      · rintro ⟨⟨key, value⟩, mem, made⟩
        obtain ⟨a', reads, same⟩ := Option.map_eq_some_iff.mp made
        cases same
        exact ⟨value, Entries.find?_of_mem order mem, reads⟩
      · rintro ⟨value, there, reads⟩
        exact ⟨(name, value), Entries.mem_of_find? there, by simp [reads]⟩
    | _ => rfl

/-- The numbers of a result are those that were reported. -/
theorem map_sourceIds (ordered : raw.Ordered) (distinct : DistinctNumbers raw) (read : ofJson raw = .ok result)
    (name : String) : (result.sourceIds.get? name).map (fun n : Nat => .integer n) = reported? raw name := by
  obtain ⟨diagnostics, -, made⟩ := bind_eq_ok_iff.mp read
  cases made
  rw [get?_membersOf ordered]
  have reported := reported?_eq raw name
  rw [reported]
  cases source : (raw.get? "sources").bind (·.get? name) with
  | none => rfl
  | some value =>
    rw [Option.bind_some, Option.bind_some, idOf]
    cases given : value.get? "id" with
    | none => rfl
    | some id =>
      obtain ⟨n, small, rfl⟩ := distinct.integer (reported.trans (by rw [source, Option.bind_some, given]))
      simp [Json.natural?, Nat.mod_eq_of_lt small]

end CompilerResult

namespace Artifact.Compilation

open CompilerResult (reported? DistinctNumbers idLimit)

section

variable {c : Compilation} {raw : Json} {name : String}

/-! ## Numbers of a document -/

/-- The number of a source in a table of sources. -/
def number? (references : Dict Json) (name : String) : Option Json := (references.get? name).bind (·.get? "id")

theorem number?_eq_some_iff {id : Json} : number? c.sourceReferences name = some id ↔
    ∃ position, c.request.sources.keys[position]? = some name ∧ id = .integer (c.sourceId name position) := by
  have field (position : Nat) : (c.sourceReference name position).get? "id" = some (.integer (c.sourceId name position)) := by
    simp [sourceReference, Json.get?, Entries.find?]
  rw [number?, Option.bind_eq_some_iff]
  constructor
  · rintro ⟨reference, found, same⟩
    rw [Dict.get?_eq_some_iff, Dict.toList, entries_sourceReferences] at found
    obtain ⟨⟨key, position⟩, mem, made⟩ := List.mem_map.mp found
    cases made
    rw [field] at same
    exact ⟨position, List.mem_zipIdx_iff_getElem?.mp mem, (Option.some.inj same).symm⟩
  · rintro ⟨position, there, rfl⟩
    refine ⟨c.sourceReference name position, ?_, field position⟩
    rw [Dict.get?_eq_some_iff, Dict.toList, entries_sourceReferences]
    exact List.mem_map.mpr ⟨(name, position), List.mem_zipIdx_iff_getElem?.mpr there, rfl⟩

theorem sourceId_of_reported (ordered : raw.Ordered) (distinct : DistinctNumbers raw)
    (read : CompilerResult.ofJson raw = .ok c.result) {id : Json} (reported : reported? raw name = some id) (position : Nat) :
    id = .integer (c.sourceId name position) := by
  rw [← CompilerResult.map_sourceIds ordered distinct read] at reported
  obtain ⟨n, found, rfl⟩ := Option.map_eq_some_iff.mp reported
  rw [sourceId, found, Option.getD_some]

theorem sourceId_of_unreported (ordered : raw.Ordered) (distinct : DistinctNumbers raw)
    (read : CompilerResult.ofJson raw = .ok c.result) (unreported : reported? raw name = none) (position : Nat) :
    c.sourceId name position = position % idLimit := by
  rw [← CompilerResult.map_sourceIds ordered distinct read, Option.map_eq_none_iff] at unreported
  rw [sourceId, unreported, Option.getD_none]

/-- Let an answer report different numbers for different sources, of all that were sent or of some. Then the sources have
different numbers in the documents exactly if none without a reported number stands in the request at a position that
is the number of another source. -/
theorem numbers_distinct_iff (ordered : raw.Ordered) (distinct : DistinctNumbers raw)
    (read : CompilerResult.ofJson raw = .ok c.result) {primary : Path} {documents : List (String × Json)}
    (made : c.documents primary = .ok documents) {contract : String} {document : Json}
    (listed : (contract, document) ∈ documents) :
    document.get? "sources" = some (.ofDict c.sourceReferences) ∧
      c.sourceReferences.keys = c.request.sources.keys ∧
      ((∀ name other id, number? c.sourceReferences name = some id → number? c.sourceReferences other = some id →
          name = other) ↔
        ∀ position name, c.request.sources.keys[position]? = some name → reported? raw name = none →
          ∀ other, other ≠ name → number? c.sourceReferences other ≠ some (.integer (position % idLimit : Nat))) := by
  refine ⟨(document_tables made listed).1, keys_sourceReferences c, ?_⟩
  constructor
  · intro apart position name there unreported other differs clash
    have own : number? c.sourceReferences name = some (.integer (position % idLimit : Nat)) := by
      rw [number?_eq_some_iff, ← sourceId_of_unreported ordered distinct read unreported position]
      exact ⟨position, there, rfl⟩
    exact differs (apart other name _ clash own)
  · intro free name other id own clash
    by_contra differs
    obtain ⟨position, there, same⟩ := number?_eq_some_iff.mp own
    obtain ⟨position', there', same'⟩ := number?_eq_some_iff.mp clash
    cases reported : reported? raw name with
    | none =>
      refine free position name there reported other (Ne.symm differs) ?_
      rw [clash, same, sourceId_of_unreported ordered distinct read reported]
    | some given =>
      cases reported' : reported? raw other with
      | none =>
        refine free position' other there' reported' name differs ?_
        rw [own, same', sourceId_of_unreported ordered distinct read reported']
      | some given' =>
        have first := sourceId_of_reported ordered distinct read reported position
        have second := sourceId_of_reported ordered distinct read reported' position'
        rw [← same] at first
        rw [← same'] at second
        rw [first] at reported
        rw [second] at reported'
        exact differs (distinct.apart reported reported')

end

/-! ## A source without a reported number -/

namespace Partial

/-- An answer that gives the file the number 1, and its import none. -/
def raw : Json :=
  .object [("contracts", .object [("/p/contracts/A.sol", .object [("A", .emptyObject)])]),
    ("sources", .object [("/p/contracts/A.sol", .object [("id", .integer 1)])])]

theorem ordered : raw.Ordered := Json.ordered_canonical raw

theorem reported?_raw (name : String) :
    reported? raw name = if "/p/contracts/A.sol" = name then some (.integer 1) else none := by
  have sources : raw.get? "sources" = some (.object [("/p/contracts/A.sol", .object [("id", .integer 1)])]) := by
    simp [raw, Json.get?, Entries.find?]
  rw [CompilerResult.reported?_eq, sources, Option.bind_some, Json.get?, Entries.find?]
  split
  · simp [Json.get?, Entries.find?]
  · rfl

theorem distinct : DistinctNumbers raw where
  integer {name id} reported := by
    rw [reported?_raw] at reported
    split at reported
    · cases reported
      exact ⟨1, by decide, rfl⟩
    · cases reported
  apart {name other id} reported reported' := by
    rw [reported?_raw] at reported reported'
    split at reported
    · next here =>
      split at reported'
      · next there => exact here.symm.trans there
      · cases reported'
    · cases reported

theorem reads : (CompilerResult.ofJson raw).toOption.isSome = true := by decide +kernel

def compilation : Compilation :=
  { Respelled.compilation false with result := (CompilerResult.ofJson raw).toOption.get reads }

end Partial

/-- The import stands behind the file in the request, at position 1. -/
theorem numbers_distinct_iff_clash :
    ∃ document, Partial.compilation.documents Respelled.importer = .ok [("A", document)] ∧
      ∃ references, document.get? "sources" = some (.ofDict references) ∧
        number? references "/p/contracts/A.sol" = some (.integer 1) ∧
        ¬∀ name other id, number? references name = some id → number? references other = some id → name = other := by
  have read : CompilerResult.ofJson Partial.raw = .ok Partial.compilation.result := eq_ok_of_isSome Partial.reads
  obtain ⟨document, made⟩ := exists_document Partial.compilation Respelled.importer "A" (by decide +kernel)
  obtain ⟨sources, -, apart⟩ :=
    numbers_distinct_iff Partial.ordered Partial.distinct read made (List.mem_singleton_self _)
  have first : Partial.compilation.request.sources.keys[0]? = some "/p/contracts/A.sol" := by decide +kernel
  have second : Partial.compilation.request.sources.keys[1]? = some "/p/contracts/B.sol" := by decide +kernel
  have number : number? Partial.compilation.sourceReferences "/p/contracts/A.sol" = some (.integer 1) := by
    rw [number?_eq_some_iff]
    exact ⟨0, first, sourceId_of_reported Partial.ordered Partial.distinct read (by rw [Partial.reported?_raw, if_pos rfl]) 0⟩
  refine ⟨document, made, _, sources, number, fun distinct => ?_⟩
  exact apart.mp distinct 1 _ second (by rw [Partial.reported?_raw, if_neg (by decide)]) _ (by decide) number

end Artifact.Compilation

end SolidityBuild
