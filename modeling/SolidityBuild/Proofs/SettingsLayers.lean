import SolidityBuild.Compiler.Settings
import SolidityBuild.Proofs.JsonLayers
import SolidityBuild.Proofs.Results

/-!
# Settings in layers

A layer of settings is a `Change` of some of their fields, and the members of two layers merged into one make the
changes one after the other (`Change.ReadFrom.overlay`). So it makes no difference whether layers are laid over the
settings one by one or merged first, but for what merging keeps of the lower layer (`kept`), and for a selection that
asks for nothing and is replaced between the layers (`overlay_overlay`).
-/

namespace SolidityBuild.CompilerSettings

variable {α : Type} {s t : CompilerSettings}

/-! ## Values that are read -/

/-- What a place tells that may be empty. -/
def Tells (read : Json → Except String α) : Option Json → Option α → Prop :=
  Option.Rel fun value x => read value = .ok x

/-- A way to read values such that a value laid over another one is read as `lay` of what the two are read as. -/
structure Layered (read : Json → Except String α) (lay : α → α → α) : Prop where
  laid {below above : Json} {x y : α} (ordered : below.Ordered) (ordered' : above.Ordered) (lower : read below = .ok x)
    (upper : read above = .ok y) : read (below.overlay above) = .ok (lay x y)
  above {below above : Json} {x z : α} (ordered : below.Ordered) (ordered' : above.Ordered) (lower : read below = .ok x)
    (whole : read (below.overlay above) = .ok z) : ∃ y, read above = .ok y

section Layered

variable {read : Json → Except String α} {lay : α → α → α} {members added : List (String × Json)} {key : String}

theorem Tells.unique {place : Option Json} {x y : Option α} (tells : Tells read place x) (tells' : Tells read place y) :
    x = y := by
  cases tells with
  | none => cases tells'; rfl
  | some reads =>
    cases tells' with
    | some reads' =>
      rw [reads] at reads'
      cases reads'
      rfl

theorem Tells.exists_some {x : Option α} (tells : Tells read (Entries.find? key members) x) {value : Json}
    (found : Entries.find? key members = some value) : ∃ y, read value = .ok y := by
  rw [found] at tells
  cases tells with
  | some reads => exact ⟨_, reads⟩

/-- Values that are never objects replace one another. -/
theorem layered_of_leaf (leaf : ∀ {members x}, read (.object members) ≠ .ok x) : Layered read fun _ upper => upper := by
  have replaces {below : Json} {x : α} (lower : read below = .ok x) (above : Json) : below.overlay above = above := by
    refine Json.overlay_of_leaf ?_ above
    cases below with
    | object members => exact absurd lower leaf
    | _ => rfl
  constructor
  · intro below above x y _ _ lower upper
    rw [replaces lower, upper]
  · intro below above x z _ _ lower whole
    rw [replaces lower] at whole
    exact ⟨z, whole⟩

/-- What merged members say under a key. -/
theorem Layered.tells (layered : Layered read lay) (ordered : (Json.object members).Ordered)
    (ordered' : (Json.object added).Ordered) {x y : Option α} (lower : Tells read (Entries.find? key members) x)
    (upper : Tells read (Entries.find? key added) y) :
    Tells read (Entries.find? key (Json.overlayMembers members added)) (x.merge lay y) := by
  rw [Json.find?_overlayMembers _ ordered'.entries]
  cases below : Entries.find? key members with
  | none =>
    rw [below] at lower
    cases lower
    simpa using upper
  | some value =>
    rw [below] at lower
    cases lower with
    | some reads =>
      cases above : Entries.find? key added with
      | none =>
        rw [above] at upper
        cases upper
        exact .some reads
      | some value' =>
        rw [above] at upper
        cases upper with
        | some reads' => exact .some (layered.laid (ordered.value below) (ordered'.value above) reads reads')

theorem Layered.tells_above (layered : Layered read lay) (ordered : (Json.object members).Ordered)
    (ordered' : (Json.object added).Ordered) {x z : Option α} (lower : Tells read (Entries.find? key members) x)
    (whole : Tells read (Entries.find? key (Json.overlayMembers members added)) z) :
    ∃ y, Tells read (Entries.find? key added) y := by
  rw [Json.find?_overlayMembers _ ordered'.entries] at whole
  cases above : Entries.find? key added with
  | none => exact ⟨none, .none⟩
  | some value' =>
    cases below : Entries.find? key members with
    | none =>
      rw [below, above] at whole
      exact ⟨z, by simpa using whole⟩
    | some value =>
      obtain ⟨x', reads⟩ := lower.exists_some below
      rw [below, above] at whole
      cases whole with
      | some reads' =>
        obtain ⟨y, upper⟩ := layered.above (ordered.value below) (ordered'.value above) reads reads'
        exact ⟨some y, .some upper⟩

/-! ## Dictionaries -/

theorem readDict_object (members : List (String × Json)) :
    readDict read (.object members) =
      (members.mapM fun (member : String × Json) => (read member.2).map (member.1, ·)).map Dict.ofList := by
  have entry : (fun (member : String × Json) => do return (member.1, ← read member.2)) =
      fun (member : String × Json) => (read member.2).map (member.1, ·) := by
    funext member
    cases read member.2 <;> rfl
  change (do return Dict.ofList (← members.mapM fun (member : String × Json) => do
    return (member.1, ← read member.2))) = _
  rw [entry]
  cases members.mapM fun (member : String × Json) => (read member.2).map (member.1, ·) <;> rfl

theorem exists_object_of_readDict {value : Json} {d : Dict α} (reads : readDict read value = .ok d) :
    ∃ members, value = .object members := by
  cases value with
  | object members => exact ⟨members, rfl⟩
  | _ => cases reads

theorem exists_readDict (all : ∀ member ∈ members, ∃ x, read member.2 = .ok x) :
    ∃ d, readDict read (.object members) = .ok d := by
  have each : ∀ member ∈ members, ∃ entry, (read member.2).map (member.1, ·) = .ok entry := by
    intro member mem
    obtain ⟨x, reads⟩ := all member mem
    exact ⟨(member.1, x), map_eq_ok_iff.mpr ⟨x, reads, rfl⟩⟩
  obtain ⟨entries, reads⟩ := exists_mapM_eq_ok each
  exact ⟨Dict.ofList entries, by rw [readDict_object, reads]; rfl⟩

theorem tells_of_readDict (ordered : Entries.Ordered members) {d : Dict α}
    (reads : readDict read (.object members) = .ok d) (key : String) :
    Tells read (Entries.find? key members) (d.get? key) := by
  rw [readDict_object] at reads
  obtain ⟨entries, all, rfl⟩ := map_eq_ok_iff.mp reads
  have related : List.Forall₂ (fun (member : String × Json) (entry : String × α) =>
      entry.1 = member.1 ∧ read member.2 = .ok entry.2) members entries := by
    refine List.Forall₂.imp (fun member entry here => ?_) (mapM_eq_ok_iff.mp all)
    obtain ⟨x, reads, rfl⟩ := map_eq_ok_iff.mp here
    exact ⟨rfl, reads⟩
  have keys : entries.map (·.1) = members.map (·.1) := by
    clear all reads ordered
    induction related with
    | nil => rfl
    | cons here _ ih => simp [here.1, ih]
  have ordered' : Entries.Ordered entries := by
    rw [Entries.ordered_iff_keys, keys]
    exact Entries.ordered_iff_keys.mp ordered
  rw [Dict.get?_ofList, Entries.find?_reverse ordered']
  clear all reads ordered ordered' keys
  induction related with
  | nil => exact .none
  | @cons member entry _ _ here _ ih =>
    obtain ⟨k, value⟩ := member
    obtain ⟨k', x⟩ := entry
    obtain ⟨rfl, reads⟩ := here
    by_cases same : k' = key
    · simp only [Entries.find?, same, if_true]
      exact .some reads
    · simpa [Entries.find?, same] using ih

/-- What is read from an object is what its members tell. -/
theorem readDict_eq_ok_iff (ordered : Entries.Ordered members) {d : Dict α} :
    readDict read (.object members) = .ok d ↔ ∀ key, Tells read (Entries.find? key members) (d.get? key) := by
  refine ⟨tells_of_readDict ordered, fun tells => ?_⟩
  obtain ⟨d', reads⟩ : ∃ d', readDict read (.object members) = .ok d' := by
    refine exists_readDict fun member mem => ?_
    exact (tells member.1).exists_some (Entries.find?_of_mem ordered mem)
  have same : d' = d := Dict.eq_of_get? fun key => (tells_of_readDict ordered reads key).unique (tells key)
  rw [reads, same]

/-- Dictionaries are laid over one another key by key. -/
theorem Layered.readDict (layered : Layered read lay) : Layered (readDict read) (Dict.mergeWith lay) where
  laid {below above x y} ordered ordered' lower upper := by
    obtain ⟨members, rfl⟩ := exists_object_of_readDict lower
    obtain ⟨added, rfl⟩ := exists_object_of_readDict upper
    rw [Json.overlay_object, readDict_eq_ok_iff (Json.ordered_overlayMembers ordered.entries)]
    intro key
    rw [Dict.get?_mergeWith]
    exact layered.tells ordered ordered' (tells_of_readDict ordered.entries lower key)
      (tells_of_readDict ordered'.entries upper key)
  above {below above x z} ordered ordered' lower whole := by
    obtain ⟨members, rfl⟩ := exists_object_of_readDict lower
    cases above with
    | object added =>
      rw [Json.overlay_object] at whole
      refine exists_readDict fun member mem => ?_
      obtain ⟨y, upper⟩ := layered.tells_above ordered ordered' (tells_of_readDict ordered.entries lower member.1)
        (tells_of_readDict (Json.ordered_overlayMembers ordered.entries) whole member.1)
      exact upper.exists_some (Entries.find?_of_mem ordered'.entries mem)
    | _ => exact ⟨z, whole⟩

end Layered

/-! ## Fields -/

/-- The optimizers that a layer leaves out, gives as a list of both values, or gives as an object of some of them. -/
inductive ReadsOptimizer : Option Json → Option Bool → Option Nat → Prop where
  | absent : ReadsOptimizer none none none
  | list {first second : Json} {enabled : Bool} {runs : Nat} (reads : readBool first = .ok enabled)
      (reads' : readRuns second = .ok runs) : ReadsOptimizer (some (.array [first, second])) (some enabled) (some runs)
  | object {members : List (String × Json)} {enabled : Option Bool} {runs : Option Nat}
      (tells : Tells readBool (Entries.find? "enabled" members) enabled)
      (tells' : Tells readRuns (Entries.find? "runs" members) runs) :
      ReadsOptimizer (some (.object members)) enabled runs

theorem ReadsOptimizer.unique {place : Option Json} {enabled enabled' : Option Bool} {runs runs' : Option Nat}
    (reads : ReadsOptimizer place enabled runs) (reads' : ReadsOptimizer place enabled' runs') :
    enabled = enabled' ∧ runs = runs' := by
  cases reads with
  | absent =>
    cases reads'
    exact ⟨rfl, rfl⟩
  | list enables runs =>
    cases reads' with
    | list enables' runs' =>
      rw [enables] at enables'
      rw [runs] at runs'
      cases enables'
      cases runs'
      exact ⟨rfl, rfl⟩
  | object enables runs =>
    cases reads' with
    | object enables' runs' => exact ⟨enables.unique enables', runs.unique runs'⟩

/-- The upper selection in the lower one, contract by contract of each file. -/
def laySelection : OutputSelection → OutputSelection → OutputSelection :=
  Dict.mergeWith (Dict.mergeWith fun _ outputs => outputs)

theorem layered_readTexts : Layered readTexts fun _ upper => upper := layered_of_leaf nofun

theorem layered_readOptionalText : Layered readOptionalText fun _ upper => upper := layered_of_leaf nofun

theorem layered_readBool : Layered readBool fun _ upper => upper := layered_of_leaf nofun

theorem layered_readRuns : Layered readRuns fun _ upper => upper := layered_of_leaf nofun

theorem layered_readSelection : Layered readSelection laySelection := layered_readTexts.readDict.readDict

theorem laySelection_assoc (x y z : OutputSelection) :
    laySelection (laySelection x y) z = laySelection x (laySelection y z) :=
  Dict.mergeWith_assoc (Dict.mergeWith_assoc fun _ _ _ => rfl) x y z

theorem merge_upper {x y : Option α} : x.merge (fun _ upper => upper) y = (y <|> x) := by
  cases x <;> cases y <;> rfl

theorem readRuns_lt {value : Json} {runs : Nat} (reads : readRuns value = .ok runs) : runs < runsLimit := by
  obtain ⟨n, -, below⟩ := bind_eq_ok_iff.mp reads
  split at below
  · next less => cases below; exact less
  · cases below

theorem readRuns_natural {runs : Nat} (small : runs < runsLimit) : readRuns (.integer runs) = .ok runs := by
  have natural : (Json.integer runs).natural? = some runs := by simp [Json.natural?]
  rw [readRuns, natural]
  exact if_pos small

theorem readField_eq_ok_iff {members : List (String × Json)} {name : String} {value : Json} :
    readField (.object members) name = .ok value ↔ Entries.find? name members = some value := by
  have there : (Json.object members).get? name = Entries.find? name members := rfl
  rw [readField, there]
  cases Entries.find? name members <;> simp

/-- An optimizer is read if both its values are there. -/
theorem readOptimizer_eq_ok_iff {value : Json} {optimizer : OptimizerSettings} :
    readOptimizer value = .ok optimizer ↔
      ReadsOptimizer (some value) (some optimizer.enabled) (some optimizer.runs) := by
  constructor
  · intro reads
    unfold readOptimizer at reads
    split at reads
    · obtain ⟨enabled, reads', reads⟩ := bind_eq_ok_iff.mp reads
      obtain ⟨runs, reads'', reads⟩ := bind_eq_ok_iff.mp reads
      cases reads
      exact .list reads' reads''
    · obtain ⟨first, found, reads⟩ := bind_eq_ok_iff.mp reads
      obtain ⟨enabled, reads', reads⟩ := bind_eq_ok_iff.mp reads
      obtain ⟨second, found', reads⟩ := bind_eq_ok_iff.mp reads
      obtain ⟨runs, reads'', reads⟩ := bind_eq_ok_iff.mp reads
      cases reads
      rw [readField_eq_ok_iff] at found found'
      refine .object ?_ ?_
      · rw [found]; exact .some reads'
      · rw [found']; exact .some reads''
    · cases reads
  · intro reads
    cases reads with
    | list reads reads' =>
      exact bind_eq_ok_iff.mpr ⟨_, reads, bind_eq_ok_iff.mpr ⟨_, reads', rfl⟩⟩
    | @object members _ _ tells tells' =>
      cases found : Entries.find? "enabled" members with
      | none => rw [found] at tells; cases tells
      | some first =>
        cases found' : Entries.find? "runs" members with
        | none => rw [found'] at tells'; cases tells'
        | some second =>
          rw [found] at tells
          rw [found'] at tells'
          cases tells with
          | some reads =>
            cases tells' with
            | some reads' =>
              exact bind_eq_ok_iff.mpr ⟨_, readField_eq_ok_iff.mpr found, bind_eq_ok_iff.mpr ⟨_, reads,
                bind_eq_ok_iff.mpr ⟨_, readField_eq_ok_iff.mpr found', bind_eq_ok_iff.mpr ⟨_, reads', rfl⟩⟩⟩⟩

/-! ## Changes -/

/-- The fields of settings that a layer gives, and the outputs that it adds to the selection. -/
structure Change where
  remappings : Option (List String)
  enabled : Option Bool
  runs : Option Nat
  evmVersion : Option (Option String)
  outputSelection : Option OutputSelection

namespace Change

variable {members added : List (String × Json)} {c d e : Change}

/-- What the members of a layer change. -/
structure ReadFrom (c : Change) (members : List (String × Json)) : Prop where
  remappings : Tells readTexts (Entries.find? "remappings" members) c.remappings
  optimizer : ReadsOptimizer (Entries.find? "optimizer" members) c.enabled c.runs
  evmVersion : Tells readOptionalText (Entries.find? "evmVersion" members) c.evmVersion
  outputSelection : Tells readSelection (Entries.find? "outputSelection" members) c.outputSelection

/-- One change and then another one. -/
def andThen (first second : Change) : Change where
  remappings := second.remappings <|> first.remappings
  enabled := second.enabled <|> first.enabled
  runs := second.runs <|> first.runs
  evmVersion := second.evmVersion <|> first.evmVersion
  outputSelection := first.outputSelection.merge laySelection second.outputSelection

/-- The change that a layer without members makes. -/
def nothing : Change := ⟨none, none, none, none, none⟩

/-- The selection with the outputs that are added. -/
def select (c : Change) (selection : OutputSelection) : OutputSelection :=
  c.outputSelection.elim selection (laySelection selection)

/-- The settings that a change makes of others. -/
def applyTo (c : Change) (s : CompilerSettings) : CompilerSettings where
  remappings := c.remappings.getD s.remappings
  optimizer := ⟨c.enabled.getD s.optimizer.enabled, c.runs.getD s.optimizer.runs⟩
  evmVersion := c.evmVersion.getD s.evmVersion
  outputSelection := c.select s.outputSelection

/-- Whether a change by itself gives settings. -/
structure Gives (c : Change) (s : CompilerSettings) : Prop where
  remappings : c.remappings.getD [] = s.remappings
  enabled : c.enabled = some s.optimizer.enabled
  runs : c.runs = some s.optimizer.runs
  evmVersion : c.evmVersion.getD none = s.evmVersion
  outputSelection : c.outputSelection = some s.outputSelection

/-- The change as which settings are written. -/
def ofSettings (s : CompilerSettings) : Change where
  remappings := if s.remappings.isEmpty then none else some s.remappings
  enabled := some s.optimizer.enabled
  runs := some s.optimizer.runs
  evmVersion := s.evmVersion.map some
  outputSelection := some s.outputSelection

theorem readFrom_nil : nothing.ReadFrom [] := ⟨.none, .absent, .none, .none⟩

theorem applyTo_nothing (s : CompilerSettings) : nothing.applyTo s = s := rfl

theorem applyTo_andThen (c d : Change) (s : CompilerSettings) : (c.andThen d).applyTo s = d.applyTo (c.applyTo s) := by
  obtain ⟨remappings, enabled, runs, evmVersion, selection⟩ := d
  simp only [applyTo, CompilerSettings.mk.injEq, OptimizerSettings.mk.injEq, andThen]
  refine ⟨?_, ⟨?_, ?_⟩, ?_, ?_⟩
  · cases remappings <;> rfl
  · cases enabled <;> rfl
  · cases runs <;> rfl
  · cases evmVersion <;> rfl
  · cases selection with
    | none => cases below : c.outputSelection <;> simp [select, below]
    | some upper =>
      cases below : c.outputSelection with
      | none => simp [select, below]
      | some lower => simp [select, below, laySelection_assoc]

theorem ReadFrom.unique (reads : c.ReadFrom members) (reads' : d.ReadFrom members) : c = d := by
  have remappings := reads.remappings.unique reads'.remappings
  have optimizer := reads.optimizer.unique reads'.optimizer
  have evmVersion := reads.evmVersion.unique reads'.evmVersion
  have selection := reads.outputSelection.unique reads'.outputSelection
  cases c
  cases d
  simp_all

theorem Gives.unique (gives : c.Gives s) (gives' : c.Gives t) : s = t := by
  obtain ⟨_, ⟨_, _⟩, _, _⟩ := s
  obtain ⟨_, ⟨_, _⟩, _, _⟩ := t
  simp only [CompilerSettings.mk.injEq, OptimizerSettings.mk.injEq]
  exact ⟨gives.remappings.symm.trans gives'.remappings,
    ⟨Option.some.inj (gives.enabled.symm.trans gives'.enabled), Option.some.inj (gives.runs.symm.trans gives'.runs)⟩,
    gives.evmVersion.symm.trans gives'.evmVersion,
    Option.some.inj (gives.outputSelection.symm.trans gives'.outputSelection)⟩

theorem gives_andThen (s : CompilerSettings) (c : Change) : ((ofSettings s).andThen c).Gives (c.applyTo s) where
  remappings := by
    cases here : c.remappings with
    | some remappings => simp [andThen, applyTo, here]
    | none => cases there : s.remappings <;> simp [andThen, applyTo, ofSettings, here, there]
  enabled := by cases here : c.enabled <;> simp [andThen, applyTo, ofSettings, here]
  runs := by cases here : c.runs <;> simp [andThen, applyTo, ofSettings, here]
  evmVersion := by
    cases here : c.evmVersion with
    | some version => simp [andThen, applyTo, here]
    | none => cases there : s.evmVersion <;> simp [andThen, applyTo, ofSettings, here, there]
  outputSelection := by cases here : c.outputSelection <;> simp [andThen, applyTo, ofSettings, select, here]

end Change

/-! ## Reading settings -/

/-- What is read where something stands. -/
def readOr (read : Json → Except String α) (fallback : α) : Option Json → Except String α
  | some found => read found
  | none => .ok fallback

theorem readOr_eq_ok_iff {read : Json → Except String α} {fallback x : α} {place : Option Json} :
    readOr read fallback place = .ok x ↔ ∃ y, Tells read place y ∧ y.getD fallback = x := by
  cases place with
  | none =>
    constructor
    · intro same
      cases same
      exact ⟨none, .none, rfl⟩
    · rintro ⟨y, tells, rfl⟩
      cases tells
      rfl
  | some value =>
    constructor
    · exact fun reads => ⟨some x, .some reads, rfl⟩
    · rintro ⟨y, tells, rfl⟩
      cases tells with
      | some reads => exact reads

section Object

variable {members added : List (String × Json)}

theorem ofJson_object (members : List (String × Json)) :
    ofJson (.object members) = (do
      let remappings ← readOr readTexts [] (Entries.find? "remappings" members)
      let evmVersion ← readOr readOptionalText none (Entries.find? "evmVersion" members)
      let optimizer ← readField (.object members) "optimizer" >>= readOptimizer
      let outputSelection ← readField (.object members) "outputSelection" >>= readSelection
      return ⟨remappings, optimizer, evmVersion, outputSelection⟩) := by
  simp only [ofJson, Json.get?, readOr, bind_assoc]
  cases Entries.find? "remappings" members <;> cases Entries.find? "evmVersion" members <;> rfl

/-- Settings are read from an object if its members by themselves give settings. -/
theorem ofJson_object_eq_ok_iff : ofJson (.object members) = .ok s ↔ ∃ c : Change, c.ReadFrom members ∧ c.Gives s := by
  simp only [ofJson_object, bind_eq_ok_iff, readOr_eq_ok_iff, readField_eq_ok_iff, readOptimizer_eq_ok_iff]
  constructor
  · rintro ⟨_, ⟨remappings, tells, rfl⟩, _, ⟨evmVersion, tells', rfl⟩, optimizer, ⟨value, found, reads⟩,
      selection, ⟨value', found', reads'⟩, same⟩
    cases same
    exact ⟨⟨remappings, some optimizer.enabled, some optimizer.runs, evmVersion, some selection⟩,
      ⟨tells, found ▸ reads, tells', found' ▸ .some reads'⟩, rfl, rfl, rfl, rfl, rfl⟩
  · rintro ⟨c, reads, gives⟩
    refine ⟨s.remappings, ⟨_, reads.remappings, gives.remappings⟩, s.evmVersion, ⟨_, reads.evmVersion, gives.evmVersion⟩,
      s.optimizer, ?_, s.outputSelection, ?_, rfl⟩
    · have optimizer := reads.optimizer
      rw [gives.enabled, gives.runs] at optimizer
      cases found : Entries.find? "optimizer" members with
      | none => rw [found] at optimizer; cases optimizer
      | some value => exact ⟨value, rfl, found ▸ optimizer⟩
    · have selection := reads.outputSelection
      rw [gives.outputSelection] at selection
      cases found : Entries.find? "outputSelection" members with
      | none => rw [found] at selection; cases selection
      | some value =>
        rw [found] at selection
        cases selection with
        | some reads => exact ⟨value, rfl, reads⟩

/-! ## Settings as members -/

theorem readTexts_canonical (texts : List String) : readTexts (Json.array (texts.map .string)).canonical = .ok texts := by
  have same : (Json.array (texts.map .string)).canonical = .array (texts.map .string) := by
    rw [Json.canonical, Json.canonicalItems_eq_map, List.map_map]
    rfl
  rw [same]
  change (texts.map Json.string).mapM (fun item => expect "a text" item.text?) = .ok texts
  rw [mapM_eq_ok_iff, List.forall₂_map_left_iff]
  exact List.forall₂_same.mpr fun _ _ => rfl

theorem readDict_canonical {read : Json → Except String α} {write : α → Json}
    (again : ∀ x, read (write x).canonical = .ok x) (d : Dict α) :
    readDict read (Json.ofDict (d.mapValues write)).canonical = .ok d := by
  rw [Json.ofDict, Json.canonical_object, readDict_eq_ok_iff (Entries.ordered_sort _)]
  intro key
  have found : Entries.find? key (d.mapValues write).entries = (d.get? key).map write := Dict.get?_mapValues write d key
  rw [Json.find?_canonical, Entries.find?_reverse (d.mapValues write).ordered, found]
  cases d.get? key with
  | none => exact .none
  | some x => exact .some (again x)

theorem readSelection_canonical (selection : OutputSelection) : readSelection (selectionJson selection).canonical = .ok selection :=
  readDict_canonical (readDict_canonical readTexts_canonical) selection

/-- The members as which settings are written. -/
theorem exists_members_toJson (s : CompilerSettings) :
    ∃ members, s.toJson = .object members ∧
      Entries.find? "remappings" members.reverse =
        (if s.remappings.isEmpty then none else some (.array (s.remappings.map .string))) ∧
      Entries.find? "optimizer" members.reverse = some (optimizerJson s.optimizer) ∧
      Entries.find? "evmVersion" members.reverse = s.evmVersion.map .string ∧
      Entries.find? "outputSelection" members.reverse = some (selectionJson s.outputSelection) := by
  obtain ⟨remappings, optimizer, evmVersion, selection⟩ := s
  refine ⟨_, rfl, ?_⟩
  cases remappings <;> cases evmVersion <;> simp [Entries.find?]

theorem readsOptimizer_canonical {optimizer : OptimizerSettings} (small : optimizer.runs < runsLimit) :
    ∃ both, (optimizerJson optimizer).canonical = .object both ∧
      ReadsOptimizer (some (.object both)) (some optimizer.enabled) (some optimizer.runs) := by
  refine ⟨_, Json.canonical_object _, .object ?_ ?_⟩ <;> rw [Json.find?_canonical]
  · simpa [Entries.find?] using .some rfl
  · simpa [Entries.find?] using .some (readRuns_natural small)

/-- Settings are written as members that give them again. -/
theorem readFrom_toJson (small : s.optimizer.runs < runsLimit) :
    ∃ members, s.toJson.canonical = .object members ∧ (Change.ofSettings s).ReadFrom members ∧
      ∃ both, Entries.find? "optimizer" members = some (.object both) := by
  obtain ⟨members, written, remappings, optimizer, evmVersion, selection⟩ := exists_members_toJson s
  obtain ⟨both, canonical, reads⟩ := readsOptimizer_canonical small
  refine ⟨_, by rw [written, Json.canonical_object], ⟨?_, ?_, ?_, ?_⟩, both, ?_⟩ <;> rw [Json.find?_canonical]
  · simp only [remappings, Change.ofSettings]
    cases s.remappings with
    | nil => exact .none
    | cons first rest => exact .some (readTexts_canonical (first :: rest))
  · rw [optimizer, Option.map_some, canonical]
    exact reads
  · simp only [evmVersion, Change.ofSettings]
    cases s.evmVersion with
    | none => exact .none
    | some version => exact .some rfl
  · rw [selection]
    exact .some (readSelection_canonical s.outputSelection)
  · rw [optimizer, Option.map_some, canonical]

/-! ## Merged layers -/

/-- Whether merging loses the optimizer of the lower layer: a list of its values, where an object of some of them comes. -/
def losesOptimizer (members added : List (String × Json)) : Bool :=
  (Entries.find? "optimizer" members).any (·.members?.isNone) && (Entries.find? "optimizer" added).any (·.members?.isSome)

theorem ReadsOptimizer.laid (ordered : (Json.object members).Ordered) (ordered' : (Json.object added).Ordered)
    (kept : losesOptimizer members added = false) {enabled enabled' : Option Bool} {runs runs' : Option Nat}
    (lower : ReadsOptimizer (Entries.find? "optimizer" members) enabled runs)
    (upper : ReadsOptimizer (Entries.find? "optimizer" added) enabled' runs') :
    ReadsOptimizer (Entries.find? "optimizer" (Json.overlayMembers members added)) (enabled' <|> enabled) (runs' <|> runs) := by
  rw [Json.find?_overlayMembers _ ordered'.entries]
  generalize below : Entries.find? "optimizer" members = place at lower
  generalize above : Entries.find? "optimizer" added = place' at upper
  cases upper with
  | absent => simpa using lower
  | list reads reads' =>
    cases lower with
    | absent => exact .list reads reads'
    | list => exact .list reads reads'
    | object => exact .list reads reads'
  | object enables runs =>
    cases lower with
    | absent => simpa using ReadsOptimizer.object enables runs
    | list => simp [losesOptimizer, below, above, Json.members?] at kept
    | object enables' runs' =>
      rw [Option.merge_some_some, Json.overlay_object, ← merge_upper, ← merge_upper]
      exact .object (layered_readBool.tells (ordered.value below) (ordered'.value above) enables' enables)
        (layered_readRuns.tells (ordered.value below) (ordered'.value above) runs' runs)

theorem ReadsOptimizer.above (ordered : (Json.object members).Ordered) (ordered' : (Json.object added).Ordered)
    {enabled enabled' : Option Bool} {runs runs' : Option Nat}
    (lower : ReadsOptimizer (Entries.find? "optimizer" members) enabled runs)
    (whole : ReadsOptimizer (Entries.find? "optimizer" (Json.overlayMembers members added)) enabled' runs') :
    ∃ enabled runs, ReadsOptimizer (Entries.find? "optimizer" added) enabled runs := by
  rw [Json.find?_overlayMembers _ ordered'.entries] at whole
  cases above : Entries.find? "optimizer" added with
  | none => exact ⟨_, _, .absent⟩
  | some value =>
    generalize below : Entries.find? "optimizer" members = place at lower whole
    rw [above] at whole
    cases lower with
    | absent => exact ⟨_, _, by simpa using whole⟩
    | list =>
      rw [Option.merge_some_some, Json.overlay_of_leaf rfl] at whole
      exact ⟨_, _, whole⟩
    | @object both _ _ enables runs =>
      rw [Option.merge_some_some] at whole
      cases value with
      | object both' =>
        rw [Json.overlay_object] at whole
        cases whole with
        | object enables' runs' =>
          obtain ⟨enabled, enables⟩ := layered_readBool.tells_above (ordered.value below) (ordered'.value above) enables enables'
          obtain ⟨count, runs⟩ := layered_readRuns.tells_above (ordered.value below) (ordered'.value above) runs runs'
          exact ⟨enabled, count, .object enables runs⟩
      | _ => exact ⟨_, _, whole⟩

namespace Change

variable {c d e : Change}

/-- Merged layers make their changes one after the other. -/
theorem ReadFrom.laid (ordered : (Json.object members).Ordered) (ordered' : (Json.object added).Ordered)
    (kept : losesOptimizer members added = false) (lower : c.ReadFrom members) (upper : d.ReadFrom added) :
    (c.andThen d).ReadFrom (Json.overlayMembers members added) where
  remappings := by
    rw [andThen, ← merge_upper]
    exact layered_readTexts.tells ordered ordered' lower.remappings upper.remappings
  optimizer := lower.optimizer.laid ordered ordered' kept upper.optimizer
  evmVersion := by
    rw [andThen, ← merge_upper (y := d.evmVersion)]
    exact layered_readOptionalText.tells ordered ordered' lower.evmVersion upper.evmVersion
  outputSelection := layered_readSelection.tells ordered ordered' lower.outputSelection upper.outputSelection

theorem ReadFrom.above (ordered : (Json.object members).Ordered) (ordered' : (Json.object added).Ordered)
    (lower : c.ReadFrom members) (whole : e.ReadFrom (Json.overlayMembers members added)) : ∃ d : Change, d.ReadFrom added := by
  obtain ⟨remappings, tells⟩ := layered_readTexts.tells_above ordered ordered' lower.remappings whole.remappings
  obtain ⟨enabled, runs, optimizer⟩ := lower.optimizer.above ordered ordered' whole.optimizer
  obtain ⟨evmVersion, tells'⟩ := layered_readOptionalText.tells_above ordered ordered' lower.evmVersion whole.evmVersion
  obtain ⟨selection, tells''⟩ := layered_readSelection.tells_above ordered ordered' lower.outputSelection whole.outputSelection
  exact ⟨⟨remappings, enabled, runs, evmVersion, selection⟩, tells, optimizer, tells', tells''⟩

end Change

/-! ## Layers over settings -/

/-- The settings with a value laid over them, and with the selection as it comes out. -/
def laid (s : CompilerSettings) (above : Json) : Except String CompilerSettings := ofJson (s.toJson.canonical.overlay above)

/-- The selection that is used in place of another one. -/
def repaired (selection : OutputSelection) : OutputSelection :=
  if asksForNothing selection then defaultSelection else selection

theorem sanitized_eq (s : CompilerSettings) : s.sanitized = { s with outputSelection := repaired s.outputSelection } := by
  unfold sanitized repaired
  split <;> rfl

theorem overlay_eq_ok_iff {above : Json} : s.overlay above = .ok t ↔ ∃ merged, s.laid above = .ok merged ∧ merged.sanitized = t := by
  unfold overlay laid
  split
  · next merged reads => simp [reads]
  · next reason reads => simp [reads]

/-- An object laid over settings makes its change. -/
theorem laid_object_eq_ok_iff (small : s.optimizer.runs < runsLimit) (ordered : (Json.object added).Ordered) :
    s.laid (.object added) = .ok t ↔ ∃ c : Change, c.ReadFrom added ∧ c.applyTo s = t := by
  obtain ⟨members, written, reads, both, found⟩ := readFrom_toJson small
  have ordered' : (Json.object members).Ordered := written ▸ Json.ordered_canonical s.toJson
  have kept : losesOptimizer members added = false := by simp [losesOptimizer, found, Json.members?]
  have makes {c : Change} (reads' : c.ReadFrom added) : s.laid (.object added) = .ok (c.applyTo s) := by
    rw [laid, written, Json.overlay_object, ofJson_object_eq_ok_iff]
    exact ⟨_, reads.laid ordered' ordered kept reads', Change.gives_andThen s c⟩
  constructor
  · intro works
    have works' := works
    rw [laid, written, Json.overlay_object, ofJson_object_eq_ok_iff] at works'
    obtain ⟨e, whole, -⟩ := works'
    obtain ⟨c, upper⟩ := reads.above ordered' ordered whole
    rw [makes upper] at works
    exact ⟨c, upper, Except.ok.inj works⟩
  · rintro ⟨c, reads', rfl⟩
    exact makes reads'

/-! ## What merging keeps -/

/-- What merging keeps of a lower layer, unless it is given again: nothing if one of the layers is no object, and not
its optimizer if that is lost. -/
def kept (below above : Json) : Json :=
  match below, above with
  | .object members, .object added =>
    if losesOptimizer members added then (Json.object members).erase "optimizer" else .object members
  | _, _ => .emptyObject

theorem kept_object (members added : List (String × Json)) : kept (.object members) (.object added) =
    if losesOptimizer members added then (Json.object members).erase "optimizer" else .object members := rfl

/-- What is not kept makes no difference to merging. -/
theorem kept_overlay {below above : Json} (ordered : below.Ordered) (ordered' : above.Ordered) :
    (kept below above).overlay above = below.overlay above := by
  cases above with
  | object added =>
    cases below with
    | object members =>
      rw [kept_object]
      split
      · next loses =>
        simp only [losesOptimizer, Bool.and_eq_true, Option.any_eq_true] at loses
        obtain ⟨⟨value, found, leaf⟩, value', found', -⟩ := loses
        have order : Entries.Ordered (members.filter fun member => member.1 ≠ "optimizer") :=
          List.Pairwise.filter _ ordered.entries
        refine congrArg Json.object (Entries.eq_of_find? (Json.ordered_overlayMembers order)
          (Json.ordered_overlayMembers ordered.entries) fun key => ?_)
        rw [Json.find?_overlayMembers _ ordered'.entries, Json.find?_overlayMembers _ ordered'.entries, Entries.find?_erase]
        split
        · next same =>
          rw [same, found, found', Option.merge_none_left, Option.merge_some_some, Json.overlay_of_leaf (by simpa using leaf)]
        · rfl
      · rfl
    | _ => exact (Json.overlay_emptyObject ordered').trans (Json.overlay_of_leaf rfl _).symm
  | _ => rfl

/-- What is kept are the members of a layer below which no optimizer is lost. -/
theorem exists_kept {below : Json} (ordered : below.Ordered) (small : s.optimizer.runs < runsLimit)
    (works : s.laid below = .ok t) (added : List (String × Json)) :
    ∃ members, kept below (.object added) = .object members ∧ (Json.object members).Ordered ∧
      losesOptimizer members added = false ∧ ∃ c : Change, c.ReadFrom members := by
  have nothing : ∃ members, Json.emptyObject = .object members ∧ (Json.object members).Ordered ∧
      losesOptimizer members added = false ∧ ∃ c : Change, c.ReadFrom members :=
    ⟨[], rfl, .object List.Pairwise.nil nofun, rfl, .nothing, Change.readFrom_nil⟩
  cases below with
  | object members =>
    obtain ⟨c, reads, -⟩ := (laid_object_eq_ok_iff small ordered).mp works
    rw [kept_object]
    split
    · refine ⟨_, rfl, ordered.erase "optimizer", ?_, { c with enabled := none, runs := none }, ?_⟩
      · rw [losesOptimizer, Entries.find?_erase]
        rfl
      · constructor <;> rw [Entries.find?_erase]
        · exact reads.remappings
        · exact .absent
        · exact reads.evmVersion
        · exact reads.outputSelection
    · next keeps => exact ⟨members, rfl, ordered, Bool.not_eq_true _ ▸ keeps, c, reads⟩
  | _ => exact nothing

end Object

/-! ## One layer after the other -/

/-- The settings that come of the default ones by layers. -/
inductive Reachable : CompilerSettings → Prop where
  | default : Reachable default
  | overlay {s t : CompilerSettings} {above : Json} (reachable : Reachable s) (works : s.overlay above = .ok t) : Reachable t

theorem ReadsOptimizer.runs_lt {place : Option Json} {enabled : Option Bool} {runs : Nat}
    (reads : ReadsOptimizer place enabled (some runs)) : runs < runsLimit := by
  cases reads with
  | list _ reads => exact readRuns_lt reads
  | @object members _ _ _ tells =>
    generalize Entries.find? "runs" members = place at tells
    cases tells with
    | some reads => exact readRuns_lt reads

theorem runs_lt_of_ofJson {value : Json} (reads : ofJson value = .ok s) : s.optimizer.runs < runsLimit := by
  cases value with
  | object members =>
    obtain ⟨c, reads, gives⟩ := ofJson_object_eq_ok_iff.mp reads
    exact (gives.runs ▸ reads.optimizer).runs_lt
  | array items =>
    unfold ofJson at reads
    split at reads
    · obtain ⟨remappings, -, reads⟩ := bind_eq_ok_iff.mp reads
      obtain ⟨optimizer, reads', reads⟩ := bind_eq_ok_iff.mp reads
      obtain ⟨evmVersion, -, reads⟩ := bind_eq_ok_iff.mp reads
      obtain ⟨selection, -, reads⟩ := bind_eq_ok_iff.mp reads
      cases reads
      exact (readOptimizer_eq_ok_iff.mp reads').runs_lt
    · next same => cases same
    · cases reads
  | _ => cases reads

theorem Reachable.runs_lt (reachable : Reachable s) : s.optimizer.runs < runsLimit := by
  cases reachable with
  | default => decide
  | overlay reachable works =>
    obtain ⟨merged, reads, rfl⟩ := overlay_eq_ok_iff.mp works
    have small : merged.optimizer.runs < runsLimit := runs_lt_of_ofJson reads
    rw [sanitized_eq]
    exact small

/-- Whether settings differ at most in what a change gives, once a selection that asks for nothing is replaced. -/
structure Change.Hides (c : Change) (s t : CompilerSettings) : Prop where
  remappings : c.remappings = none → s.remappings = t.remappings
  enabled : c.enabled = none → s.optimizer.enabled = t.optimizer.enabled
  runs : c.runs = none → s.optimizer.runs = t.optimizer.runs
  evmVersion : c.evmVersion = none → s.evmVersion = t.evmVersion
  outputSelection : repaired (c.select s.outputSelection) = repaired (c.select t.outputSelection)

theorem Change.sanitized_applyTo_eq_iff {c : Change} : (c.applyTo s).sanitized = (c.applyTo t).sanitized ↔ c.Hides s t := by
  have given {β : Type} {place : Option β} {x y : β} : place.getD x = place.getD y ↔ (place = none → x = y) := by
    cases place <;> simp
  simp only [sanitized_eq, applyTo, CompilerSettings.mk.injEq, OptimizerSettings.mk.injEq, given]
  exact ⟨fun ⟨remappings, ⟨enabled, runs⟩, evmVersion, selection⟩ => ⟨remappings, enabled, runs, evmVersion, selection⟩,
    fun hides => ⟨hides.remappings, ⟨hides.enabled, hides.runs⟩, hides.evmVersion, hides.outputSelection⟩⟩

theorem laid_emptyObject (small : s.optimizer.runs < runsLimit) : s.laid .emptyObject = .ok s :=
  (laid_object_eq_ok_iff small (.object List.Pairwise.nil nofun)).mpr ⟨_, Change.readFrom_nil, Change.applyTo_nothing s⟩

theorem kept_leaf (below : Json) {above : Json} (leaf : above.members? = none) : kept below above = .emptyObject := by
  cases above with
  | object added => cases leaf
  | _ => cases below <;> rfl

/-- Two layers merged first, and the same layers one after the other. Merging is the same as the upper layer over
settings `g` that have what it keeps of the lower layer, and the upper layer by itself comes over `t`. So the outcomes
`v` and `u` agree if the upper layer is no object, or gives all fields in which `g` and `t` differ. That is the case if
merging keeps the whole lower layer and the selection asks for something after it. A layer merged with itself is that
layer, so it leaves `t`. -/
theorem overlay_overlay {a b : Json} {u : CompilerSettings} (reachable : Reachable s) (ordered : a.Ordered)
    (ordered' : b.Ordered) (first : s.overlay a = .ok t) (second : t.overlay b = .ok u) :
    ∃ g v, s.laid (kept a b) = .ok g ∧ s.overlay (a.overlay b) = .ok v ∧
      (v = u ↔ b.members? = none ∨ ∃ added c, b = .object added ∧ Change.ReadFrom c added ∧ c.Hides g t) ∧
      (kept a b = a → asksForNothing g.outputSelection = false → v = u) ∧
      (a = b → v = t) := by
  have small := reachable.runs_lt
  have small' := (reachable.overlay first).runs_lt
  have once : a = b → s.overlay (a.overlay b) = .ok t := by
    rintro rfl
    rw [Json.overlay_self ordered, first]
  cases leaf : b.members? with
  | none =>
    -- the upper layer decides alone
    have whole : s.overlay (a.overlay b) = .ok u := by
      rw [Json.overlay_leaf _ leaf, ← second, overlay, overlay, Json.overlay_leaf _ leaf, Json.overlay_leaf _ leaf]
    refine ⟨s, u, by rw [kept_leaf a leaf, laid_emptyObject small], whole, by simp, fun _ _ => rfl, fun same => ?_⟩
    have again := once same
    rw [whole] at again
    exact Except.ok.inj again
  | some added =>
    obtain rfl : b = .object added := by
      cases b with
      | object members => cases leaf; rfl
      | _ => cases leaf
    obtain ⟨m, below, rfl⟩ := overlay_eq_ok_iff.mp first
    obtain ⟨n, above, rfl⟩ := overlay_eq_ok_iff.mp second
    obtain ⟨members, keeps, order, whole, c, reads⟩ := exists_kept ordered small below added
    obtain ⟨d, reads', rfl⟩ := (laid_object_eq_ok_iff small' ordered').mp above
    have makes : s.laid (kept a (.object added)) = .ok (c.applyTo s) := by
      rw [keeps]
      exact (laid_object_eq_ok_iff small order).mpr ⟨c, reads, rfl⟩
    have merged : s.overlay (a.overlay (.object added)) = .ok (d.applyTo (c.applyTo s)).sanitized := by
      refine overlay_eq_ok_iff.mpr ⟨_, ?_, rfl⟩
      rw [← kept_overlay ordered ordered', keeps, Json.overlay_object, ← Change.applyTo_andThen]
      exact (laid_object_eq_ok_iff small (order.overlay ordered')).mpr ⟨_, reads.laid order ordered' whole reads', rfl⟩
    refine ⟨_, _, makes, merged, ?_, ?_, ?_⟩
    · rw [Change.sanitized_applyTo_eq_iff]
      constructor
      · exact fun hides => .inr ⟨added, d, rfl, reads', hides⟩
      · rintro (leaf | ⟨_, d', same, reads'', hides⟩)
        · cases leaf
        · cases same
          rwa [reads'.unique reads'']
    · intro unchanged asks
      rw [unchanged, below] at makes
      cases makes
      have stays : (c.applyTo s).sanitized = c.applyTo s := by rw [sanitized, asks, if_neg Bool.false_ne_true]
      rw [stays]
    · intro same
      rw [once same] at merged
      exact (Except.ok.inj merged).symm

namespace Layers

/-- A layer that gives one field. -/
def field (name : String) (value : Json) : Json := .object [(name, value)]

/-- A layer that gives the outputs of all contracts of a file. -/
def outputs (file output : String) : Json :=
  field "outputSelection" (field file (field "*" (.array [.string output])))

/-- A layer that gives all settings as a list. -/
def list : Json :=
  .array [.array [], .array [.bool false, .integer 1], .null, field "*" (field "*" (.array [.string "abi"]))]

/-- A layer that asks for nothing, but for two files. -/
def blanks : Json :=
  field "outputSelection" (.object [("*", field "*" (.array [.string ""])), ("A.sol", field "*" (.array [.string "abi"]))])

/-- Whether two layers can be laid over settings one after the other, and merging them first leaves something else. -/
def apart (s : CompilerSettings) (a b : Json) : Bool :=
  match s.overlay a >>= (·.overlay b), s.overlay (a.overlay b) with
  | .ok u, .ok v => u ≠ v
  | _, _ => false

end Layers

/-- Layers that merging mixes up: a list of settings below an object, a list of the optimizer's values below an object
of one of them, and outputs that are asked for after a layer that asks for nothing; and a layer that comes twice and
asks for nothing in the only file that is asked for. -/
theorem overlay_merged_ne :
    Layers.apart default Layers.list .emptyObject = true ∧
    Layers.apart default (Layers.field "optimizer" (.array [.bool false, .integer 1]))
      (Layers.field "optimizer" (Layers.field "enabled" (.bool true))) = true ∧
    Layers.apart default (Layers.outputs "*" "") (Layers.outputs "A.sol" "abi") = true ∧
    ∃ s, Reachable s ∧ Layers.apart s (Layers.outputs "A.sol" "") (Layers.outputs "A.sol" "") = true := by
  refine ⟨by decide +kernel, by decide +kernel, by decide +kernel, ?_⟩
  exact ⟨_, .overlay .default (eq_ok_of_isSome (show (default.overlay Layers.blanks).toOption.isSome = true by decide +kernel)),
    by decide +kernel⟩

/-- A number of runs and then a version, over the default settings. -/
theorem overlay_overlay_runs_version :
    let a := Layers.field "optimizer" (Layers.field "runs" (.integer 500))
    let b := Layers.field "evmVersion" (.string "paris")
    ∃ t u, default.overlay a = .ok t ∧ t.overlay b = .ok u ∧ default.overlay (a.overlay b) = .ok u ∧
      u.optimizer.runs = 500 ∧ u.evmVersion = some "paris" := by
  intro a b
  have first : default.overlay a = .ok _ := eq_ok_of_isSome (by decide +kernel)
  have second : ((default.overlay a).toOption.get (by decide +kernel)).overlay b = .ok _ :=
    eq_ok_of_isSome (by decide +kernel)
  obtain ⟨g, v, laid, merged, -, same, -⟩ :=
    overlay_overlay .default (Json.ordered_canonical a) (Json.ordered_canonical b) first second
  have asks : (default.laid a).toOption.any (fun g => asksForNothing g.outputSelection) = false := by decide +kernel
  have laid' : default.laid a = .ok g := laid
  rw [laid'] at asks
  refine ⟨_, _, first, second, same rfl asks ▸ merged, ?_, ?_⟩
  · decide +kernel
  · decide +kernel

end SolidityBuild.CompilerSettings
