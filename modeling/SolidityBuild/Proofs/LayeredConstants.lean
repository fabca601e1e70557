import SolidityBuild.Configuration
import SolidityBuild.Proofs.Dictionary
import SolidityBuild.Proofs.Results
import Mathlib.Data.List.Induction

/-!
# Constants in layers of options

The objects of constants of all layers are laid over each other, and so are the keys that have no other meaning;
only then are the two combined. So a constant has the value that the last layer with an object for it gives
(`get?_constants_ofLayers`), even where a later layer has it as a key of its own. Where no layer has an object for
it, the last layer with such a key decides, and if the value there is a list or an object there is no constant.
-/

namespace SolidityBuild

namespace Options

/-- The options that layers make, each later one over those before it. -/
def ofLayers (layers : List Options) : Options := layers.foldl mergedWith empty

/-- The value of a constant in the object of constants. -/
def named? (layer : Options) (name : String) : Option Json := layer.constants.bind (·.get? name)

/-- The value of a constant that is given as a key of its own. -/
def loose? (layer : Options) (name : String) : Option Json := layer.extra.get? name

/-- The value that a layer by itself gives a constant. -/
def given? (layer : Options) (name : String) : Option Json :=
  layer.named? name <|> (layer.loose? name).filter Configuration.isScalar

/-- What the last of the layers that have something says. -/
def lastOf (read : Options → Option Json) (layers : List Options) : Option Json := (layers.filterMap read).getLast?

/-! ## Layers -/

theorem lastOf_concat (read : Options → Option Json) (layers : List Options) (layer : Options) :
    lastOf read (layers ++ [layer]) = (read layer <|> lastOf read layers) := by
  unfold lastOf
  rw [List.filterMap_append]
  cases found : read layer with
  | none => simp [found]
  | some value => simp [found]

theorem ofLayers_concat (layers : List Options) (layer : Options) :
    ofLayers (layers ++ [layer]) = (ofLayers layers).mergedWith layer := by
  rw [ofLayers, List.foldl_append]
  rfl

theorem named?_mergedWith (options above : Options) (name : String) :
    (options.mergedWith above).named? name = (above.named? name <|> options.named? name) := by
  have constants : (options.mergedWith above).constants = combine Dict.union options.constants above.constants := rfl
  unfold named?
  rw [constants]
  cases options.constants with
  | none => cases above.constants <;> simp [combine]
  | some below =>
    cases above.constants with
    | none => simp [combine]
    | some upper => exact Dict.get?_union below upper name

theorem loose?_mergedWith (options above : Options) (name : String) :
    (options.mergedWith above).loose? name = (above.loose? name <|> options.loose? name) :=
  Dict.get?_union options.extra above.extra name

theorem named?_ofLayers (layers : List Options) (name : String) :
    (ofLayers layers).named? name = lastOf (·.named? name) layers := by
  induction layers using List.reverseRecOn with
  | nil => rfl
  | append_singleton layers layer ih => rw [ofLayers_concat, named?_mergedWith, ih, lastOf_concat]

theorem loose?_ofLayers (layers : List Options) (name : String) :
    (ofLayers layers).loose? name = lastOf (·.loose? name) layers := by
  induction layers using List.reverseRecOn with
  | nil => rfl
  | append_singleton layers layer ih => rw [ofLayers_concat, loose?_mergedWith, ih, lastOf_concat]

end Options

namespace Configuration

/-! ## Constants -/

/-- The options decide over a constant if they give it. -/
theorem get?_chosenConstants (config : Configuration) (options : Options) (name : String) :
    (config.chosenConstants options).get? name = ((options.given? name).map constantText <|> config.constants.get? name) := by
  have keys : Entries.find? name (options.extra.toList.filter fun entry => isScalar entry.2).reverse =
      (options.loose? name).filter isScalar := by
    have ordered : Entries.Ordered (options.extra.toList.filter fun entry => isScalar entry.2) :=
      List.Pairwise.filter _ options.extra.ordered
    rw [Entries.find?_reverse ordered]
    exact Entries.find?_filter options.extra.ordered isScalar name
  have put (entries : List (String × Json)) :
      entries.foldl (fun constants entry => constants.insert entry.1 (constantText entry.2)) config.constants =
        (entries.map fun entry => (entry.1, constantText entry.2)).foldl
          (fun constants entry => constants.insert entry.1 entry.2) config.constants := by
    rw [List.foldl_map]
  unfold chosenConstants
  rw [put, Dict.get?_foldl_insert, ← List.map_reverse, Entries.find?_map, List.reverse_append, Entries.find?_append, keys]
  unfold Options.given? Options.named?
  cases options.constants with
  | none => rfl
  | some constants =>
    have named : Entries.find? name constants.toList.reverse = constants.get? name :=
      Entries.find?_reverse constants.ordered name
    dsimp only [Option.bind_some]
    rw [named]

theorem constants_mergeOptions {tree : FileTree} {config merged : Configuration} {options : Options}
    (works : mergeOptions tree config options = .ok merged) : merged.constants = config.chosenConstants options := by
  obtain ⟨inputs, _, works⟩ := bind_eq_ok_iff.mp works
  obtain ⟨version, _, works⟩ := bind_eq_ok_iff.mp works
  obtain ⟨settings, _, works⟩ := bind_eq_ok_iff.mp works
  cases works
  rfl

/-- A constant has the value that the last layer with an object for it gives; if there is none, the value of the last
layer in which it is a key of its own, provided it is neither a list nor an object. Otherwise there is no constant. -/
theorem get?_constants_ofLayers {tree : FileTree} {base : Path} {layers : List Options} {config : Configuration}
    (works : mergeOptions tree (withBase tree base) (Options.ofLayers layers) = .ok config) (name : String) :
    config.constants.get? name =
      (Options.lastOf (·.named? name) layers <|> (Options.lastOf (·.loose? name) layers).filter isScalar).map constantText := by
  have bare : (withBase tree base).constants.get? name = none := rfl
  rw [constants_mergeOptions works, get?_chosenConstants, bare, Options.given?, Options.named?_ofLayers,
    Options.loose?_ofLayers, Option.orElse_eq_orElse]
  simp

namespace Layers

/-- The directory of a project in an empty tree. -/
def base : Path := .ofText "/p"

/-- A layer with an object of constants. -/
def object (value : Json) : Options := { Options.empty with constants := some (Dict.ofList [("A", value)]) }

/-- A layer with a key of its own. -/
def key (value : Json) : Options := { Options.empty with extra := Dict.ofList [("A", value)] }

/-- The constant that layers make. -/
def made (layers : List Options) : Option (Option String) :=
  (mergeOptions .empty (withBase .empty base) (Options.ofLayers layers)).toOption.map (·.constants.get? "A")

/-- The constant that the last layer makes which gives it a value by itself. -/
def lastGiven (layers : List Options) : Option String :=
  (Options.lastOf (·.given? "A") layers).map constantText

end Layers

/-- The last layer that gives a constant does not decide if a layer before it has the constant in its object, or if a
later one has a list under its key. -/
theorem get?_constants_ne_lastGiven :
    let below := [Layers.object (.integer 1), Layers.key (.integer 2)]
    let hidden := [Layers.key (.integer 1), Layers.key (.array [])]
    (Layers.made below = some (some "1") ∧ Layers.lastGiven below = some "2") ∧
      (Layers.made hidden = some none ∧ Layers.lastGiven hidden = some "1") := by
  decide +kernel

/-- Keys of two layers, and an object below both that has one of their names. -/
theorem get?_constants_ofLayers_mixed :
    let layers := [Layers.object (.string "x"), Layers.key (.bool true), Layers.key .null]
    ∃ config, mergeOptions .empty (withBase .empty Layers.base) (Options.ofLayers layers) = .ok config ∧
      config.constants.get? "A" = some "x" ∧ config.constants.get? "B" = none := by
  intro layers
  have succeeds : (mergeOptions .empty (withBase .empty Layers.base) (Options.ofLayers layers)).toOption.isSome = true := by
    decide +kernel
  have works := eq_ok_of_isSome succeeds
  refine ⟨_, works, ?_, ?_⟩
  · rw [get?_constants_ofLayers works]
    decide +kernel
  · rw [get?_constants_ofLayers works]
    decide +kernel

end Configuration

end SolidityBuild
