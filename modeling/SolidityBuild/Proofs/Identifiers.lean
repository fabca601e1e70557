import SolidityBuild.Text.Blank
import Mathlib.Data.List.Basic

/-!
# Identifiers

The names that Solidity allows for contracts and constants. None of their characters is white space, so a name
in a text ends in front of the next blank.
-/

namespace SolidityBuild

/-- A character that may stand in an identifier of Solidity. -/
def isIdentifierChar (c : Char) : Bool := c.isAlphanum || c = '_' || c = '$'

/-- An identifier of Solidity: letters, digits, `_` and `$`, of which the first is not a digit. -/
def IsIdentifier (name : String) : Prop :=
  ∃ first rest, name.toList = first :: rest ∧ first.isDigit = false ∧
    (first :: rest).all isIdentifierChar = true

theorem isIdentifier_iff {name : String} : IsIdentifier name ↔
    name.toList.head?.any (!·.isDigit) = true ∧ name.toList.all isIdentifierChar = true := by
  unfold IsIdentifier
  cases name.toList with
  | nil => simp
  | cons first rest => simp

instance (name : String) : Decidable (IsIdentifier name) := decidable_of_iff _ isIdentifier_iff.symm

theorem isIdentifierChar_of_mem {name : String} (named : IsIdentifier name) {c : Char} (mem : c ∈ name.toList) :
    isIdentifierChar c = true := by
  obtain ⟨first, rest, same, _, all⟩ := named
  rw [same] at mem
  exact List.all_eq_true.mp all c mem

/-- The code points of the characters that stand in identifiers. -/
theorem toNat_of_isIdentifierChar {c : Char} (h : isIdentifierChar c = true) :
    c.toNat = 0x24 ∨ 0x30 ≤ c.toNat ∧ c.toNat ≤ 0x39 ∨ 0x41 ≤ c.toNat ∧ c.toNat ≤ 0x5a ∨ c.toNat = 0x5f ∨
      0x61 ≤ c.toNat ∧ c.toNat ≤ 0x7a := by
  have ranges : (((decide ('A'.val ≤ c.val ∧ c.val ≤ 'Z'.val) ||
      decide ('a'.val ≤ c.val) && decide (c.val ≤ 'z'.val)) ||
      decide ('0'.val ≤ c.val) && decide (c.val ≤ '9'.val)) || decide (c = '_') || decide (c = '$')) = true := h
  simp only [Bool.or_eq_true, Bool.and_eq_true, decide_eq_true_eq, UInt32.le_iff_toNat_le] at ranges
  rcases ranges with (((⟨low, high⟩ | ⟨low, high⟩) | ⟨low, high⟩) | rfl) | rfl
  · exact .inr (.inr (.inl ⟨low, high⟩))
  · exact .inr (.inr (.inr (.inr ⟨low, high⟩)))
  · exact .inr (.inl ⟨low, high⟩)
  · decide
  · decide

theorem isBlank_of_isIdentifierChar {c : Char} (h : isIdentifierChar c = true) : Text.isBlank c = false := by
  have code := toNat_of_isIdentifierChar h
  simp only [Text.isBlank, Text.blankRanges, List.any_cons, List.any_nil, Bool.or_false, Bool.or_eq_false_iff,
    Bool.and_eq_false_iff, decide_eq_false_iff_not]
  omega

theorem ne_of_isIdentifierChar {c d : Char} (h : isIdentifierChar c = true) (other : isIdentifierChar d = false) :
    c ≠ d := by
  rintro rfl
  rw [h] at other
  cases other

end SolidityBuild
