import SolidityBuild.Json.Parser
import SolidityBuild.Json.Printer
import SolidityBuild.Proofs.LineReading

/-!
# Quoted texts read back

What `Json.quoted` writes is read back by `Json.unquote?` as it was, and no text of a JSON value without
white space holds a line feed. So a line that is made of quoted texts stays one line.
-/

namespace SolidityBuild.Json

/-! ## Escapes -/

theorem hexDigit?_digitChar : ∀ n < 16, hexDigit? (Nat.digitChar n) = some n := by decide

theorem digitChar_ne_lineFeed : ∀ n < 16, Nat.digitChar n ≠ '\n' := by decide

theorem hexUnit?_control {n : Nat} (small : n < 0x20) :
    hexUnit? '0' '0' (Nat.digitChar (n / 16)) (Nat.digitChar (n % 16)) = some n := by
  have zero : hexDigit? '0' = some 0 := by decide
  have high : hexDigit? (Nat.digitChar (n / 16)) = some (n / 16) := hexDigit?_digitChar _ (by omega)
  have low : hexDigit? (Nat.digitChar (n % 16)) = some (n % 16) := hexDigit?_digitChar _ (by omega)
  have value : ((0 * 16 + 0) * 16 + n / 16) * 16 + n % 16 = n := by omega
  simp only [hexUnit?, zero, high, low, bind, Option.bind, pure]
  rw [value]

/-- The three forms that a character takes inside a quoted text. -/
theorem escape_cases (c : Char) :
    (escape c = [c] ∧ c ≠ '"' ∧ c ≠ '\\' ∧ 0x20 ≤ c.toNat) ∨
    (∃ letter, escape c = ['\\', letter] ∧ letter ≠ 'u' ∧ letter ≠ '\n' ∧ letterEscape? letter = some c) ∨
    (c.toNat < 0x20 ∧
      escape c = ['\\', 'u', '0', '0', Nat.digitChar (c.toNat / 16), Nat.digitChar (c.toNat % 16)]) := by
  unfold escape
  split
  · next mark => exact .inr (.inl ⟨'"', rfl, by decide, by decide, by rw [mark]; rfl⟩)
  split
  · next backslash => exact .inr (.inl ⟨'\\', rfl, by decide, by decide, by rw [backslash]; rfl⟩)
  split
  · next backspace => exact .inr (.inl ⟨'b', rfl, by decide, by decide, by rw [backspace]; rfl⟩)
  split
  · next formFeed => exact .inr (.inl ⟨'f', rfl, by decide, by decide, by rw [formFeed]; rfl⟩)
  split
  · next lineFeed => exact .inr (.inl ⟨'n', rfl, by decide, by decide, by rw [lineFeed]; rfl⟩)
  split
  · next carriageReturn => exact .inr (.inl ⟨'r', rfl, by decide, by decide, by rw [carriageReturn]; rfl⟩)
  split
  · next tab => exact .inr (.inl ⟨'t', rfl, by decide, by decide, by rw [tab]; rfl⟩)
  split
  · next control => exact .inr (.inr ⟨control, rfl⟩)
  · next mark backslash _ _ _ _ _ plain => exact .inl ⟨rfl, mark, backslash, Nat.le_of_not_lt plain⟩

theorem stringBody_escape (c : Char) (rest : List Char) :
    stringBody (escape c ++ rest) = (stringBody rest).map fun (cs, after) => (c :: cs, after) := by
  rcases escape_cases c with ⟨form, mark, backslash, printable⟩ | ⟨letter, form, notUnit, _, meaning⟩ |
    ⟨control, form⟩
  · have notControl : ¬ c.toNat < 0x20 := Nat.not_lt.mpr printable
    rw [form, List.singleton_append, stringBody]
    · simp [backslash, notControl]
    · exact mark
    · intro a b _ d rest same
      exact absurd same backslash
    · intro a rest same
      exact absurd same backslash
  · rw [form]
    simp only [List.cons_append, List.nil_append]
    rw [stringBody]
    · rw [meaning]
    · intro a b _ d rest same
      exact absurd same notUnit
  · have high : isHighSurrogate c.toNat = false := by simp [isHighSurrogate]; omega
    have low : isLowSurrogate c.toNat = false := by simp [isLowSurrogate]; omega
    rw [form]
    simp only [List.cons_append, List.nil_append]
    rw [stringBody, hexUnit?_control control]
    simp [high, low]

theorem lineFeed_not_mem_escape (c : Char) : '\n' ∉ escape c := by
  rcases escape_cases c with ⟨form, _, _, printable⟩ | ⟨letter, form, _, notBreak, _⟩ | ⟨control, form⟩
  · have notBreak : c ≠ '\n' := by rintro rfl; exact absurd printable (by decide)
    simpa [form] using notBreak.symm
  · simpa [form] using notBreak.symm
  · have high := digitChar_ne_lineFeed (c.toNat / 16) (by omega)
    have low := digitChar_ne_lineFeed (c.toNat % 16) (by omega)
    rw [form]
    simp [high.symm, low.symm]

/-! ## Quoted texts -/

theorem toList_quoted (text : String) :
    (quoted text).toList = '"' :: (text.toList.flatMap escape ++ ['"']) := by
  simp [quoted]

theorem stringBody_escaped (cs rest : List Char) :
    stringBody (cs.flatMap escape ++ '"' :: rest) = some (cs, rest) := by
  induction cs with
  | nil => simp [stringBody]
  | cons c tail ih => rw [List.flatMap_cons, List.append_assoc, stringBody_escape, ih]; rfl

/-- Quoting a text and reading it back gives the text. -/
theorem unquote?_quoted (text : String) : unquote? (quoted text).toList = some text := by
  rw [toList_quoted, unquote?, stringBody_escaped]
  simp

theorem lineFeed_not_mem_quoted (text : String) : '\n' ∉ (quoted text).toList := by
  rw [toList_quoted]
  intro mem
  rcases List.mem_cons.mp mem with impossible | mem
  · exact absurd impossible (by decide)
  · rcases List.mem_append.mp mem with mem | mem
    · obtain ⟨c, _, inside⟩ := List.mem_flatMap.mp mem
      exact lineFeed_not_mem_escape c inside
    · exact absurd (List.mem_singleton.mp mem) (by decide)

/-! ## Values without white space -/

theorem lineFeed_not_mem_digits (n : Nat) : '\n' ∉ Nat.toDigits 10 n := by
  intro mem
  have digit := Nat.isDigit_of_mem_toDigits (by decide) (by decide) mem
  exact absurd digit (by decide)

theorem lineFeed_not_mem_integer (value : Int) : '\n' ∉ (toString value).toList := by
  cases value with
  | ofNat n =>
    have text : toString (Int.ofNat n) = n.repr := rfl
    rw [text, Nat.toList_repr]
    exact lineFeed_not_mem_digits n
  | negSucc n =>
    have text : toString (Int.negSucc n) = "-" ++ (n + 1).repr := rfl
    rw [text, String.toList_append, Nat.toList_repr, List.mem_append]
    rintro (mem | mem)
    · exact absurd mem (by decide)
    · exact lineFeed_not_mem_digits (n + 1) mem

end SolidityBuild.Json

namespace SolidityBuild.Binary64

theorem lineFeed_not_mem_positional {d : Decimal} (digits : '\n' ∉ d.digits) : '\n' ∉ d.positional := by
  have zeros (n : Nat) : '\n' ∉ List.replicate n '0' := fun mem => absurd (List.eq_of_mem_replicate mem) (by decide)
  have front : '\n' ∉ d.digits.take (d.exponent.toNat + 1) := fun mem => digits (List.mem_of_mem_take mem)
  have back : '\n' ∉ d.digits.drop (d.exponent.toNat + 1) := fun mem => digits (List.mem_of_mem_drop mem)
  unfold Decimal.positional
  split
  · simp [zeros, digits]
  · simp only [List.mem_append, not_or]
    refine ⟨⟨⟨front, zeros _⟩, by decide⟩, ?_⟩
    split
    · decide
    · exact back

theorem lineFeed_not_mem_scientific {d : Decimal} (digits : '\n' ∉ d.digits) : '\n' ∉ d.scientific := by
  have sign : '\n' ≠ (if d.exponent < 0 then '-' else '+') := by split <;> decide
  have exponent := Json.lineFeed_not_mem_digits d.exponent.natAbs
  unfold Decimal.scientific
  simp only [List.mem_append, List.mem_cons, List.not_mem_nil, or_false, not_or]
  refine ⟨⟨?_, by decide, sign⟩, exponent⟩
  split
  · simp
  · next first same => simpa [same] using digits
  · next first rest _ same => simpa [same] using digits

theorem lineFeed_not_mem_text (x : Binary64) : '\n' ∉ x.text.toList := by
  have trimmed : '\n' ∉ (x.shortest.digits.reverse.dropWhile (· == '0')).reverse := by
    intro mem
    have inside := (List.dropWhile_sublist (· == '0')).subset (List.mem_reverse.mp mem)
    exact Json.lineFeed_not_mem_digits _ (List.mem_reverse.mp inside)
  have magnitude : '\n' ∉ (if x.isZero then ['0', '.', '0']
      else
        let d := x.shortest
        let d := { d with digits := (d.digits.reverse.dropWhile (· == '0')).reverse }
        if positionalExponents.1 ≤ d.exponent && d.exponent ≤ positionalExponents.2 then d.positional
        else d.scientific) := by
    split
    · decide
    · dsimp only
      split
      · exact lineFeed_not_mem_positional trimmed
      · exact lineFeed_not_mem_scientific trimmed
  unfold text
  rw [String.toList_ofList]
  split
  · intro mem
    rcases List.mem_cons.mp mem with impossible | mem
    · exact absurd impossible (by decide)
    · exact magnitude mem
  · exact magnitude

end SolidityBuild.Binary64

namespace SolidityBuild.Json

theorem lineFeed_not_mem_intercalate {texts : List String} {separator : String}
    (plain : '\n' ∉ separator.toList) (each : ∀ text ∈ texts, '\n' ∉ text.toList) :
    '\n' ∉ (separator.intercalate texts).toList := by
  intro mem
  rcases Text.mem_intercalate mem with between | ⟨text, listed, inText⟩
  · exact plain between
  · exact each text listed inText

mutual

/-- A value without white space is written on one line. -/
theorem lineFeed_not_mem_compact (value : Json) : '\n' ∉ value.compact.toList := by
  cases value with
  | null => rw [compact]; decide
  | bool value => cases value <;> (simp only [compact]; decide)
  | integer value => rw [compact]; exact lineFeed_not_mem_integer value
  | double value => rw [compact]; exact value.lineFeed_not_mem_text
  | string text => rw [compact]; exact lineFeed_not_mem_quoted text
  | array items =>
    have inner : '\n' ∉ (",".intercalate (compactItems items)).toList :=
      lineFeed_not_mem_intercalate (by decide) (lineFeed_not_mem_items items)
    rw [compact]
    simp only [String.toList_append, List.mem_append, not_or]
    exact ⟨⟨by decide, inner⟩, by decide⟩
  | object members =>
    have inner : '\n' ∉ (",".intercalate (compactMembers members)).toList :=
      lineFeed_not_mem_intercalate (by decide) (lineFeed_not_mem_members members)
    rw [compact]
    simp only [String.toList_append, List.mem_append, not_or]
    exact ⟨⟨by decide, inner⟩, by decide⟩

theorem lineFeed_not_mem_items (items : List Json) : ∀ text ∈ compactItems items, '\n' ∉ text.toList := by
  cases items with
  | nil => simp [compactItems]
  | cons item rest =>
    intro text mem
    rw [compactItems] at mem
    rcases List.mem_cons.mp mem with same | later
    · rw [same]
      exact lineFeed_not_mem_compact item
    · exact lineFeed_not_mem_items rest text later

theorem lineFeed_not_mem_members (members : List (String × Json)) :
    ∀ text ∈ compactMembers members, '\n' ∉ text.toList := by
  cases members with
  | nil => simp [compactMembers]
  | cons member rest =>
    obtain ⟨key, value⟩ := member
    intro text mem
    rw [compactMembers] at mem
    rcases List.mem_cons.mp mem with same | later
    · have inner := lineFeed_not_mem_compact value
      have outer := lineFeed_not_mem_quoted key
      simp [same, inner, outer]
    · exact lineFeed_not_mem_members rest text later

end

end SolidityBuild.Json
