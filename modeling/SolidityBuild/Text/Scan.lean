/-!
# Scanning texts

What a recogniser leaves of a text is shorter than the text, so scanning ends. Texts are scanned from
left to right and without overlaps. `replaceAll` replaces everything a recogniser finds, and
`atLineStarts` cuts a text at everything that it finds at the start of a line, which is the beginning of
the text and the place after every line feed.
-/

namespace SolidityBuild.Text

/-- What is left of `cs` after something was read. -/
abbrev Rest (cs : List Char) := { rest : List Char // rest.length < cs.length }

/-- A function that reads something at the front of a text, or finds that it is not there. -/
abbrev Recogniser (α : Type) := (cs : List Char) → Option (α × Rest cs)

/-- Keeps what was read if its rest is shorter than `cs`, as it always is. -/
def shorter? {α : Type} {cs : List Char} (read : α × List Char) : Option (α × Rest cs) :=
  if h : read.2.length < cs.length then some (read.1, ⟨read.2, h⟩) else none

/-- The recogniser of a word. -/
def word (sought : List Char) : Recogniser Unit := fun cs => do shorter? ((), ← sought.isPrefixOf? cs)

/-- A text without any number of things that `recognise` finds at its front. -/
def dropAll {α : Type} (recognise : Recogniser α) (cs : List Char) : List Char :=
  match recognise cs with
  | some (_, ⟨rest, _⟩) => dropAll recognise rest
  | none => cs
termination_by cs.length

/-- A text with everything that `recognise` finds replaced. -/
def replaceAll {α : Type} (recognise : Recogniser α) (replacement cs : List Char) : List Char :=
  match recognise cs with
  | some (_, ⟨rest, _⟩) => replacement ++ replaceAll recognise replacement rest
  | none =>
    match cs with
    | [] => []
    | c :: rest => c :: replaceAll recognise replacement rest
termination_by cs.length

/-! ## Pieces of a text -/

/-- A part of a text: a character that stands for itself, or something recognised. -/
inductive Piece (α : Type) where
  | char (c : Char)
  | found (what : α)
deriving DecidableEq

/-- Cuts a text at everything that `recognise` finds at the start of a line; `atStart` says whether the
text begins a line. -/
def cut {α : Type} (recognise : Recogniser α) (atStart : Bool) (cs : List Char) : List (Piece α) :=
  match if atStart then recognise cs else none with
  | some (what, ⟨rest, _⟩) => .found what :: cut recognise false rest
  | none =>
    match cs with
    | [] => []
    | c :: rest => .char c :: cut recognise (c = '\n') rest
termination_by cs.length

/-- Cuts a whole text at everything that `recognise` finds at the start of a line. -/
def atLineStarts {α : Type} (recognise : Recogniser α) (cs : List Char) : List (Piece α) :=
  cut recognise true cs

/-- What was recognised, in textual order. -/
def found {α : Type} (pieces : List (Piece α)) : List α :=
  pieces.filterMap fun
    | .char _ => none
    | .found what => some what

/-- The text around what was recognised. -/
def remainder {α : Type} (pieces : List (Piece α)) : List Char :=
  pieces.filterMap fun
    | .char c => some c
    | .found _ => none

end SolidityBuild.Text
