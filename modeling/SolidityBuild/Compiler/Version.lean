import SolidityBuild.Text.Blank
import SolidityBuild.Text.Scan

/-!
# Compiler versions

Semantic versions: three numbers, an optional pre-release behind `-` and optional build metadata behind
`+`. The release that a version belongs to is the version without its metadata.
-/

namespace SolidityBuild

/-- A version of the compiler. -/
structure Version where
  major : Nat
  minor : Nat
  patch : Nat
  preRelease : String
  build : String
deriving DecidableEq

namespace Version

/-- The text of a version. -/
def text (v : Version) : String :=
  toString v.major ++ "." ++ toString v.minor ++ "." ++ toString v.patch ++
    (if v.preRelease = "" then "" else "-" ++ v.preRelease) ++
    (if v.build = "" then "" else "+" ++ v.build)

/-- The version without build metadata. -/
def release (v : Version) : Version := { v with build := "" }

/-- Whether two versions differ in their metadata at most. -/
def sameRelease (v w : Version) : Bool := v.release = w.release

/-! ## Reading -/

/-- The numbers of a version are smaller than this. -/
def numberLimit : Nat := Nat.pow 2 64

/-- Cuts a text at every `separator`. -/
def splitAll (separator : Char) : List Char → List (List Char)
  | [] => [[]]
  | c :: rest =>
    match splitAll separator rest with
    | first :: more => if c = separator then [] :: first :: more else (c :: first) :: more
    | [] => [[]]

/-- Whether a part is a number with a zero in front that carries no value. -/
def hasLeadingZero (part : List Char) : Bool := part.head? = some '0' && 1 < part.length

/-- The value of a part of digits. -/
def number? (part : List Char) : Option Nat :=
  if part.isEmpty || !part.all Char.isDigit || hasLeadingZero part then none
  else
    let n := part.foldl (fun n c => n * 10 + (c.toNat - '0'.toNat)) 0
    if n < numberLimit then some n else none

/-- Whether a character may stand in a pre-release or in build metadata. -/
def isIdentifierChar (c : Char) : Bool := c.isAlphanum || c = '-'

/-- Whether a text is a list of non-empty identifiers with dots between them. -/
def isIdentifiers (cs : List Char) : Bool :=
  (splitAll '.' cs).all fun part => !part.isEmpty && part.all isIdentifierChar

/-- Whether a text is a pre-release: identifiers of which the numeric ones have no leading zeros. -/
def isPreRelease (cs : List Char) : Bool :=
  isIdentifiers cs && (splitAll '.' cs).all fun part => !(part.all Char.isDigit && hasLeadingZero part)

/-- Cuts a text at the first `mark`; the second part is there if the mark is. -/
def splitFirst (mark : Char) (cs : List Char) : List Char × Option (List Char) :=
  match cs.dropWhile (· ≠ mark) with
  | _ :: rest => (cs.takeWhile (· ≠ mark), some rest)
  | [] => (cs, none)

/-- The version that a text spells. -/
def parse? (cs : List Char) : Option Version :=
  let (front, build) := splitFirst '+' cs
  let (numbers, preRelease) := splitFirst '-' front
  match splitAll '.' numbers with
  | [major, minor, patch] => do
    let major ← number? major
    let minor ← number? minor
    let patch ← number? patch
    if preRelease.all isPreRelease && build.all isIdentifiers then
      return ⟨major, minor, patch, String.ofList (preRelease.getD []), String.ofList (build.getD [])⟩
    else none
  | _ => none

/-- The version that a user asks for: white space around it and any number of `v` in front of it do not
count. -/
def ofRequest? (text : String) : Option Version :=
  parse? ((Text.trim text.toList).dropWhile (· = 'v'))

/-- The release that is taken when nothing is asked for and no compiler is installed. -/
def default : Version := ⟨0, 8, 30, "", ""⟩

/-! ## The version that a compiler reports -/

/-- A line without the carriage return that belongs to the line feed behind it. -/
def withoutReturn (line : List Char) : List Char :=
  if line.getLast? = some '\r' then line.dropLast else line

/-- The lines of a text; a line ends in a line feed, which a carriage return may precede. -/
def lines (text : String) : List (List Char) :=
  let parts := splitAll '\n' text.toList
  parts.dropLast.map withoutReturn ++ (parts.getLast?.toList)

/-- The version in the output of a compiler: that of the last line that is not blank, where the name of
the C++ compiler is written as `gcc`. -/
def ofReport? (output : String) : Option Version := do
  let line ← ((lines output).filter fun line => !line.all Text.isBlank).getLast?
  let numbers := Text.dropAll (Text.word "Version: ".toList) line
  parse? (Text.replaceAll (Text.word ".g++".toList) ".gcc".toList numbers)

end Version

end SolidityBuild
