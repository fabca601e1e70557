/-!
# Glob patterns

A pattern is matched against the bytes of a whole relative path. One mark stands for one byte, so a
character beyond ASCII takes as many as it has bytes; `?` and `*` do not reach across slashes, while
`**` spans directories and a class may match a slash.
-/

namespace SolidityBuild.Glob

/-- A part of a pattern. -/
inductive Token where
  /-- These bytes. -/
  | literal (bytes : List UInt8)
  /-- One byte other than a slash. -/
  | anyByte
  /-- Any bytes other than slashes. -/
  | anyBytes
  /-- `**` at the front: nothing, a slash, or anything up to a slash. -/
  | leading
  /-- `**` at the end: a slash and anything behind it. -/
  | trailing
  /-- `**` between slashes: one slash, or two with anything between them. -/
  | between
  /-- One byte inside the closed ranges, or outside all of them. -/
  | oneOf (negated : Bool) (ranges : List (UInt8 × UInt8))
  /-- One of several patterns, or nothing if there is none. -/
  | anyOf (branches : List (List Token))
deriving Inhabited

/-- A pattern. -/
abbrev Pattern := List Token

/-- The byte that separates the names of a path. -/
def slash : UInt8 := 0x2f

/-- Whether a byte is in one of the ranges. -/
def inRanges (ranges : List (UInt8 × UInt8)) (b : UInt8) : Bool :=
  ranges.any fun range => range.1 ≤ b && b ≤ range.2

/-- All ends of a text, itself first. -/
def ends : List UInt8 → List (List UInt8)
  | [] => [[]]
  | b :: rest => (b :: rest) :: ends rest

/-- The ends of a text after each of its slashes. -/
def afterSlashes : List UInt8 → List (List UInt8)
  | [] => []
  | b :: rest => if b = slash then rest :: afterSlashes rest else afterSlashes rest

/-- The ends of a text up to its first slash, that of the whole text first. -/
def withinName : List UInt8 → List (List UInt8)
  | [] => [[]]
  | b :: rest => (b :: rest) :: if b = slash then [] else withinName rest

mutual

/-- What can be left of a text after a token has matched at its front. -/
def Token.rests (text : List UInt8) : Token → List (List UInt8)
  | .literal bytes =>
    match bytes.isPrefixOf? text with
    | some rest => [rest]
    | none => []
  | .anyByte =>
    match text with
    | b :: rest => if b = slash then [] else [rest]
    | [] => []
  | .anyBytes => withinName text
  | .leading => text :: afterSlashes text
  | .trailing =>
    match text with
    | b :: rest => if b = slash then ends rest else []
    | [] => []
  | .between =>
    match text with
    | b :: rest => if b = slash then rest :: afterSlashes rest else []
    | [] => []
  | .oneOf negated ranges =>
    match text with
    | b :: rest => if inRanges ranges b != negated then [rest] else []
    | [] => []
  | .anyOf branches =>
    match branches with
    | [] => [text]
    | branches => branchRests text branches

/-- What can be left after one of several patterns has matched. -/
def branchRests (text : List UInt8) : List (List Token) → List (List UInt8)
  | [] => []
  | branch :: others => patternRests [text] branch ++ branchRests text others

/-- What can be left of one of several texts after a pattern has matched. -/
def patternRests (texts : List (List UInt8)) : List Token → List (List UInt8)
  | [] => texts
  | token :: rest => patternRests (texts.flatMap fun text => token.rests text).eraseDups rest

end

/-- Whether a pattern matches the whole of some bytes. A pattern that is only `**` matches everything. -/
def matchesBytes (pattern : Pattern) (text : List UInt8) : Bool :=
  match pattern with
  | [.leading] => true
  | pattern => (patternRests [text] pattern).contains []

/-- Whether a pattern matches the whole of a text. -/
def matchesText (pattern : Pattern) (text : String) : Bool := matchesBytes pattern text.toUTF8.toList

end SolidityBuild.Glob
