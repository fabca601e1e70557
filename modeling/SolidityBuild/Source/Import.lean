import SolidityBuild.Text.Blank
import SolidityBuild.Text.Scan

/-!
# Import directives

A directive stands at the start of a line, after spaces and tabs: the word `import`, a clause without
semicolons and quotation marks that is blank or ends in the word `from`, a reference between quotation
marks of one kind, and anything up to the next semicolon. This covers `import "x";`,
`import "x" as X;`, `import * as X from "x";` and `import {A, B as C} from "x";`, over any number of
lines. The text is not analysed further: comments and strings are not known.
-/

namespace SolidityBuild.Source.Import

open Text (Recogniser Piece shorter?)

/-- What may stand in front of a directive on its line. -/
def isIndent (c : Char) : Bool := c = ' ' || c = '\t'

/-- The marks between which a reference stands. -/
def isQuote (c : Char) : Bool := c = '"' || c = '\''

/-- The characters that end the clause between `import` and the reference. -/
def endsClause (c : Char) : Bool := c = ';' || isQuote c

/-- Whether the text between `import` and the reference is blank or ends in `from`. -/
def isClause (clause : List Char) : Bool :=
  let trimmed := Text.trimEnd clause
  trimmed.isEmpty || "from".toList.isSuffixOf trimmed

/-- The reference of the directive at the front of a text, and the text after its semicolon. -/
def directive : Recogniser (List Char) := fun cs => do
  let afterKeyword ← "import".toList.isPrefixOf? (cs.dropWhile isIndent)
  match afterKeyword.dropWhile (!endsClause ·) with
  | quote :: quoted =>
    if isQuote quote && isClause (afterKeyword.takeWhile (!endsClause ·)) then
      match quoted.dropWhile (· ≠ quote) with
      | _ :: trailer =>
        match trailer.dropWhile (· ≠ ';') with
        | _ :: rest => shorter? (quoted.takeWhile (· ≠ quote), rest)
        | [] => none
      | [] => none
    else none
  | [] => none

/-- The directives of a text and the text around them. -/
def pieces (source : List Char) : List (Piece (List Char)) := Text.atLineStarts directive source

/-- The references of a source in textual order. -/
def references (source : String) : List String :=
  (Text.found (pieces source.toList)).map String.ofList

/-- A source without its directives. Their indentation goes with them, their line feeds stay. -/
def stripped (source : String) : String := String.ofList (Text.remainder (pieces source.toList))

/-- A reference that is taken from the directory of the importing file. -/
def isRelative (reference : String) : Bool :=
  "./".toList.isPrefixOf reference.toList || "../".toList.isPrefixOf reference.toList

end SolidityBuild.Source.Import
