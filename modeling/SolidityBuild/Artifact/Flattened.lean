import SolidityBuild.Request.Basic

/-!
# Flattened sources

All files of a unit in one text, each after those it imports, without import directives and behind a
line that names the file.
-/

namespace SolidityBuild.Artifact

/-- What stands in front of the name of a file. -/
def fileMarker : String := "///File: "

/-- The part of a flattened source that one file makes up. -/
def segment (store : SourceStore) (file : Path) : Result String := do
  let unit ← store.unit file
  return "\n\n" ++ fileMarker ++ file.key store.base ++ "\n" ++ Source.Import.stripped unit.content

/-- The flattened source of a unit. -/
def flattened (store : SourceStore) (unit : CompilationUnit) : Result String := do
  return String.join (← unit.files.mapM (segment store))

end SolidityBuild.Artifact
