import SolidityBuild.Source.Store

/-!
# The import graph

Expands files into their import closures: every file that is reached by imports, once, each after all
the files it imports itself, and without the file that is expanded. What was expanded is remembered, also
when a later import fails; a file that is reached while it is being expanded closes a cycle.
-/

namespace SolidityBuild

/-- An import directive: the reference as written, and the file it led to. -/
structure ImportEdge where
  reference : String
  target : Path
deriving DecidableEq

/-- A file with its import closure and its own imports in textual order. -/
structure Expansion where
  file : Path
  closure : List Path
  edges : List ImportEdge
deriving DecidableEq

/-- The files expanded so far. -/
structure ImportGraph where
  expansions : List Expansion

/-- The loaded sources together with the files expanded so far. -/
structure Workspace where
  store : SourceStore
  graph : ImportGraph

namespace ImportGraph

/-- The graph without files. -/
def empty : ImportGraph := ⟨[]⟩

/-- The expansion of a file. -/
def expansion? (graph : ImportGraph) (p : Path) : Option Expansion :=
  graph.expansions.find? (·.file.same p)

/-- The imports of a file that was expanded. -/
def edges (graph : ImportGraph) (p : Path) : List ImportEdge :=
  match graph.expansion? p with
  | some expansion => expansion.edges
  | none => []

/-- All imports of all files that were expanded. -/
def allEdges (graph : ImportGraph) : List ImportEdge := graph.expansions.flatMap (·.edges)

def add (graph : ImportGraph) (expansion : Expansion) : ImportGraph :=
  ⟨graph.expansions ++ [expansion]⟩

end ImportGraph

namespace Workspace

/-- The workspace without sources. -/
def new (base : Path) (constants : Dict String) : Workspace := ⟨.new base constants, .empty⟩

/-- Adds paths that are not there yet to the end of a list. -/
def addNew (paths added : List Path) : List Path :=
  added.foldl (fun known p => if known.any (·.same p) then known else known ++ [p]) paths

/-- The unit that an import means. An error about a missing source names the importer. -/
def importUnit (w : Workspace) (tree : FileTree) (importer directory : Path) (reference : String) :
    Result SourceUnit × Workspace :=
  match w.store.resolve tree reference directory with
  | (.error (.sourceNotFound reference _ searched), store) =>
    (.error (.sourceNotFound reference (some importer) searched), { w with store })
  | (result, store) => (result, { w with store })

/-- Follows the imports of a file one by one; `expand` expands an imported file. Answers the closure and
the imports, continuing those collected so far. -/
def followImports (expand : Workspace → Path → Result (List Path) × Workspace) (tree : FileTree)
    (importer directory : Path) (closure : List Path) (edges : List ImportEdge) (w : Workspace) :
    List String → Result (List Path × List ImportEdge) × Workspace
  | [] => (.ok (closure, edges), w)
  | reference :: rest =>
    match w.importUnit tree importer directory reference with
    | (.error e, w) => (.error e, w)
    | (.ok unit, w) =>
      match expand w unit.path with
      | (.error e, w) => (.error e, w)
      | (.ok nested, w) =>
        followImports expand tree importer directory (addNew (addNew closure nested) [unit.path])
          (edges ++ [⟨reference, unit.path⟩]) w rest

/-- Expands a file while the files `visiting`, each of which imports the next one, are being expanded.
`room` is how many files can still join them: all of them are loaded and no two are the same, so there
is always room for a file that is loaded. -/
def expand (tree : FileTree) : (room : Nat) → (visiting : List Path) → Workspace → Path →
    Result (List Path) × Workspace
  | 0, _, w, p => (.error (.sourceNotFound p.text none [p]), w)
  | room + 1, visiting, w, p =>
    match w.graph.expansion? p with
    | some expansion => (.ok expansion.closure, w)
    | none =>
      if visiting.any (·.same p) then
        (.error (.cyclicImport (visiting.dropWhile (!·.same p) ++ [p])), w)
      else
        match w.store.unit p with
        | .error e => (.error e, w)
        | .ok unit =>
          let directory := p.parent?.getD w.store.base
          match followImports (expand tree room (visiting ++ [p])) tree p directory [] [] w
              (Source.Import.references unit.content) with
          | (.error e, w) => (.error e, w)
          | (.ok (closure, edges), w) =>
            (.ok closure, { w with graph := w.graph.add ⟨p, closure, edges⟩ })

/-- The import closure of a loaded file. -/
def closure (w : Workspace) (tree : FileTree) (p : Path) : Result (List Path) × Workspace :=
  expand tree (w.store.units.length + tree.nodes.length + 1) [] w p

end Workspace

end SolidityBuild
