import SolidityBuild.Path.Basic

/-!
# Lexical normal form

Resolves `.` and `..` in the text of a path without looking at files: each `..` takes back the component
in front of it. At the root and at the start of a relative path there is nothing to take back, and the
`..` stays; a later `..` takes it back in turn.
-/

namespace SolidityBuild.Path

/-- Adds a component to a normal path, given by its components with the last one first. -/
def step (reversed : List Component) : Component → List Component
  | .current => reversed
  | .parent =>
    match reversed with
    | [] => [.parent]
    | [.root] => [.parent, .root]
    | _ :: rest => rest
  | component => component :: reversed

/-- The components of the normal form. -/
def normalComponents (components : List Component) : List Component :=
  (components.foldl step []).reverse

/-- The normal form of a path. -/
def normalized (p : Path) : Path := ofComponents (normalComponents p.components)

end SolidityBuild.Path
