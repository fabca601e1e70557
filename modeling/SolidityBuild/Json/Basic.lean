import SolidityBuild.Dict
import SolidityBuild.Number.Shortest

/-!
# JSON values

Values of the JSON data format. A number is an integer or a binary floating-point number, and the two
are never confused. An object keeps its members in the order given, so that a record is written with
its fields in the order of its declaration; a value without such an order has them in the order of
their keys (`canonical`).
-/

namespace SolidityBuild

/-- A JSON value. -/
inductive Json where
  | null
  | bool (value : Bool)
  | integer (value : Int)
  | double (value : Binary64)
  | string (value : String)
  | array (items : List Json)
  | object (members : List (String × Json))
deriving Inhabited

namespace Json

/-- The integers that are kept as integers; all others are floating-point numbers. -/
def integerRange : Int × Int := (-Nat.pow 2 63, Nat.pow 2 64 - 1)

/-- The object without members. -/
def emptyObject : Json := .object []

/-- The members of an object. -/
def members? : Json → Option (List (String × Json))
  | .object members => some members
  | _ => none

/-- The items of an array. -/
def items? : Json → Option (List Json)
  | .array items => some items
  | _ => none

/-- The text of a string value. -/
def text? : Json → Option String
  | .string text => some text
  | _ => none

/-- The value of a natural number below `2 ^ 64`. -/
def natural? : Json → Option Nat
  | .integer n => if 0 ≤ n then some n.toNat else none
  | _ => none

/-- The value under a key of an object; nothing for other values. -/
def get? (key : String) : Json → Option Json
  | .object members => Entries.find? key members
  | _ => none

/-- The value under a sequence of nested keys. -/
def at? (path : List String) (value : Json) : Option Json :=
  path.foldlM (fun inner key => inner.get? key) value

/-- An object without one of its keys; other values stay. -/
def erase (key : String) : Json → Json
  | .object members => .object (members.filter fun member => member.1 ≠ key)
  | other => other

/-- Changes the value under a key, where there is one. -/
def modify (key : String) (f : Json → Json) : Json → Json
  | .object members => .object (members.map fun (k, v) => if k = key then (k, f v) else (k, v))
  | other => other

/-- Changes every value of an object. -/
def mapMembers (f : Json → Json) : Json → Json
  | .object members => .object (members.map fun (k, v) => (k, f v))
  | other => other

/-- The object of a dictionary. -/
def ofDict (values : Dict Json) : Json := .object values.entries

mutual

/-- The value with the members of every object in order of their keys; of several members with one
key the last stays. -/
def canonical : Json → Json
  | .array items => .array (canonicalItems items)
  | .object members => .object (Entries.sort (canonicalMembers members))
  | other => other

def canonicalItems : List Json → List Json
  | [] => []
  | item :: rest => item.canonical :: canonicalItems rest

def canonicalMembers : List (String × Json) → List (String × Json)
  | [] => []
  | (key, value) :: rest => (key, value.canonical) :: canonicalMembers rest

end

mutual

/-- Lays one value over another: objects merge key by key, and any other value replaces what was
there. -/
def overlay (base above : Json) : Json :=
  match above with
  | .object added =>
    match base with
    | .object members => .object (overlayMembers members added)
    | _ => .object added
  | other => other
termination_by structural above

/-- Lays members one by one over the members of an object. -/
def overlayMembers (members added : List (String × Json)) : List (String × Json) :=
  match added with
  | [] => members
  | (key, value) :: rest =>
    let merged := match Entries.find? key members with
      | some present => overlay present value
      | none => value
    overlayMembers (Entries.insert key merged members) rest
termination_by structural added

end

end Json

end SolidityBuild
