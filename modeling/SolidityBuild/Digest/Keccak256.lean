import SolidityBuild.Digest.Hex

/-!
# Keccak-256

The sponge over 25 lanes of 64 bits that Ethereum uses: an output of 256 bits and a padding that starts
with the byte `0x01`. Lane `(x, y)` stands at position `x + 5 y`.
-/

namespace SolidityBuild.Digest.Keccak256

/-- The 25 lanes. -/
abbrev Lanes := Array UInt64

def lane (lanes : Lanes) (x y : Nat) : UInt64 := lanes.getD (x % 5 + 5 * (y % 5)) 0

/-- The lanes given by a function of their coordinates. -/
def tabulate (f : Nat → Nat → UInt64) : Lanes := Array.ofFn fun i : Fin 25 => f (i % 5) (i / 5)

def rotate (x : UInt64) (n : Nat) : UInt64 :=
  if n = 0 then x else (x <<< UInt64.ofNat n) ||| (x >>> UInt64.ofNat (64 - n))

/-- The constants added to lane `(0, 0)`, one for every round. -/
def roundConstants : List UInt64 :=
  [0x0000000000000001, 0x0000000000008082, 0x800000000000808a, 0x8000000080008000,
    0x000000000000808b, 0x0000000080000001, 0x8000000080008081, 0x8000000000008009,
    0x000000000000008a, 0x0000000000000088, 0x0000000080008009, 0x000000008000000a,
    0x000000008000808b, 0x800000000000008b, 0x8000000000008089, 0x8000000000008003,
    0x8000000000008002, 0x8000000000000080, 0x000000000000800a, 0x800000008000000a,
    0x8000000080008081, 0x8000000000008080, 0x0000000080000001, 0x8000000080008008]

/-- How far every lane is rotated. -/
def rotations : List Nat :=
  [0, 1, 62, 28, 27,
    36, 44, 6, 55, 20,
    3, 10, 43, 25, 39,
    41, 45, 15, 21, 8,
    18, 2, 61, 56, 14]

/-- One round: mix the columns, rotate and move the lanes, combine the rows, add the constant. -/
def round (lanes : Lanes) (constant : UInt64) : Lanes :=
  let columns : Array UInt64 := Array.ofFn fun x : Fin 5 =>
    lane lanes x 0 ^^^ lane lanes x 1 ^^^ lane lanes x 2 ^^^ lane lanes x 3 ^^^ lane lanes x 4
  let column (x : Nat) : UInt64 := columns.getD (x % 5) 0
  let mixed := tabulate fun x y => lane lanes x y ^^^ column (x + 4) ^^^ rotate (column (x + 1)) 1
  let moved := tabulate fun x y =>
    -- The lane that moves to `(x, y)` comes from `(x + 3 y, x)`.
    let source := (x + 3 * y) % 5
    rotate (lane mixed source x) (rotations.getD (source + 5 * x) 0)
  let combined := tabulate fun x y =>
    lane moved x y ^^^ (~~~lane moved (x + 1) y &&& lane moved (x + 2) y)
  combined.modify 0 (· ^^^ constant)

def permute (lanes : Lanes) : Lanes := roundConstants.foldl round lanes

/-- The bytes that are absorbed at a time. -/
def rate : Nat := 136

/-- Absorbs a block. -/
def absorb (lanes : Lanes) (block : List UInt8) : Lanes :=
  let words := ((pieces 7 block).map fun bytes => UInt64.ofNat (ofLittleEndian bytes)).toArray
  permute (Array.ofFn fun i : Fin 25 => lanes.getD i 0 ^^^ words.getD i 0)

/-- The message filled to whole blocks: a first byte `0x01`, zeros, and the top bit of the last byte,
which may be one byte. -/
def padded (message : List UInt8) : List UInt8 :=
  match rate - 1 - message.length % rate with
  | 0 => message ++ [0x81]
  | free + 1 => message ++ 0x01 :: List.replicate free 0 ++ [0x80]

/-- The 32 bytes of the hash. -/
def digest (message : List UInt8) : List UInt8 :=
  let lanes := (pieces (rate - 1) (padded message)).foldl absorb (Array.replicate 25 0)
  (lanes.toList.take 4).flatMap fun word => littleEndian 8 word.toNat

/-- The hash of the UTF-8 bytes of a text, in hexadecimal digits. -/
def hexDigest (text : String) : String := hex (digest text.toUTF8.toList)

end SolidityBuild.Digest.Keccak256
