/-!
# Keccak — the sponge behind the hash constants

Keccak-256 with its own padding, not that of SHA-3: the message is followed by a byte `01`, zeros,
and a last byte whose top bit is set, up to a multiple of 136 bytes.  The state is 25 lanes of 64
bits; lane `x, y` stands at `x + 5 * y`.
-/

namespace BytecodeVerifier.Fingerprint.Keccak

/-- A lane rotated to the left. -/
def rotate (lane : UInt64) (n : UInt64) : UInt64 :=
  if n = 0 then lane else (lane <<< n) ||| (lane >>> (64 - n))

/-- How far each lane is rotated. -/
def offsets : Array UInt64 :=
  #[0, 1, 62, 28, 27, 36, 44, 6, 55, 20, 3, 10, 43, 25, 39, 41, 45, 15, 21, 8, 18, 2, 61, 56, 14]

/-- What each round adds to the first lane. -/
def roundConstants : List UInt64 :=
  [0x0000000000000001, 0x0000000000008082, 0x800000000000808A, 0x8000000080008000,
    0x000000000000808B, 0x0000000080000001, 0x8000000080008081, 0x8000000000008009,
    0x000000000000008A, 0x0000000000000088, 0x0000000080008009, 0x000000008000000A,
    0x000000008000808B, 0x800000000000008B, 0x8000000000008089, 0x8000000000008003,
    0x8000000000008002, 0x8000000000000080, 0x000000000000800A, 0x800000008000000A,
    0x8000000080008081, 0x8000000000008080, 0x0000000080000001, 0x8000000080008008]

/-- The lane in column `x` and row `y`, both counted modulo 5. -/
def lane (s : Array UInt64) (x y : Nat) : UInt64 := s.getD (x % 5 + 5 * (y % 5)) 0

/-- The state whose lanes are given by column and row. -/
def ofLanes (f : Nat → Nat → UInt64) : Array UInt64 :=
  (Array.range 25).map fun i => f (i % 5) (i / 5)

/-- Adds to every lane the parities of two neighbouring columns. -/
def theta (s : Array UInt64) : Array UInt64 :=
  let parity := (Array.range 5).map fun x =>
    lane s x 0 ^^^ lane s x 1 ^^^ lane s x 2 ^^^ lane s x 3 ^^^ lane s x 4
  let column := fun x => parity.getD (x % 5) 0
  ofLanes fun x y => lane s x y ^^^ column (x + 4) ^^^ rotate (column (x + 1)) 1

/-- Rotates every lane, and moves lane `x, y` to `y, 2x + 3y`. -/
def rhoPi (s : Array UInt64) : Array UInt64 :=
  ofLanes fun x y =>
    let source := x + 3 * y
    rotate (lane s source x) (offsets.getD (source % 5 + 5 * (x % 5)) 0)

/-- Combines every lane with the two after it in its row. -/
def chi (s : Array UInt64) : Array UInt64 :=
  ofLanes fun x y => lane s x y ^^^ (~~~ lane s (x + 1) y &&& lane s (x + 2) y)

/-- One round. -/
def round (s : Array UInt64) (constant : UInt64) : Array UInt64 :=
  (chi (rhoPi (theta s))).modify 0 (· ^^^ constant)

/-- All rounds. -/
def permute (s : Array UInt64) : Array UInt64 := roundConstants.foldl round s

/-- The number of bytes absorbed at a time. -/
def rate : Nat := 136

/-- The message with its padding. -/
def padded (message : List UInt8) : List UInt8 :=
  let room := rate - message.length % rate
  if room = 1 then message ++ [0x81]
  else message ++ 0x01 :: List.replicate (room - 2) 0 ++ [0x80]

/-- The lane of eight bytes, the least significant first. -/
def laneOf (bytes : List UInt8) : UInt64 :=
  bytes.foldr (fun b acc => acc <<< 8 ||| b.toUInt64) 0

/-- Absorbs some blocks of bytes. -/
def absorb (blocks : Nat) (bytes : List UInt8) (s : Array UInt64) : Array UInt64 :=
  match blocks with
  | 0 => s
  | blocks + 1 =>
    let mixed := s.mapIdx fun i l =>
      if i < rate / 8 then l ^^^ laneOf ((bytes.drop (8 * i)).take 8) else l
    absorb blocks (bytes.drop rate) (permute mixed)

/-- The hash of a message, 32 bytes. -/
def hash (message : List UInt8) : List UInt8 :=
  let bytes := padded message
  let s := absorb (bytes.length / rate) bytes (Array.replicate 25 0)
  (s.toList.take 4).flatMap fun l =>
    (List.range 8).map fun i => (l >>> UInt64.ofNat (8 * i)).toUInt8

end BytecodeVerifier.Fingerprint.Keccak
