import BytecodeVerifier.Fingerprint.Keccak

/-!
# MiMC — a hash of sequences of field elements

The field is that of the integers modulo `order`, a prime of 253 bits.  An element is enciphered
under the hash so far, by 62 rounds of adding a constant and raising to the power 17; the hash then
becomes the cipher plus the element plus twice the hash.  The constants come from iterating Keccak
on a seed.
-/

namespace BytecodeVerifier.Fingerprint.Mimc

/-- The order of the field. -/
def order : Nat :=
  8444461749428370424248824938781546531375899335154063827935233455917409239041

/-- The number which bytes spell, the most significant first. -/
def ofBytes (bytes : List UInt8) : Nat := bytes.foldl (fun n b => n * 256 + b.toNat) 0

/-- The number of rounds. -/
def rounds : Nat := 62

/-- Repeated hashes of a message: the first `n` after its own. -/
def hashes : Nat → List UInt8 → List (List UInt8)
  | 0, _ => []
  | n + 1, bytes =>
    let next := Keccak.hash bytes
    next :: hashes n next

/-- The constants of the rounds. -/
def constants : List Nat :=
  (hashes rounds (Keccak.hash "seed".toUTF8.toList)).map fun bytes => ofBytes bytes % order

/-- The power 17, by squaring. -/
def power (x : Nat) : Nat :=
  let x₂ := x * x % order
  let x₄ := x₂ * x₂ % order
  let x₈ := x₄ * x₄ % order
  let x₁₆ := x₈ * x₈ % order
  x₁₆ * x % order

/-- An element enciphered under a key. -/
def encipher (key element : Nat) : Nat :=
  constants.foldl (fun x c => power ((x + key + c) % order)) element

/-- The hash after one more element. -/
def absorb (hash element : Nat) : Nat :=
  (encipher hash element + hash + hash + element) % order

/-- The hash of a sequence of elements. -/
def digest (elements : List Nat) : Nat := elements.foldl absorb 0

end BytecodeVerifier.Fingerprint.Mimc
