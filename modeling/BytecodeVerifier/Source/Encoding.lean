/-!
# Reading bytes as characters

Source text is UTF-8.  Every byte which is not part of a valid sequence (one which is shortest, and
names a character) is read as one replacement character, so every sequence of bytes is a text.
-/

namespace BytecodeVerifier.Source

/-- The payload of a continuation byte. -/
def continuation? (b : UInt8) : Option Nat :=
  if 0x80 ≤ b ∧ b ≤ 0xBF then some (b.toNat % 64) else none

/-- The character with a number, if the number lies in a range and is one of a character. -/
def charIn? (low high n : Nat) : Option Char :=
  if low ≤ n ∧ n ≤ high ∧ n.isValidChar then some (Char.ofNat n) else none

/-- The character which a byte and the bytes after it spell, and how many of those it takes. -/
def sequence? (b : UInt8) (following : List UInt8) : Option (Char × Nat) :=
  let lead := b.toNat
  if lead < 0x80 then some (Char.ofNat lead, 0)
  else if 0xC0 ≤ lead ∧ lead < 0xE0 then
    match following with
    | b₁ :: _ => do
      let x ← continuation? b₁
      let c ← charIn? 0x80 0x7FF (lead % 32 * 64 + x)
      return (c, 1)
    | _ => none
  else if 0xE0 ≤ lead ∧ lead < 0xF0 then
    match following with
    | b₁ :: b₂ :: _ => do
      let x ← continuation? b₁
      let y ← continuation? b₂
      let c ← charIn? 0x800 0xFFFF (lead % 16 * 4096 + x * 64 + y)
      return (c, 2)
    | _ => none
  else if 0xF0 ≤ lead ∧ lead < 0xF8 then
    match following with
    | b₁ :: b₂ :: b₃ :: _ => do
      let x ← continuation? b₁
      let y ← continuation? b₂
      let z ← continuation? b₃
      let c ← charIn? 0x10000 0x10FFFF (lead % 8 * 262144 + x * 4096 + y * 64 + z)
      return (c, 3)
    | _ => none
  else none

/-- What stands for a byte that cannot be read. -/
def replacement : Char := Char.ofNat 0xFFFD

/-- The characters of a text, given by its bytes. -/
def decode : List UInt8 → List Char
  | [] => []
  | b :: bytes =>
    match sequence? b bytes with
    | some (c, n) => c :: decode (bytes.drop n)
    | none => replacement :: decode bytes
termination_by bytes => bytes.length
decreasing_by
  · rw [List.length_drop, List.length_cons]
    omega
  · exact Nat.lt_succ_self _

end BytecodeVerifier.Source
