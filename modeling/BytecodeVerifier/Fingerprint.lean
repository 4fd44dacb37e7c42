import BytecodeVerifier.Fingerprint.Mimc
import BytecodeVerifier.Method

/-!
# Fingerprints — methods identified by a hash

The fingerprint of a method is the hash of a sequence of field elements which spells its register
file, its result and its code, each list after its length.  The name of the method does not count.
-/

namespace BytecodeVerifier

/-- What identifies a method, but for its name. -/
structure Fingerprint where
  digest : Nat
  deriving DecidableEq, Repr, Inhabited

namespace Fingerprint

/-- The element of a 64-bit number. -/
def ofWord (n : UInt64) : Nat := n.toNat % Mimc.order

/-- The element of a length. -/
def ofLength (n : Nat) : Nat := n % Mimc.order

/-- The element of a literal; a negative one counts from the order of the field. -/
def ofLiteral (n : Int64) : Nat := (n.toInt % (Mimc.order : Int)).toNat

/-- The element of a short text. -/
def ofText (text : String) : Nat := Mimc.ofBytes text.toUTF8.toList % Mimc.order

/-- The elements of a parameter. -/
def ofParameter (p : Register.Parameter) : List Nat := [ofWord p.slot.index, ofText p.type.name]

/-- The elements of an instruction. -/
def ofInstruction (i : Instruction) : List Nat :=
  ofText i.opcode.mnemonic ::
    ofLength i.registers.length :: i.registers.map (ofWord ·.index) ++
    ofLength i.targets.length :: i.targets.map ofWord ++
    [ofLiteral i.literal]

/-- The elements of a method. -/
def elements (m : Method) : List Nat :=
  ofWord m.registers.size ::
    ofLength m.registers.parameters.length :: m.registers.parameters.flatMap ofParameter ++
    ofText m.returns.name ::
    ofLength m.code.size :: m.code.toList.flatMap ofInstruction

/-- The fingerprint of a method. -/
def of (m : Method) : Fingerprint := ⟨Mimc.digest (elements m)⟩

/-- How a fingerprint is written: 64 digits in base 16. -/
def text (f : Fingerprint) : String :=
  let digits := Nat.toDigits 16 f.digest
  String.ofList (List.replicate (64 - digits.length) '0' ++ digits)

end Fingerprint

end BytecodeVerifier
