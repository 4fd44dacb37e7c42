import BytecodeVerifier.Numeral
import BytecodeVerifier.Register.File

/-!
# Register names

`v` and a number name a register; `p` and a number name one counting from the slot of the first
parameter, and must lie within the file.
-/

namespace BytecodeVerifier.Register.File

/-- The register with a name. -/
def named? (file : File) (name : String) : Option Register :=
  match name.toList with
  | 'v' :: number => (Numeral.decimal? 32 number).map fun n => ⟨UInt64.ofNat n⟩
  | 'p' :: number =>
    match Numeral.decimal? 32 number, file.parameters with
    | some n, p :: _ =>
      let index := p.slot.index + UInt64.ofNat n
      if index < file.size then some ⟨index⟩ else none
    | _, _ => none
  | _ => none

end BytecodeVerifier.Register.File
