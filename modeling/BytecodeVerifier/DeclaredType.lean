import BytecodeVerifier.Value

/-!
# Declared types — what parameters and results are declared to be

A descriptor names a type by one letter.  Every integral type is an `int`, every class or array a
`reference`; longs and doubles take two registers, and `void` takes none.
-/

namespace BytecodeVerifier

/-- A type that a descriptor can declare. -/
inductive DeclaredType where
  /-- No value: only a result may be void. -/
  | void
  /-- A 32-bit integral value, booleans, bytes, characters and shorts among them. -/
  | int
  /-- A 32-bit float. -/
  | float
  /-- A 64-bit integer. -/
  | long
  /-- A 64-bit float. -/
  | double
  /-- An object or an array. -/
  | reference
  deriving DecidableEq, Repr, Inhabited

namespace DeclaredType

/-- The declared types, in tag order. -/
def all : List DeclaredType := [void, int, float, long, double, reference]

/-- How a type is written. -/
def name : DeclaredType → String
  | void => "void"
  | int => "int"
  | float => "float"
  | long => "long"
  | double => "double"
  | reference => "reference"

/-- The type named by the first letter of a field descriptor. -/
def ofLetter? (letter : UInt8) : Option DeclaredType :=
  match Char.ofNat letter.toNat with
  | 'V' => some void
  | 'Z' | 'B' | 'S' | 'C' | 'I' => some int
  | 'F' => some float
  | 'J' => some long
  | 'D' => some double
  | 'L' | '[' => some reference
  | _ => none

/-- The type takes a pair of registers. -/
def isWide : DeclaredType → Bool
  | long | double => true
  | _ => false

/-- The number of registers which the type takes. -/
def width : DeclaredType → UInt64
  | void => 0
  | long | double => 2
  | _ => 1

/-- What the first register of the type holds; `void` has no value. -/
def value : DeclaredType → Except Fault Value
  | void => .error .voidValue
  | int => .ok .int
  | float => .ok .float
  | long => .ok .longLow
  | double => .ok .doubleLow
  | reference => .ok .reference

end DeclaredType

end BytecodeVerifier
