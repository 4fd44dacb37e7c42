import BytecodeVerifier.DeclaredType

/-!
# Constraints — what an operand must hold

Five constraints each determine one value; `narrow` and `wide` accept either of two.  Constraints
are numbered from 0; a number which belongs to no constraint accepts nothing, and is shown as such.
-/

namespace BytecodeVerifier

/-- What an operand requires of its register. -/
inductive Constraint where
  /-- A 32-bit integer. -/
  | int
  /-- A 32-bit float. -/
  | float
  /-- A long pair. -/
  | long
  /-- A double pair. -/
  | double
  /-- A reference. -/
  | reference
  /-- An integer or a float. -/
  | narrow
  /-- A long pair or a double pair. -/
  | wide
  deriving DecidableEq, Repr, Inhabited

namespace Constraint

/-- The constraints, in the order of their codes. -/
def all : List Constraint := [int, float, long, double, reference, narrow, wide]

/-- How a constraint is written. -/
def name : Constraint → String
  | int => "int"
  | float => "float"
  | long => "long"
  | double => "double"
  | reference => "reference"
  | narrow => "narrow"
  | wide => "wide"

/-- The operand is a pair of registers. -/
def isWide : Constraint → Bool
  | long | double | wide => true
  | _ => false

/-- The value may stand in the (first) register of the operand. -/
def accepts : Constraint → Value → Bool
  | int, v => v == .int
  | float, v => v == .float
  | long, v => v == .longLow
  | double, v => v == .doubleLow
  | reference, v => v == .reference
  | narrow, v => v == .int || v == .float
  | wide, v => v == .longLow || v == .doubleLow

/-- The one value which a constraint determines. -/
def value : Constraint → Except Fault Value
  | int => .ok .int
  | float => .ok .float
  | long => .ok .longLow
  | double => .ok .doubleLow
  | reference => .ok .reference
  | narrow => .error (.undeterminedValue "narrow")
  | wide => .error (.undeterminedValue "wide")

/-- The operand may return a result of the declared type. -/
def admits : Constraint → DeclaredType → Bool
  | int, t => t == .int
  | float, t => t == .float
  | long, t => t == .long
  | double, t => t == .double
  | reference, t => t == .reference
  | narrow, t => t == .int || t == .float
  | wide, t => t.isWide

/-- The constraint which accepts exactly the values of a type. -/
def ofType : DeclaredType → Except Fault Constraint
  | .int => .ok int
  | .float => .ok float
  | .long => .ok long
  | .double => .ok double
  | .reference => .ok reference
  | .void => .error (.unconstrainedType "void")

/-! ### Codes -/

/-- The constraint with a code. -/
def ofCode? (code : UInt8) : Option Constraint := all[code.toNat]?

/-- How the constraint with a code is written. -/
def nameOfCode (code : UInt8) : String :=
  match ofCode? code with
  | some c => c.name
  | none => s!"constraint({code.toNat})"

/-- The value which the constraint with a code determines. -/
def valueOfCode (code : UInt8) : Except Fault Value :=
  match ofCode? code with
  | some c => c.value
  | none => .error (.undeterminedValue (nameOfCode code))

end Constraint

end BytecodeVerifier
