import BytecodeVerifier.Opcode.Constraint

/-!
# Opcodes — the kinds of instruction

An opcode has a mnemonic, a family and a list of operands.  The family decides how control leaves
the instruction and whether it carries a literal; an operand says whether its register is read,
written or both, and what it must hold.
-/

namespace BytecodeVerifier

/-- How the operand uses its register. -/
inductive Mode where
  /-- The register is read. -/
  | use
  /-- The register is written. -/
  | define
  /-- The register is read and then written. -/
  | useDefine
  deriving DecidableEq, Repr, Inhabited

/-- The position of a mode in the list of modes. -/
def Mode.tag : Mode → Nat
  | .use => 0
  | .define => 1
  | .useDefine => 2

/-- A register operand. -/
structure Operand where
  mode : Mode
  constraint : Constraint
  deriving DecidableEq, Repr, Inhabited

namespace Operand

/-- The register is read. -/
def isUse (o : Operand) : Bool :=
  match o.mode with
  | .use | .useDefine => true
  | .define => false

/-- The register is written. -/
def isDefine (o : Operand) : Bool :=
  match o.mode with
  | .define | .useDefine => true
  | .use => false

end Operand

/-- What an instruction does, whichever values it does it to. -/
inductive Family where
  /-- Does nothing. -/
  | nop
  /-- Copies a register, or a pair, into another. -/
  | move
  /-- Writes a constant. -/
  | const
  /-- Computes a result from one source. -/
  | unary
  /-- Computes a result from two sources. -/
  | binary
  /-- Computes a result from two sources, into the first of them. -/
  | binaryInPlace
  /-- Computes a result from a source and a literal. -/
  | binaryLiteral
  /-- Compares two sources. -/
  | compare
  /-- Jumps. -/
  | goto
  /-- Jumps if two sources compare so. -/
  | ifCompare
  /-- Jumps if a source compares so with zero. -/
  | ifZero
  /-- Jumps to one of several places. -/
  | switch
  /-- Returns no result. -/
  | returnVoid
  /-- Returns a result. -/
  | returnValue
  /-- Raises an exception. -/
  | throw
  /-- Reads, writes or queries an array. -/
  | array
  /-- Creates, checks or locks an object. -/
  | object
  deriving DecidableEq, Repr, Inhabited

namespace Family

/-- The families, in the order of their codes. -/
def all : List Family :=
  [nop, move, const, unary, binary, binaryInPlace, binaryLiteral, compare, goto, ifCompare, ifZero,
    switch, returnVoid, returnValue, throw, array, object]

/-- How a family is written. -/
def name : Family → String
  | nop => "nop"
  | move => "move"
  | const => "const"
  | unary => "unary"
  | binary => "binary"
  | binaryInPlace => "binary-2addr"
  | binaryLiteral => "binary-lit"
  | compare => "compare"
  | goto => "goto"
  | ifCompare => "if"
  | ifZero => "ifz"
  | switch => "switch"
  | returnVoid => "return-void"
  | returnValue => "return"
  | throw => "throw"
  | array => "array"
  | object => "object"

/-- How the family with a code is written; a code of no family is shown as such. -/
def nameOfCode (code : UInt8) : String :=
  match all[code.toNat]? with
  | some f => f.name
  | none => s!"family({code.toNat})"

/-- The instruction carries a literal. -/
def hasLiteral : Family → Bool
  | const | binaryLiteral => true
  | _ => false

/-- The instruction may transfer control to a target. -/
def branches : Family → Bool
  | goto | ifCompare | ifZero | switch => true
  | _ => false

/-- The instruction ends a basic block. -/
def isTerminal : Family → Bool
  | goto | ifCompare | ifZero | switch | returnVoid | returnValue | throw => true
  | _ => false

/-- Control may pass to the next instruction. -/
def falls : Family → Bool
  | goto | returnVoid | returnValue | throw => false
  | _ => true

end Family

/-- A kind of instruction. -/
structure Opcode where
  mnemonic : String
  family : Family
  operands : List Operand
  deriving DecidableEq, Repr, Inhabited

namespace Opcode

/-- The instruction carries a literal. -/
def hasLiteral (op : Opcode) : Bool := op.family.hasLiteral

/-- The instruction may transfer control to a target. -/
def branches (op : Opcode) : Bool := op.family.branches

end Opcode

end BytecodeVerifier
