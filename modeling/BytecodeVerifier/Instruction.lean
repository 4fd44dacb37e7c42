import BytecodeVerifier.Opcode
import BytecodeVerifier.Register

/-!
# Instructions

An instruction is an opcode with registers, branch targets and a literal.  The type admits any
combination; `plain`, `withLiteral` and `branch` build only those which fit their opcode.
-/

namespace BytecodeVerifier

/-- An instruction of a method; its targets are positions of instructions. -/
structure Instruction where
  opcode : Opcode
  registers : List Register
  targets : List UInt64
  literal : Int64
  deriving DecidableEq, Repr, Inhabited

namespace Instruction

/-! ### Construction -/

/-- The instruction, if it has as many registers as its opcode has operands. -/
def checked (i : Instruction) : Except Fault Instruction :=
  if i.registers.length = i.opcode.operands.length then .ok i
  else .error (.registerCount i.opcode.mnemonic i.opcode.operands.length i.registers.length)

/-- An instruction which does not branch. -/
def plain (op : Opcode) (registers : List Register) : Except Fault Instruction :=
  if op.branches then .error (.missingTargets op.mnemonic)
  else checked ⟨op, registers, [], 0⟩

/-- An instruction with a literal. -/
def withLiteral (op : Opcode) (literal : Int64) (registers : List Register) :
    Except Fault Instruction :=
  if op.hasLiteral then checked ⟨op, registers, [], literal⟩
  else .error (.unexpectedLiteral op.mnemonic)

/-- An instruction which branches; only a switch may have several targets, or none. -/
def branch (op : Opcode) (targets : List UInt64) (registers : List Register) :
    Except Fault Instruction :=
  if !op.branches then .error (.unexpectedTargets op.mnemonic)
  else if op.family ≠ .switch ∧ targets.length ≠ 1 then .error (.targetCount op.mnemonic)
  else checked ⟨op, registers, targets, 0⟩

/-! ### Registers and control -/

/-- The registers at the operands which satisfy `wanted`, each of which must be there. -/
def select (wanted : Operand → Bool) : List Operand → List Register → Except Fault (List Register)
  | [], _ => .ok []
  | o :: os, rs =>
    if wanted o then
      match rs with
      | [] => .error .outOfBounds
      | r :: rs => (r :: ·) <$> select wanted os rs
    else select wanted os rs.tail

/-- The registers which are read. -/
def uses (i : Instruction) : Except Fault (List Register) :=
  select Operand.isUse i.opcode.operands i.registers

/-- The registers which are written. -/
def definitions (i : Instruction) : Except Fault (List Register) :=
  select Operand.isDefine i.opcode.operands i.registers

/-- The instruction ends a basic block. -/
def isTerminal (i : Instruction) : Bool := i.opcode.family.isTerminal

/-- Control may pass to the next instruction. -/
def falls (i : Instruction) : Bool := i.opcode.family.falls

/-! ### Text -/

/-- The targets of an instruction, each written by `target`: a switch has a table of them, and any
other instruction shows its target if it has just one. -/
def targetText (i : Instruction) (target : UInt64 → String) : String :=
  if i.opcode.family = .switch then
    ", \x7b" ++ ", ".intercalate (i.targets.map target) ++ "\x7d"
  else
    match i.targets with
    | [t] => (if i.registers.isEmpty then " " else ", ") ++ target t
    | _ => ""

/-- How an instruction is written, given how a target is. -/
def textWith (target : UInt64 → String) (i : Instruction) : String :=
  i.opcode.mnemonic ++
    (if i.registers.isEmpty then "" else " " ++ ", ".intercalate (i.registers.map Register.name)) ++
    (if i.opcode.hasLiteral then s!", {i.literal.toInt}" else "") ++
    i.targetText target

/-- How an instruction is written; a target is its position. -/
def text (i : Instruction) : String := i.textWith fun t => toString t.toNat

end Instruction

end BytecodeVerifier
