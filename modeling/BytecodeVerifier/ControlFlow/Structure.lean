import BytecodeVerifier.Method
import BytecodeVerifier.Report

/-!
# Structure — what must hold of an instruction before its flow is followed

An instruction must have a register for every operand, each register must lie within the register
file, wide operands with both halves, and every target must be an instruction.  The first defect of
the first defective instruction is the violation.
-/

namespace BytecodeVerifier

namespace Instruction

/-- The defect of an operand: its register, or the other half of its pair, is outside the file. -/
def operandDefect? (file : Register.File) (o : Operand) (r : Register) : Option Defect :=
  if !file.inRange r then some (.registerRange r file.size)
  else if o.constraint.isWide && !file.inRange r.next then some (.pairRange r file.size)
  else none

/-- The first defect in the structure of an instruction, in a method of `length` instructions. -/
def structuralDefect? (file : Register.File) (length : Nat) (i : Instruction) : Option Defect :=
  let operands := i.opcode.operands
  if i.registers.length ≠ operands.length then
    some (.registerCount i.opcode.mnemonic operands.length i.registers.length)
  else
    match (operands.zip i.registers).findSome? fun (o, r) => operandDefect? file o r with
    | some d => some d
    | none => (i.targets.find? fun t => length ≤ t.toNat).map (.targetRange · length)

end Instruction

/-- The first violation of structure in a method's code. -/
def structuralViolation? (file : Register.File) (code : Array Instruction) : Option Violation :=
  code.toList.zipIdx.findSome? fun (i, pc) =>
    (i.structuralDefect? file code.size).map (Violation.ofDefect pc)

end BytecodeVerifier
