import BytecodeVerifier.Report
import BytecodeVerifier.Verify.Effect

/-!
# Checks — whether a state allows an instruction

Every register that is read must hold a value of its own which the operand accepts; a wide operand
must name the low half of a whole pair.  A return must also agree with the declared result.  The
first defect found is given.
-/

namespace BytecodeVerifier

/-- The defect of reading a register which holds a value that the constraint may not accept. -/
def Constraint.mismatch? (c : Constraint) (r : Register) (v : Value) : Option Defect :=
  if c.accepts v then none else some (.mismatch r v c)

namespace Dataflow.State

/-- The defect of reading a register under a constraint. -/
def checkUse (s : State) (r : Register) (c : Constraint) : Except Fault (Option Defect) := do
  let v ← s.get r
  if !v.isDefined then return some (.undefinedRead r v)
  match v.low? with
  | some low => return some (.upperHalf r low)
  | none =>
    if !c.isWide then return c.mismatch? r v
    let next ← s.get r.next
    match v.high? with
    | some high =>
      if next ≠ high then return some (.brokenPair r v next)
      return c.mismatch? r v
    | none =>
      if !next.isDefined then return some (.notPair r v c)
      return c.mismatch? r v

/-- The first defect of the operands which are read. -/
def checkUses (s : State) : List Operand → List Register → Except Fault (Option Defect)
  | [], _ => .ok none
  | o :: os, rs =>
    if o.isUse then
      match rs with
      | [] => .error .outOfBounds
      | r :: rs => do
        match ← s.checkUse r o.constraint with
        | some d => return some d
        | none => s.checkUses os rs
    else s.checkUses os rs.tail

end Dataflow.State

namespace Instruction

open Dataflow

/-- The defect of returning the register of an instruction from a method with the given result: the
value must fit the instruction, the instruction the result, and the value the result. -/
def checkReturn (i : Instruction) (returns : DeclaredType) (s : State) :
    Except Fault (Option Defect) :=
  match i.opcode.operands, i.registers with
  | o :: _, r :: _ => do
    match ← s.checkUse r o.constraint with
    | some d => return some d
    | none =>
      if !o.constraint.admits returns then return some (.wrongReturn i.opcode.mnemonic returns)
      let declared ← Constraint.ofType returns
      s.checkUse r declared
  | _, _ => .error .outOfBounds

/-- The first defect of an instruction in a state, in a method with the given result. -/
def check (i : Instruction) (returns : DeclaredType) (s : State) : Except Fault (Option Defect) :=
  match i.opcode.family with
  | .nop | .goto => .ok none
  | .move =>
    match i.opcode.operands, i.registers with
    | _ :: o :: _, _ :: r :: _ => s.checkUse r o.constraint
    | _, _ => .error .outOfBounds
  | .returnVoid =>
    .ok (if returns = .void then none else some (.wrongReturn i.opcode.mnemonic returns))
  | .returnValue => i.checkReturn returns s
  | .const | .unary | .binary | .binaryInPlace | .binaryLiteral | .compare | .ifCompare | .ifZero
  | .switch | .throw | .array | .object => s.checkUses i.opcode.operands i.registers

end Instruction

namespace Method

open Dataflow

/-- The violation of the instruction at a position in a state. -/
def checkAt (m : Method) (s : State) (pc : Nat) : Except Fault (Option Violation) := do
  let i ← m.instruction pc
  let d ← i.check m.returns s
  return d.map (Violation.ofDefect pc)

/-- The first violation along some positions, each instruction being checked in the state which the
ones before it leave. -/
def checkAlong (m : Method) (s : State) : List Nat → Except Fault (Option Violation)
  | [] => .ok none
  | pc :: pcs => do
    match ← m.checkAt s pc with
    | some v => return some v
    | none =>
      let s ← m.effectAt s pc
      m.checkAlong s pcs

end Method

end BytecodeVerifier
