import BytecodeVerifier.Opcode.Constraint
import BytecodeVerifier.Register

/-!
# Reports — the outcome of verifying a method

A `Defect` is what is wrong with one instruction, by cause; it has a kind and a wording.  A
`Violation` is a defect placed at an instruction, as it is reported.  A method is verified, or it is
rejected with the first violation found.
-/

namespace BytecodeVerifier

/-- What is wrong with an instruction. -/
inductive Defect where
  /-- The instruction has not as many registers as its opcode has operands. -/
  | registerCount (mnemonic : String) (expected found : Nat)
  /-- An operand lies outside the register file. -/
  | registerRange (register : Register) (size : UInt64)
  /-- The high half of a wide operand lies outside the register file. -/
  | pairRange (register : Register) (size : UInt64)
  /-- A target lies outside the method. -/
  | targetRange (target : UInt64) (length : Nat)
  /-- A register is read which holds `⊥` or `⊤`. -/
  | undefinedRead (register : Register) (value : Value)
  /-- A register is read which holds the high half of a pair. -/
  | upperHalf (register : Register) (low : Value)
  /-- A register is read as a pair which holds a low half that the next one does not continue. -/
  | brokenPair (register : Register) (value next : Value)
  /-- A register is read as a pair which holds a narrow value, next to an undefined one. -/
  | notPair (register : Register) (value : Value) (constraint : Constraint)
  /-- A register is read which holds another value than the operand accepts. -/
  | mismatch (register : Register) (value : Value) (constraint : Constraint)
  /-- The instruction returns other than the declared result. -/
  | wrongReturn (mnemonic : String) (declared : DeclaredType)
  deriving DecidableEq, Repr, Inhabited

/-- The kinds of violation, which are numbered from 1; a number of no kind stays a number. -/
inductive ViolationKind where
  /-- An operand, the high half of one, or a branch target falls outside the method. -/
  | registerOutOfRange
  /-- A wide operand does not name the low slot of a whole pair. -/
  | wideRegisterMisalignment
  /-- An operand holds a value of the wrong category or kind. -/
  | typeCategoryMismatch
  /-- An operand is read before it is written, or whilst it holds conflicting values. -/
  | uninitializedRegisterRead
  /-- A number of no kind. -/
  | other (code : UInt8)
  deriving DecidableEq, Repr, Inhabited

namespace ViolationKind

/-- The kind with a number. -/
def ofCode (code : UInt8) : ViolationKind :=
  match code.toNat with
  | 1 => registerOutOfRange
  | 2 => wideRegisterMisalignment
  | 3 => typeCategoryMismatch
  | 4 => uninitializedRegisterRead
  | _ => other code

/-- How a kind is written. -/
def name : ViolationKind → String
  | registerOutOfRange => "RegisterOutOfRange"
  | wideRegisterMisalignment => "WideRegisterMisalignment"
  | typeCategoryMismatch => "TypeCategoryMismatch"
  | uninitializedRegisterRead => "UninitializedRegisterRead"
  | other code => s!"kind({code.toNat})"

end ViolationKind

namespace Defect

/-- The kind under which a defect is reported. -/
def kind : Defect → ViolationKind
  | registerCount .. | registerRange .. | pairRange .. | targetRange .. => .registerOutOfRange
  | undefinedRead .. => .uninitializedRegisterRead
  | upperHalf .. | brokenPair .. | notPair .. => .wideRegisterMisalignment
  | mismatch .. | wrongReturn .. => .typeCategoryMismatch

/-- The text of a defect. -/
def message : Defect → String
  | registerCount m n k => s!"{m} requires {n} registers (found {k})"
  | registerRange r size => s!"register {r.name} out of range ({size.toNat} registers)"
  | pairRange r size =>
    s!"register pair {r.name},{r.next.name} out of range ({size.toNat} registers)"
  | targetRange t n => s!"branch target {t.toNat} out of range ({n} instructions)"
  | undefinedRead r v => s!"{r.name} read whilst {v.symbol}"
  | upperHalf r low => s!"{r.name} holds upper half of {low.symbol} pair"
  | brokenPair r v next => s!"{r.name} holds {v.symbol} without continuation ({next.symbol})"
  | notPair r v c => s!"{r.name} holds {v.symbol} where {c.name} pair expected"
  | mismatch r v c => s!"{r.name} holds {v.symbol} (expected {c.name})"
  | wrongReturn m t => s!"{m} in method returning {t.name}"

end Defect

/-- A defect as it is reported. -/
structure Violation where
  kind : ViolationKind
  index : Nat
  message : String
  deriving DecidableEq, Repr, Inhabited

namespace Violation

/-- The violation which a defect of the instruction at `pc` is. -/
def ofDefect (pc : Nat) (d : Defect) : Violation := ⟨d.kind, pc, d.message⟩

/-- How a violation is written. -/
def text (v : Violation) : String := s!"{v.kind.name} at instruction {v.index}: {v.message}"

end Violation

/-- The outcome of verifying a method. -/
inductive Report where
  | verified
  | rejected (violation : Violation)
  deriving DecidableEq, Repr, Inhabited

namespace Report

/-- The method was accepted. -/
def isVerified : Report → Bool
  | verified => true
  | rejected _ => false

/-- The violation of a report, if any. -/
def violation? : Report → Option Violation
  | verified => none
  | rejected v => some v

/-- The violation of a report, which must be there. -/
def violation : Report → Except Fault Violation
  | verified => .error .noViolation
  | rejected v => .ok v

/-- The text of the violation, empty if there is none. -/
def message : Report → String
  | verified => ""
  | rejected v => v.message

/-- How a report is written. -/
def text : Report → String
  | verified => "Verified"
  | rejected v => s!"Rejected({v.kind.name}, {v.index})"

end Report

end BytecodeVerifier
