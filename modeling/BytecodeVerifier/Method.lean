import BytecodeVerifier.Instruction
import BytecodeVerifier.Register.File

/-!
# Methods

A method is a name, a register file, a declared result and a body.  The name serves reports only.
-/

namespace BytecodeVerifier

/-- A method to be verified. -/
structure Method where
  name : String
  registers : Register.File
  returns : DeclaredType
  code : Array Instruction
  deriving DecidableEq, Repr, Inhabited

namespace Method

/-- How a method is written: its header, then a numbered line for each instruction. -/
def text (m : Method) : String :=
  s!"{m.name}{m.registers.text} {m.returns.name}\n" ++
    String.join (m.code.toList.zipIdx.map fun (i, pc) => s!"\t{pc}: {i.text}\n")

end Method

end BytecodeVerifier
