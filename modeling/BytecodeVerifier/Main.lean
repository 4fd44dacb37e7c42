import BytecodeVerifier.Command

/-!
# The program

Reads the files which the arguments name, carries out the command and prints what it gives.
-/

open BytecodeVerifier

/-- Why the system could not read a file. -/
def readErrorOf : IO.Error → Command.ReadError
  | .permissionDenied .. => .denied
  | .inappropriateType _ 20 _ => .notDirectory
  | .inappropriateType .. => .isDirectory
  | .invalidArgument .. => .invalid
  | _ => .missing

/-- What came of reading each of the named files. -/
def readFiles : List String → IO (List (String × Except Command.ReadError (List UInt8)))
  | [] => return []
  | name :: names => do
    let rest ← readFiles names
    try
      let bytes ← IO.FS.readBinFile name
      return (name, .ok bytes.toList) :: rest
    catch e => return (name, .error (readErrorOf e)) :: rest

/-- Runs the program. -/
def main (arguments : List String) : IO UInt32 := do
  let names := match Command.Invocation.ofArguments? arguments with
    | some i => i.parsed.operands
    | none => []
  let results ← readFiles names
  let read := fun name => (results.lookup name).getD (.error .missing)
  let outcome := Command.run read arguments
  IO.print outcome.output
  return UInt32.ofNat outcome.exit
