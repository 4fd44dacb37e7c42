import BytecodeVerifier.Assembly
import BytecodeVerifier.Command.Directory
import BytecodeVerifier.Command.Usage
import BytecodeVerifier.Terminal
import BytecodeVerifier.Verifier

/-!
# The command line

`Invocation.ofArguments?` finds the command and reads its flags.  `Invocation.run` carries it out,
given a way to read files, and gives what is printed and the exit code: 0 if all went well, 1 for
a call that makes no sense, 2 for a file that cannot be read, 4 for one that cannot be assembled,
and 5 if a method is rejected.  Output is never to a terminal, so nothing is coloured.
-/

namespace BytecodeVerifier.Command

/-- What a command has printed, and its exit code. -/
structure Outcome where
  exit : Nat
  output : String
  deriving DecidableEq, Repr, Inhabited

/-- A command with its flags and arguments. -/
structure Invocation where
  command : Name
  parsed : Parsed
  deriving DecidableEq, Repr, Inhabited

/-! ### Finding the command -/

/-- The command below a command which the first plain argument names, and the other arguments; the
command itself if there is none. -/
def descend (n : Name) (arguments : List String) : Name × List String :=
  match plainArguments n.searchFlags arguments with
  | [] => (n, arguments)
  | word :: _ =>
    match n.child? word with
    | some child => (child, withoutWord n.searchFlags word arguments)
    | none => (n, arguments)

/-- The command which the arguments name, and the other arguments; a plain argument makes no sense
unless it follows a command.  Commands lie at most two levels deep. -/
def find? (arguments : List String) : Option (Name × List String) :=
  let (n, rest) := descend .root arguments
  let (n, rest) := descend n rest
  if n = .root ∧ plainArguments n.searchFlags rest ≠ [] then none else some (n, rest)

/-- The invocation which the arguments spell. -/
def Invocation.ofArguments? (arguments : List String) : Option Invocation := do
  let (command, rest) ← find? arguments
  let parsed ← readArguments command.flags ⟨[], []⟩ rest
  return ⟨command, parsed⟩

/-! ### Sources -/

/-- The methods of some files, or the outcome if a file cannot be read or assembled. -/
def assembleFiles (read : Reader) (names : List String) :
    Except Outcome (List AssembledMethod) := do
  let sources ← names.mapM fun name =>
    match read name with
    | .ok bytes => .ok (Source.ofBytes name bytes)
    | .error e => .error ⟨2, s!"reading {name}: {e.message name}\n"⟩
  let results := sources.map fun f => (f, Assembly.assemble f)
  if results.any fun (_, r) => r matches .error (.fault _) then
    .error ⟨2, ""⟩
  let complaints := results.filterMap fun (f, r) =>
    match r with
    | .error (.complaint span problem) => some (⟨f, span, problem.message⟩ : Diagnostic)
    | _ => none
  if complaints.isEmpty then
    return results.flatMap fun (_, r) =>
      match r with
      | .ok ms => ms
      | .error _ => []
  else .error ⟨4, String.join (complaints.map Diagnostic.render)⟩

/-! ### Commands -/

/-- What is printed of a method that is accepted. -/
def acceptance (m : AssembledMethod) (colour : Bool) : String :=
  let word := Terminal.colour "verified" (Terminal.Escape.bold.foreground 2) colour
  s!"{m.source.name}:{m.method.name} {word}\n"

/-- What is printed of a method that is rejected. -/
def rejection (m : AssembledMethod) (v : Violation) (colour : Bool) : String :=
  let word := Terminal.colour "rejected" (Terminal.Escape.bold.foreground 1) colour
  s!"{m.source.name}:{m.method.name} {word}\n" ++ (m.diagnostic v.index v.message).render ++ "\n"

/-- What is printed of a report; accepted methods are passed over if it is to be quiet. -/
def reportText (quiet : Bool) (m : AssembledMethod) : Report → String
  | .verified => if quiet then "" else acceptance m false
  | .rejected v => rejection m v false

/-- Verifies the methods of some files. -/
def runVerify (read : Reader) (p : Parsed) : Except Outcome Outcome := do
  if p.operands.isEmpty then return ⟨1, Name.verify.usage ++ "\n"⟩
  let methods ← assembleFiles read p.operands
  let config : Config := ⟨p.number "workers" defaultWorkers,
    Int64.ofInt (p.duration "timeout"), p.isOn "cache" true⟩
  match ((Verifier.new config).verifyAll false (methods.map AssembledMethod.method)).2.1 with
  | .error (.fault _) => return ⟨2, ""⟩
  | .error refusal => return ⟨3, refusal.message?.getD "" ++ "\n"⟩
  | .ok reports =>
    let quiet := p.isOn "quiet" false
    let output := String.join ((methods.zip reports).map fun (m, r) => reportText quiet m r)
    return ⟨if reports.all Report.isVerified then 0 else 5, output⟩

/-- What is printed of the blocks which are not reachable. -/
def unreachableText (blocks : List Nat) : String :=
  if blocks.isEmpty then "" else "unreachable: [" ++ " ".intercalate (blocks.map toString) ++ "]\n"

/-- What is printed of the graph of a method. -/
def graphText (code : Bool) (m : AssembledMethod) : String :=
  s!"{m.source.name}:{m.method.name}\n" ++
    (if code then m.method.text else "") ++
    (match ControlFlow.Graph.build m.method.registers m.method.code with
      | .error v => (m.diagnostic v.index v.message).render
      | .ok g => g.text ++ "\n" ++ unreachableText g.unreachable) ++
    "\n"

/-- Prints the graphs of the methods of some files. -/
def runCfg (read : Reader) (p : Parsed) : Except Outcome Outcome := do
  if p.operands.isEmpty then return ⟨1, Name.cfg.usage ++ "\n"⟩
  let methods ← assembleFiles read p.operands
  let sound := methods.all fun m => (structuralViolation? m.method.registers m.method.code).isNone
  return ⟨if sound then 0 else 5, String.join (methods.map (graphText (p.isOn "code" false)))⟩

/-- How an operand is listed. -/
def operandText (o : Operand) : String :=
  (match o.mode with
    | .use => "r:"
    | .define => "w:"
    | .useDefine => "rw:") ++ o.constraint.name

/-- How an opcode is listed. -/
def opcodeLine (op : Opcode) : String :=
  padRight op.mnemonic 24 ++ " " ++ padRight op.family.name 14 ++ " " ++
    " ".intercalate (op.operands.map operandText) ++ "\n"

/-- A character without regard to case, as far as the names of families go: two characters beyond
ASCII have small ASCII letters for their like, the long s and the sign for kelvin. -/
def foldCase (c : Char) : Char :=
  if c.toNat = 0x17F then 's' else if c.toNat = 0x212A then 'k' else c.toLower

/-- Lists the opcodes, or those of one family. -/
def runOpcodes (p : Parsed) : Outcome :=
  let family := p.text "family"
  let wanted := fun (op : Opcode) =>
    family == "" || family.toList.map foldCase == op.family.name.toList
  ⟨0, String.join ((Opcode.sorted.filter wanted).map opcodeLine)⟩

/-- Prints the help of the command which the operands name. -/
def runHelp (p : Parsed) : Outcome :=
  match find? p.operands with
  | some (n, _) => ⟨0, n.helpText⟩
  | none => ⟨0, ""⟩

/-- Carries out an invocation, given a way to read files.  There are no scripts for shells. -/
def Invocation.run (read : Reader) (i : Invocation) : Outcome :=
  if i.parsed.isOn "help" false then ⟨0, i.command.helpText⟩
  else
    let outcome : Except Outcome Outcome :=
      match i.command with
      | .root =>
        .ok ⟨0, if i.parsed.isOn "version" false then "bcverify (unknown version)\n"
          else Name.root.usage ++ "\n"⟩
      | .help => .ok (runHelp i.parsed)
      | .completion => .ok ⟨0, i.command.helpText⟩
      | .script _ => .ok ⟨1, ""⟩
      | .opcodes => .ok (runOpcodes i.parsed)
      | .cfg => runCfg read i.parsed
      | .verify => runVerify read i.parsed
    match outcome with
    | .ok o => o
    | .error o => o

/-- Carries out the program with some arguments, given a way to read files. -/
def run (read : Reader) (arguments : List String) : Outcome :=
  match Invocation.ofArguments? arguments with
  | some i => i.run read
  | none => ⟨1, ""⟩

end BytecodeVerifier.Command
