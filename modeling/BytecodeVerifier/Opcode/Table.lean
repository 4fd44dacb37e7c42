import BytecodeVerifier.Opcode

/-!
# The instruction set

`Opcode.table` lists every opcode once.  Arithmetic comes in a three-register form and in one which
overwrites its first source; shifts take an integer distance.
-/

namespace BytecodeVerifier.Opcode

/-- An operand which is read. -/
def reads (c : Constraint) : Operand := ⟨.use, c⟩

/-- An operand which is written. -/
def writes (c : Constraint) : Operand := ⟨.define, c⟩

/-- An operand which is read and then written. -/
def updates (c : Constraint) : Operand := ⟨.useDefine, c⟩

/-- Opcodes which differ in their mnemonic only. -/
def group (family : Family) (operands : List Operand) (mnemonics : List String) :
    List Opcode :=
  mnemonics.map fun m => ⟨m, family, operands⟩

/-- Both forms of an arithmetic operation, on a type, whose second source has its own type. -/
def arithmetic (name : String) (type second : Constraint) : List Opcode :=
  let mnemonic := name ++ "-" ++ type.name
  [⟨mnemonic, .binary, [writes type, reads type, reads second]⟩,
    ⟨mnemonic ++ "/2addr", .binaryInPlace, [updates type, reads second]⟩]

/-- The types with arithmetic. -/
def arithmeticTypes : List Constraint := [.int, .long, .float, .double]

/-! ### The groups -/

/-- Moves, which keep whatever value their source holds. -/
def moves : List Opcode :=
  group .move [writes .narrow, reads .narrow] ["move", "move/from16", "move/16"] ++
  group .move [writes .wide, reads .wide] ["move-wide", "move-wide/from16", "move-wide/16"] ++
  group .move [writes .reference, reads .reference]
    ["move-object", "move-object/from16", "move-object/16"]

/-- Constants. -/
def constants : List Opcode :=
  group .const [writes .int] ["const/4", "const/16", "const", "const/high16"] ++
  group .const [writes .long]
    ["const-wide/16", "const-wide/32", "const-wide", "const-wide/high16"] ++
  group .const [writes .reference] ["const-string", "const-string/jumbo", "const-class"]

/-- Negations and the like, and truncations of integers. -/
def unaries : List Opcode :=
  group .unary [writes .int, reads .int]
    ["neg-int", "not-int", "int-to-byte", "int-to-char", "int-to-short"] ++
  group .unary [writes .long, reads .long] ["neg-long", "not-long"] ++
  group .unary [writes .float, reads .float] ["neg-float"] ++
  group .unary [writes .double, reads .double] ["neg-double"]

/-- Conversions between any two types with arithmetic. -/
def conversions : List Opcode :=
  arithmeticTypes.flatMap fun source =>
    (arithmeticTypes.filter (· != source)).map fun target =>
      ⟨source.name ++ "-to-" ++ target.name, .unary, [writes target, reads source]⟩

/-- Arithmetic on two sources. -/
def binaries : List Opcode :=
  (["add", "sub", "mul", "div", "rem"].flatMap fun name =>
    arithmeticTypes.flatMap fun type => arithmetic name type type) ++
  (["and", "or", "xor"].flatMap fun name =>
    [Constraint.int, .long].flatMap fun type => arithmetic name type type) ++
  (["shl", "shr", "ushr"].flatMap fun name =>
    [Constraint.int, .long].flatMap fun type => arithmetic name type .int)

/-- Arithmetic with a literal. -/
def literals : List Opcode :=
  group .binaryLiteral [writes .int, reads .int]
    ["add-int/lit16", "rsub-int", "mul-int/lit16", "div-int/lit16", "rem-int/lit16",
      "and-int/lit16", "or-int/lit16", "xor-int/lit16",
      "add-int/lit8", "rsub-int/lit8", "mul-int/lit8", "div-int/lit8", "rem-int/lit8",
      "and-int/lit8", "or-int/lit8", "xor-int/lit8", "shl-int/lit8", "shr-int/lit8",
      "ushr-int/lit8"]

/-- Comparisons which yield an integer. -/
def comparisons : List Opcode :=
  group .compare [writes .int, reads .float, reads .float] ["cmpl-float", "cmpg-float"] ++
  group .compare [writes .int, reads .double, reads .double] ["cmpl-double", "cmpg-double"] ++
  group .compare [writes .int, reads .long, reads .long] ["cmp-long"]

/-- Transfers of control. -/
def transfers : List Opcode :=
  group .goto [] ["goto", "goto/16", "goto/32"] ++
  group .ifCompare [reads .int, reads .int]
    ["if-eq", "if-ne", "if-lt", "if-ge", "if-gt", "if-le"] ++
  group .ifZero [reads .int] ["if-eqz", "if-nez", "if-ltz", "if-gez", "if-gtz", "if-lez"] ++
  group .switch [reads .int] ["packed-switch", "sparse-switch"] ++
  group .returnVoid [] ["return-void"] ++
  group .returnValue [reads .narrow] ["return"] ++
  group .returnValue [reads .wide] ["return-wide"] ++
  group .returnValue [reads .reference] ["return-object"] ++
  group .throw [reads .reference] ["throw"]

/-- Operations on arrays. -/
def arrays : List Opcode :=
  group .array [writes .int, reads .reference] ["array-length"] ++
  group .array [writes .reference, reads .int] ["new-array"] ++
  group .array [reads .reference] ["fill-array-data"] ++
  group .array [writes .int, reads .reference, reads .int]
    ["aget", "aget-boolean", "aget-byte", "aget-char", "aget-short"] ++
  group .array [writes .long, reads .reference, reads .int] ["aget-wide"] ++
  group .array [writes .reference, reads .reference, reads .int] ["aget-object"] ++
  group .array [reads .narrow, reads .reference, reads .int]
    ["aput", "aput-boolean", "aput-byte", "aput-char", "aput-short"] ++
  group .array [reads .wide, reads .reference, reads .int] ["aput-wide"] ++
  group .array [reads .reference, reads .reference, reads .int] ["aput-object"]

/-- Operations on objects. -/
def objects : List Opcode :=
  group .object [writes .reference] ["new-instance"] ++
  group .object [reads .reference] ["check-cast", "monitor-enter", "monitor-exit"] ++
  group .object [writes .int, reads .reference] ["instance-of"]

/-! ### The table -/

/-- Every opcode. -/
def table : List Opcode :=
  group .nop [] ["nop"] ++ moves ++ constants ++ unaries ++ conversions ++ binaries ++ literals ++
    comparisons ++ transfers ++ arrays ++ objects

/-- The opcode with a mnemonic. -/
def find? (mnemonic : String) : Option Opcode := table.find? (·.mnemonic == mnemonic)

/-- The opcode with a mnemonic, which must exist. -/
def find (mnemonic : String) : Except Fault Opcode :=
  match find? mnemonic with
  | some op => .ok op
  | none => .error (.unknownOpcode mnemonic)

/-- Every opcode, in the order of the mnemonics. -/
def sorted : List Opcode := table.mergeSort fun a b => !(b.mnemonic < a.mnemonic)

end BytecodeVerifier.Opcode
