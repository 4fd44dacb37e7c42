import BytecodeVerifier.Command.Duration
import BytecodeVerifier.Numeral

/-!
# Flags — the options of a command line

A flag is given as `--name`, or by one letter as `-n`; letters may be run together.  A value follows
`=`, or is the next argument; a switch needs none.  After `--` nothing is a flag.  The last setting
of a flag counts.  Letters which begin with `test.` are meant for whoever tests the program, and are
passed over.
-/

namespace BytecodeVerifier.Command

/-- What a flag is set to. -/
inductive FlagType where
  /-- On or off; on if no value is given. -/
  | switch
  /-- A number which is not negative. -/
  | number
  /-- A length of time. -/
  | duration
  /-- Any text. -/
  | text
  deriving DecidableEq, Repr, Inhabited

/-- A flag of a command. -/
structure Flag where
  name : String
  letter : Option Char
  type : FlagType
  usage : String
  /-- The value of the flag unless it is set, if it is worth a mention. -/
  initially : Option String
  deriving DecidableEq, Repr, Inhabited

/-- A value given to a flag. -/
inductive Setting where
  | switch (on : Bool)
  | number (n : Nat)
  | duration (nanoseconds : Int)
  | text (t : String)
  deriving DecidableEq, Repr, Inhabited

/-- The words for on and off. -/
def switch? (word : String) : Option Bool :=
  if word ∈ ["1", "t", "T", "TRUE", "true", "True"] then some true
  else if word ∈ ["0", "f", "F", "FALSE", "false", "False"] then some false
  else none

/-- The setting which a word gives to a flag. -/
def FlagType.setting? (type : FlagType) (word : String) : Option Setting :=
  match type with
  | .switch => (switch? word).map .switch
  | .number => (Numeral.natural? 64 word.toList).map .number
  | .duration => (Duration.parse? word).map .duration
  | .text => some (.text word)

/-- The settings made on a command line, the last one first, and the other arguments. -/
structure Parsed where
  settings : List (String × Setting)
  operands : List String
  deriving DecidableEq, Repr, Inhabited

namespace Parsed

/-- A flag is given a value. -/
def set? (p : Parsed) (flag : Flag) (word : String) : Option Parsed :=
  (flag.type.setting? word).map fun s => { p with settings := (flag.name, s) :: p.settings }

/-- Whether a switch is on. -/
def isOn (p : Parsed) (name : String) (initially : Bool) : Bool :=
  match p.settings.lookup name with
  | some (.switch on) => on
  | _ => initially

/-- The number given to a flag. -/
def number (p : Parsed) (name : String) (initially : Nat) : Nat :=
  match p.settings.lookup name with
  | some (.number n) => n
  | _ => initially

/-- The nanoseconds given to a flag, none if there is none. -/
def duration (p : Parsed) (name : String) : Int :=
  match p.settings.lookup name with
  | some (.duration n) => n
  | _ => 0

/-- The text given to a flag, empty if there is none. -/
def text (p : Parsed) (name : String) : String :=
  match p.settings.lookup name with
  | some (.text t) => t
  | _ => ""

end Parsed

/-! ### Reading arguments -/

/-- The flag with a name. -/
def named? (flags : List Flag) (name : List Char) : Option Flag :=
  flags.find? (·.name.toList == name)

/-- The flag with a letter. -/
def lettered? (flags : List Flag) (letter : Char) : Option Flag :=
  flags.find? (·.letter == some letter)

/-- Reads `body`, the text of an argument after `--`, and gives how many of the arguments after it
were read as well. -/
def readLong (flags : List Flag) (p : Parsed) (body : List Char) (following : List String) :
    Option (Parsed × Nat) := do
  if body.head? = some '-' ∨ body.head? = some '=' then none
  let name := body.takeWhile (· != '=')
  let flag ← named? flags name
  match body.drop name.length, flag.type, following with
  | _ :: value, _, _ => return (← p.set? flag (String.ofList value), 0)
  | [], .switch, _ => return (← p.set? flag "true", 0)
  | [], _, value :: _ => return (← p.set? flag value, 1)
  | [], _, [] => none

/-- The letters are meant for whoever tests the program. -/
def areForTesting (letters : List Char) : Bool := "test.".toList.isPrefixOf letters

/-- Reads letters run together, and gives how many of the arguments after them were read as well. -/
def readLetters (flags : List Flag) (p : Parsed) (following : List String) :
    List Char → Option (Parsed × Nat)
  | [] => some (p, 0)
  | letter :: rest =>
    if areForTesting (letter :: rest) then some (p, 0)
    else do
      let flag ← lettered? flags letter
      match rest, flag.type, following with
      | '=' :: value@(_ :: _), _, _ => return (← p.set? flag (String.ofList value), 0)
      | _, .switch, _ => readLetters flags (← p.set? flag "true") following rest
      | _ :: _, _, _ => return (← p.set? flag (String.ofList rest), 0)
      | [], _, value :: _ => return (← p.set? flag value, 1)
      | [], _, [] => none

theorem length_drop_lt {α : Type} (a : α) (l : List α) (n : Nat) :
    (l.drop n).length < (a :: l).length := by
  rw [List.length_drop, List.length_cons]
  omega

/-- Reads arguments; there is no reading of an unknown flag, or of a value that does not fit. -/
def readArguments (flags : List Flag) (p : Parsed) (arguments : List String) : Option Parsed :=
  match arguments with
  | [] => some { p with operands := p.operands.reverse }
  | argument :: following =>
    match argument.toList with
    | ['-', '-'] => some { p with operands := p.operands.reverse ++ following }
    | '-' :: '-' :: body =>
      match readLong flags p body following with
      | some (p, n) => readArguments flags p (following.drop n)
      | none => none
    | '-' :: letters@(_ :: _) =>
      match readLetters flags p following letters with
      | some (p, n) => readArguments flags p (following.drop n)
      | none => none
    | _ => readArguments flags { p with operands := argument :: p.operands } following
termination_by arguments.length
decreasing_by
  · exact length_drop_lt ..
  · exact length_drop_lt ..
  · exact Nat.lt_succ_self _

/-! ### Finding the command -/

/-- The argument is a flag whose value is the next argument: it has no `=`, and is a name or a
single ASCII letter of no switch among the flags. -/
def takesNext (flags : List Flag) (argument : List Char) : Bool :=
  let isSwitch : Option Flag → Bool
    | some f => f.type == .switch
    | none => false
  !argument.contains '=' &&
    match argument with
    | '-' :: '-' :: name => !isSwitch (named? flags name)
    | ['-', letter] => letter.utf8Size == 1 && !isSwitch (lettered? flags letter)
    | _ => false

/-- The arguments which are no flags, nor values of flags. -/
def plainArguments (flags : List Flag) : List String → List String
  | [] => []
  | argument :: rest =>
    if argument = "--" then []
    else if takesNext flags argument.toList then
      match rest with
      | _ :: rest => plainArguments flags rest
      | [] => []
    else if argument = "" ∨ argument.toList.head? = some '-' then plainArguments flags rest
    else argument :: plainArguments flags rest

/-- The arguments without the first plain one which is `word`. -/
def withoutWord (flags : List Flag) (word : String) : List String → List String
  | [] => []
  | argument :: rest =>
    if argument = "--" then argument :: rest
    else if takesNext flags argument.toList then
      match rest with
      | value :: rest => argument :: value :: withoutWord flags word rest
      | [] => [argument]
    else if argument = word then rest
    else argument :: withoutWord flags word rest

end BytecodeVerifier.Command
