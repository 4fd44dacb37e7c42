import BytecodeVerifier.Command.Flag

/-!
# Usage — what the program says about itself

There is a program with five commands, one of which has a command for each of some shells.  The
usage text of a command shows how it is called, lists the commands below it, and lists its flags in
the order of their names, in two columns.
-/

namespace BytecodeVerifier.Command

/-- The shells in which arguments can be completed. -/
inductive Shell where
  | bash
  | fish
  | powershell
  | zsh
  deriving DecidableEq, Repr, Inhabited

/-- The commands; `root` is the program without any. -/
inductive Name where
  | root
  | cfg
  /-- The command which holds those for the shells. -/
  | completion
  /-- The command for a shell. -/
  | script (shell : Shell)
  | help
  | opcodes
  | verify
  deriving DecidableEq, Repr, Inhabited

/-- The name of the program. -/
def program : String := "bcverify"

/-- The flag which every command has. -/
def helpFlag (command : String) : Flag :=
  ⟨"help", some 'h', .switch, s!"help for {command}", none⟩

/-- The flag which every command inherits. -/
def verboseFlag : Flag := ⟨"verbose", some 'v', .switch, "increase logging verbosity", none⟩

/-- Whether reports may be coloured. -/
def escapesFlag : Flag :=
  ⟨"ansi-escapes", none, .switch,
    "specify whether to allow ANSI escapes or not (e.g. for colour reports)", some "true"⟩

/-- How many methods are verified at a time unless it is said. -/
def defaultWorkers : Nat := 1

/-- The name of a shell. -/
def Shell.word : Shell → String
  | bash => "bash"
  | fish => "fish"
  | powershell => "powershell"
  | zsh => "zsh"

/-- How completions are loaded in a shell. -/
def Shell.instructions : Shell → String
  | bash =>
    "Generate the autocompletion script for the bash shell.\n\n" ++
    "This script depends on the 'bash-completion' package.\n" ++
    "If it is not installed already, you can install it via your OS's package manager.\n\n" ++
    "To load completions in your current shell session:\n\n" ++
    "\tsource <(bcverify completion bash)\n\n" ++
    "To load completions for every new session, execute once:\n\n" ++
    "#### Linux:\n\n" ++
    "\tbcverify completion bash > /etc/bash_completion.d/bcverify\n\n" ++
    "#### macOS:\n\n" ++
    "\tbcverify completion bash > $(brew --prefix)/etc/bash_completion.d/bcverify\n\n" ++
    "You will need to start a new shell for this setup to take effect."
  | fish =>
    "Generate the autocompletion script for the fish shell.\n\n" ++
    "To load completions in your current shell session:\n\n" ++
    "\tbcverify completion fish | source\n\n" ++
    "To load completions for every new session, execute once:\n\n" ++
    "\tbcverify completion fish > ~/.config/fish/completions/bcverify.fish\n\n" ++
    "You will need to start a new shell for this setup to take effect."
  | powershell =>
    "Generate the autocompletion script for powershell.\n\n" ++
    "To load completions in your current shell session:\n\n" ++
    "\tbcverify completion powershell | Out-String | Invoke-Expression\n\n" ++
    "To load completions for every new session, add the output of the above command\n" ++
    "to your powershell profile."
  | zsh =>
    "Generate the autocompletion script for the zsh shell.\n\n" ++
    "If shell completion is not already enabled in your environment you will need\n" ++
    "to enable it.  You can execute the following once:\n\n" ++
    "\techo \"autoload -U compinit; compinit\" >> ~/.zshrc\n\n" ++
    "To load completions in your current shell session:\n\n" ++
    "\tsource <(bcverify completion zsh)\n\n" ++
    "To load completions for every new session, execute once:\n\n" ++
    "#### Linux:\n\n" ++
    "\tbcverify completion zsh > \"$\x7bfpath[1]\x7d/_bcverify\"\n\n" ++
    "#### macOS:\n\n" ++
    "\tbcverify completion zsh > $(brew --prefix)/share/zsh/site-functions/_bcverify\n\n" ++
    "You will need to start a new shell for this setup to take effect."

namespace Name

/-- The name of a command. -/
def word : Name → String
  | root => program
  | cfg => "cfg"
  | completion => "completion"
  | script shell => shell.word
  | help => "help"
  | opcodes => "opcodes"
  | verify => "verify"

/-- The commands below a command, in the order of their names. -/
def children : Name → List Name
  | root => [cfg, completion, help, opcodes, verify]
  | completion => [script .bash, script .fish, script .powershell, script .zsh]
  | _ => []

/-- The command with a name below a command. -/
def child? (n : Name) (word : String) : Option Name := n.children.find? (·.word == word)

/-- The names from the program to a command. -/
def path : Name → String
  | root => program
  | script shell => s!"{program} completion {shell.word}"
  | n => s!"{program} {n.word}"

/-- What a command does, in a line. -/
def summary : Name → String
  | root => ""
  | cfg => "Print the control-flow graph of methods written in assembly language."
  | completion => "Generate the autocompletion script for the specified shell"
  | script shell => s!"Generate the autocompletion script for {shell.word}"
  | help => "Help about any command"
  | opcodes => "List the instructions understood by the verifier."
  | verify => "Verify one or more methods written in assembly language."

/-- The flags a command has of its own, in the order of their names, but for the one for help. -/
def ownFlags : Name → List Flag
  | root => [⟨"version", none, .switch, "Report version of this executable", none⟩]
  | completion => []
  | script _ => [⟨"no-descriptions", none, .switch, "disable completion descriptions", none⟩]
  | help => []
  | opcodes =>
    [⟨"family", none, .text, "only list opcodes of the given family (e.g. binary)", none⟩]
  | cfg =>
    [escapesFlag,
      ⟨"code", none, .switch, "print the instructions of each method as well", none⟩]
  | verify =>
    [escapesFlag,
      ⟨"cache", none, .switch, "reuse reports for identical methods", some "true"⟩,
      ⟨"quiet", some 'q', .switch, "only report methods which fail verification", none⟩,
      ⟨"timeout", none, .duration, "maximum time to spend on any one method (0 means unbounded)",
        none⟩,
      ⟨"workers", none, .number, "number of methods to verify concurrently",
        some (toString defaultWorkers)⟩]

/-- The flags known whilst the command is being looked for. -/
def searchFlags (n : Name) : List Flag := verboseFlag :: n.ownFlags

/-- All flags of a command. -/
def flags (n : Name) : List Flag := helpFlag n.word :: n.searchFlags

/-- How a command is called, if it can be carried out. -/
def callLine? : Name → Option String
  | root => some "bcverify [flags]"
  | cfg => some "bcverify cfg [flags] file1.dasm file2.dasm ..."
  | completion => none
  | script .bash => some "bcverify completion bash"
  | script shell => some s!"bcverify completion {shell.word} [flags]"
  | help => some "bcverify help [command] [flags]"
  | opcodes => some "bcverify opcodes [flags]"
  | verify => some "bcverify verify [flags] file1.dasm file2.dasm ..."

/-- What a command does, at length. -/
def description : Name → String
  | root =>
    "A static verifier for register-based bytecode.  Methods are checked,\n" ++
    "\twithout being executed, to ensure every register is read only once\n" ++
    "\tassigned, with a value of the expected category, and that wide values\n" ++
    "\toccupy properly aligned register pairs."
  | cfg =>
    "Assemble each method found in the given source files and print the\n" ++
    "\tbasic blocks which make up its control-flow graph, along with the edges\n" ++
    "\tbetween them.  Blocks not reachable from the entry are marked."
  | completion =>
    "Generate the autocompletion script for bcverify for the specified shell.\n" ++
    "See each sub-command's help for details on how to use the generated script."
  | script shell => shell.instructions
  | help =>
    "Help provides help for any command in the application.\n" ++
    "Simply type bcverify help [path to command] for full details."
  | opcodes =>
    "List every instruction mnemonic understood by the assembler and\n" ++
    "\tverifier, along with its family and the registers it reads (r) and\n" ++
    "\twrites (w)."
  | verify =>
    "Assemble and then statically verify every method found in the given\n" ++
    "\tsource files.  For each method, either \"verified\" is reported or the first\n" ++
    "\tviolation found, along with the instruction responsible."

end Name

/-! ### The text -/

/-- The first column of a flag. -/
def Flag.column (f : Flag) : String :=
  let letter := match f.letter with
    | some c => s!"  -{c}, "
    | none => "      "
  let type := match f.type with
    | .switch => ""
    | .number => " uint"
    | .duration => " duration"
    | .text => " string"
  letter ++ "--" ++ f.name ++ type

/-- A text with blanks after it, up to a width. -/
def padRight (text : String) (width : Nat) : String :=
  text ++ String.ofList (List.replicate (width - text.length) ' ')

/-- The lines of some flags. -/
def flagLines (flags : List Flag) : String :=
  let width := (flags.map (·.column.length)).foldl max 0
  String.join (flags.map fun f =>
    let initially := match f.initially with
      | some v => s!" (default {v})"
      | none => ""
    padRight f.column (width + 3) ++ f.usage ++ initially ++ "\n")

/-- The flags shown as a command's own, in the order of their names. -/
def Name.localFlags (n : Name) : List Flag :=
  let inherited := if n = .root then [verboseFlag] else []
  (helpFlag n.word :: inherited ++ n.ownFlags).mergeSort fun a b => !(b.name < a.name)

/-- The lines of the commands below a command. -/
def Name.childLines (n : Name) : String :=
  String.join (n.children.map fun c => "  " ++ padRight c.word 11 ++ " " ++ c.summary ++ "\n")

/-- The usage text of a command. -/
def Name.usage (n : Name) : String :=
  let isGroup := !n.children.isEmpty
  "Usage:\n" ++
    (match n.callLine? with
      | some line => "  " ++ line ++ "\n"
      | none => "") ++
    (if isGroup then
        "  " ++ n.path ++ " [command]\n\nAvailable Commands:\n" ++ n.childLines
      else "") ++
    "\nFlags:\n" ++ flagLines n.localFlags ++
    (if n = .root then "" else "\nGlobal Flags:\n" ++ flagLines [verboseFlag]) ++
    (if isGroup then
        "\nUse \"" ++ n.path ++ " [command] --help\" for more information about a command.\n"
      else "")

/-- The help text of a command. -/
def Name.helpText (n : Name) : String := n.description ++ "\n\n" ++ n.usage

end BytecodeVerifier.Command
