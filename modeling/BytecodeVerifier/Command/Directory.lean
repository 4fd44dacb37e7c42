/-!
# Directories — the files a command can read

A path is followed name by name from the working directory, or from the top if it starts with `/`.
`.` stays in a directory and `..` leaves it; nothing is known of the directories outside the working
directory but that they are there.  Only a directory can be followed by more of a path, were it a
mere `/`.
-/

namespace BytecodeVerifier.Command

/-- Why a file cannot be read. -/
inductive ReadError where
  /-- Nothing has this path. -/
  | missing
  /-- The path goes on after a file. -/
  | notDirectory
  /-- The path is that of a directory. -/
  | isDirectory
  /-- The path, or a name in it, is too long. -/
  | tooLong
  /-- The path holds a zero character. -/
  | invalid
  /-- The file may not be read. -/
  | denied
  deriving DecidableEq, Repr, Inhabited

/-- What is said of a path which cannot be read. -/
def ReadError.message (path : String) : ReadError → String
  | missing => s!"open {path}: no such file or directory"
  | notDirectory => s!"open {path}: not a directory"
  | isDirectory => s!"read {path}: is a directory"
  | tooLong => s!"open {path}: file name too long"
  | invalid => s!"open {path}: invalid argument"
  | denied => s!"open {path}: permission denied"

/-- A way to read files. -/
abbrev Reader : Type := String → Except ReadError (List UInt8)

/-- A working directory: the contents of its files, each with the names on the way to it. -/
structure Directory where
  files : List (List String × List UInt8)
  deriving DecidableEq, Repr, Inhabited

/-- Where a path has led to. -/
inductive Place where
  /-- The working directory, or one below it. -/
  | inside (names : List String)
  /-- Another directory. -/
  | outside
  /-- A file. -/
  | file (contents : List UInt8)
  deriving DecidableEq, Repr, Inhabited

namespace Directory

/-- The largest number of bytes of a name. -/
def longestName : Nat := 255

/-- The largest number of bytes of a path. -/
def longestPath : Nat := 4095

/-- The names of a path. -/
def names (path : String) : List String := path.splitOn "/"

/-- The directory in which files were written one after the other, the later ones over the earlier
ones of the same path. -/
def ofFiles (files : List (String × List UInt8)) : Directory :=
  ⟨(files.map fun (path, contents) =>
    ((names path).filter fun n => n != "" && n != ".", contents)).reverse⟩

/-- What a name in a directory, other than `.` and `..`, stands for. -/
def entry (d : Directory) (path : List String) : Except ReadError Place :=
  match d.files.lookup path with
  | some contents => .ok (.file contents)
  | none => if d.files.any fun f => path.isPrefixOf f.1 then .ok (.inside path) else .error .missing

/-- Where a name leads to. -/
def follow (d : Directory) (place : Place) (name : String) : Except ReadError Place :=
  match place with
  | .file _ => .error .notDirectory
  | .outside =>
    if name = "" ∨ name = "." ∨ name = ".." then .ok .outside
    else if longestName < name.utf8ByteSize then .error .tooLong
    else .error .missing
  | .inside path =>
    if name = "" ∨ name = "." then .ok (.inside path)
    else if name = ".." then .ok (if path.isEmpty then .outside else .inside path.dropLast)
    else if longestName < name.utf8ByteSize then .error .tooLong
    else d.entry (path ++ [name])

/-- The contents of the file with a path. -/
def read (d : Directory) : Reader := fun path => do
  if path = "" then throw .missing
  if path.contains (Char.ofNat 0) then throw .invalid
  if longestPath < path.utf8ByteSize then throw .tooLong
  let start := if path.startsWith "/" then Place.outside else .inside []
  match ← (names path).foldlM d.follow start with
  | .file contents => return contents
  | .inside _ | .outside => throw .isDirectory

end Directory

end BytecodeVerifier.Command
