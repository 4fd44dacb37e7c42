import BytecodeVerifier.DeclaredType
import BytecodeVerifier.Register

/-!
# Register files — the frame of a method and its parameters

A register file is a number of registers, some of which hold the parameters on entry.  `File.new`
accepts a shape when no parameter is void, every parameter ends within the file and no two share a
slot; a file carries the proof that its shape was accepted, so there are no others.  The end of a
parameter is computed modulo 2⁶⁴, so a parameter whose slots run past the largest register number
counts as ending at a small one and takes no slot at all.  `File.setUp` also asks for room to mark
the slots which are taken, one byte for each register.
-/

namespace BytecodeVerifier.Register

/-- A parameter, by the first register which holds it. -/
structure Parameter where
  slot : Register
  type : DeclaredType
  deriving DecidableEq, Repr, Inhabited

namespace Parameter

/-- How a parameter is written. -/
def text (p : Parameter) : String := s!"{p.slot.name}:{p.type.name}"

/-- One past the last slot of the parameter, modulo 2⁶⁴. -/
def stop (p : Parameter) : UInt64 := p.slot.index + p.type.width

/-- The slots the parameter takes; none if its end wraps around. -/
def slots (p : Parameter) : List UInt64 :=
  if p.slot.index < p.stop then
    (List.range p.type.width.toNat).map fun i => p.slot.index + UInt64.ofNat i
  else []

end Parameter

/-- Why a shape is not a register file. -/
inductive FileError where
  /-- A parameter is void. -/
  | voidParameter (slot : Register)
  /-- A parameter ends outside the file. -/
  | outOfRange (parameter : Parameter) (size : UInt64)
  /-- Two parameters share a slot. -/
  | overlap (parameter : Parameter)
  deriving DecidableEq, Repr, Inhabited

/-- The text of a rejected shape. -/
def FileError.message : FileError → String
  | .voidParameter slot => s!"parameter {slot.name} cannot have void type"
  | .outOfRange p size => s!"parameter {p.text} out of range ({size.toNat} registers)"
  | .overlap p => s!"parameter {p.text} overlaps another parameter"

/-- The first objection to the parameters `ps` of a file of `size` registers of which the slots in
`taken` are in use. -/
def File.objection? (size : UInt64) (taken : List UInt64) : List Parameter → Option FileError
  | [] => none
  | p :: ps =>
    if p.type.width = 0 then some (.voidParameter p.slot)
    else if size < p.stop then some (.outOfRange p size)
    else if p.slots.any (taken.contains ·) then some (.overlap p)
    else objection? size (p.slots ++ taken) ps

/-- The registers of a method and the parameters they hold on entry. -/
structure File where
  size : UInt64
  parameters : List Parameter
  /-- Nothing is to be said against the parameters. -/
  accepted : File.objection? size [] parameters = none
  deriving DecidableEq, Repr

namespace File

/-- The file without registers. -/
instance : Inhabited File := ⟨⟨0, [], rfl⟩⟩

/-- The file of `size` registers with the given parameters. -/
def new (size : UInt64) (parameters : List Parameter) : Except FileError File :=
  match h : objection? size [] parameters with
  | some e => .error e
  | none => .ok ⟨size, parameters, h⟩

/-- The file of `size` registers with the given parameters; there must be room for its marks. -/
def setUp (size : UInt64) (parameters : List Parameter) : Except Fault (Except FileError File) := do
  reserve size.toNat 1
  return new size parameters

/-- The file of a shape which must be well formed. -/
def require (size : UInt64) (parameters : List Parameter) : Except Fault File := do
  match ← setUp size parameters with
  | .ok file => return file
  | .error e => .error (.malformedFile e.message)

/-- The file has the register. -/
def inRange (file : File) (r : Register) : Bool := r.index < file.size

/-- How a file is written. -/
def text (file : File) : String :=
  s!"[{file.size.toNat}](" ++ ", ".intercalate (file.parameters.map Parameter.text) ++ ")"

end File

end BytecodeVerifier.Register
