import BytecodeVerifier.Instruction
import BytecodeVerifier.Source.Span

/-!
# Labels — names for positions in a method

A label may be used before it is declared.  A use gives it a number, and the targets of instructions
are such numbers until `Labels.resolve` replaces them by positions.  The largest position is no
position: a label declared there stays undeclared.
-/

namespace BytecodeVerifier.Assembly

/-- A label, with the span at which it was first used or declared. -/
structure Label where
  name : String
  position : Option UInt64
  span : Source.Span
  deriving DecidableEq, Repr, Inhabited

/-- The labels of a method, numbered in the order in which they were first seen. -/
structure Labels where
  entries : List Label
  deriving DecidableEq, Repr, Inhabited

namespace Labels

/-- No labels. -/
def empty : Labels := ⟨[]⟩

/-- The position which a number stands for; the largest number stands for none. -/
def position? (pc : UInt64) : Option UInt64 :=
  if pc = 0xFFFFFFFFFFFFFFFF then none else some pc

/-- The number of a label, which is new if it has not been seen yet. -/
def bind (ls : Labels) (name : String) (span : Source.Span) : Nat × Labels :=
  match ls.entries.findIdx? (·.name == name) with
  | some i => (i, ls)
  | none => (ls.entries.length, ⟨ls.entries ++ [⟨name, none, span⟩]⟩)

/-- Declares a label at a position, unless it has one, and says whether it had none. -/
def declare (ls : Labels) (name : String) (pc : UInt64) (span : Source.Span) : Bool × Labels :=
  match ls.entries.find? (·.name == name) with
  | none => (true, ⟨ls.entries ++ [⟨name, position? pc, span⟩]⟩)
  | some label =>
    if label.position.isSome then (false, ls)
    else
      (true, ⟨ls.entries.map fun l =>
        if l.name = name then { l with position := position? pc } else l⟩)

/-- The position of the label with a number. -/
def positionOf (ls : Labels) (i : UInt64) : Except Fault UInt64 :=
  match ls.entries[i.toNat]? with
  | some ⟨_, some pc, _⟩ => .ok pc
  | _ => .error .outOfBounds

/-- The first label which has not been declared, or the code with positions for targets. -/
def resolve (ls : Labels) (code : List Instruction) :
    Except Fault (Except Label (List Instruction)) :=
  match ls.entries.find? (·.position.isNone) with
  | some label => .ok (.error label)
  | none => do
    let resolved ← code.mapM fun i => do
      let targets ← i.targets.mapM ls.positionOf
      return { i with targets }
    return .ok resolved

end Labels

end BytecodeVerifier.Assembly
