/-!
# Terminals — coloured text

An escape is a sequence of numbers which tells a terminal how to show what follows.  Its first
number follows a bracket, and each other one a semicolon.
-/

namespace BytecodeVerifier.Terminal

/-- An escape without its end, and how many numbers it has. -/
structure Escape where
  text : String
  count : Nat
  deriving DecidableEq, Repr, Inhabited

namespace Escape

/-- The character that starts an escape. -/
def lead : String := String.singleton (Char.ofNat 27)

/-- The escape with no number. -/
def new : Escape := ⟨lead, 0⟩

/-- The escape which ends all effects. -/
def reset : Escape := ⟨lead ++ "[0", 1⟩

/-- The escape to bold text. -/
def bold : Escape := ⟨lead ++ "[1", 1⟩

/-- The escape which also sets the colour of text; colours are numbered from 30 on. -/
def foreground (e : Escape) (colour : UInt64) : Escape :=
  let mark := if e.count > 0 then ";" else "["
  ⟨e.text ++ mark ++ toString (colour + 30).toNat, e.count + 1⟩

/-- The finished escape. -/
def build (e : Escape) : String := e.text ++ "m"

end Escape

/-- A text between an escape and the one which ends it, if escapes are wanted. -/
def colour (text : String) (e : Escape) (enabled : Bool) : String :=
  if enabled then e.build ++ text ++ Escape.reset.build else text

end BytecodeVerifier.Terminal
