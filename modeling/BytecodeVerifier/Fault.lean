/-!
# Faults — broken preconditions

An operation whose precondition does not hold ends in a `Fault`.  A fault is never a verdict on a
method: it says that the operation itself was misused.  `outOfBounds` and `noRoom` carry no text;
every other fault has one wording, given by `Fault.message?`.
-/

namespace BytecodeVerifier

/-- Why an operation could not be carried out. -/
inductive Fault where
  /-- A position lies outside the collection it indexes. -/
  | outOfBounds
  /-- A collection was asked for which is too large for any memory. -/
  | noRoom
  /-- A value which is not the low half of a pair was asked for its high half. -/
  | noHighSlot (value : String)
  /-- A value which is not the high half of a pair was asked for its low half. -/
  | noLowSlot (value : String)
  /-- The absence of a result was asked for a value. -/
  | voidValue
  /-- A constraint admitting several values was asked for the one it determines. -/
  | undeterminedValue (constraint : String)
  /-- A declared type which no operand can hold was asked for its constraint. -/
  | unconstrainedType (type : String)
  /-- No instruction has this mnemonic. -/
  | unknownOpcode (mnemonic : String)
  /-- A branching instruction was built without targets. -/
  | missingTargets (mnemonic : String)
  /-- A literal was given to an instruction which takes none. -/
  | unexpectedLiteral (mnemonic : String)
  /-- Targets were given to an instruction which does not branch. -/
  | unexpectedTargets (mnemonic : String)
  /-- A jump to one place was given no target, or several. -/
  | targetCount (mnemonic : String)
  /-- An instruction was built with the wrong number of registers. -/
  | registerCount (mnemonic : String) (expected found : Nat)
  /-- A register file was required to be well formed, and is not. -/
  | malformedFile (reason : String)
  /-- A span was given whose start lies beyond its end. -/
  | invalidSpan
  /-- An absent value was taken for a present one. -/
  | emptyOption
  /-- A verified method was asked for its violation. -/
  | noViolation
  deriving DecidableEq, Repr, Inhabited

/-- The text of a fault; going out of bounds and lack of room have none. -/
def Fault.message? : Fault → Option String
  | .outOfBounds => none
  | .noRoom => none
  | .noHighSlot v => some s!"value {v} has no high slot"
  | .noLowSlot v => some s!"value {v} has no low slot"
  | .voidValue => some "void has no value"
  | .undeterminedValue c => some s!"constraint {c} does not determine a value"
  | .unconstrainedType t => some s!"no constraint for type {t}"
  | .unknownOpcode m => some s!"unknown opcode \"{m}\""
  | .missingTargets m => some s!"{m} requires branch targets"
  | .unexpectedLiteral m => some s!"{m} does not accept a literal"
  | .unexpectedTargets m => some s!"{m} does not branch"
  | .targetCount m => some s!"{m} requires exactly one target"
  | .registerCount m n k => some s!"{m} expects {n} registers (found {k})"
  | .malformedFile reason => some reason
  | .invalidSpan => some "invalid span"
  | .emptyOption => some "cannot unwrap an empty option"
  | .noViolation => some "verified method has no violation"

/-- The content of an optional value, which must be present. -/
def unwrap {α : Type} : Option α → Except Fault α
  | some a => .ok a
  | none => .error .emptyOption

/-- The size in bytes of the largest collection: `2⁴⁸`. -/
def largestSize : Nat := 281474976710656

/-- There must be room for so many elements, each of so many bytes. -/
def reserve (count width : Nat) : Except Fault Unit :=
  if count * width ≤ largestSize then .ok () else .error .noRoom

/-- A sequence of two steps ends well only if both do. -/
theorem exists_of_bind_eq_ok {ε α β : Type} {x : Except ε α} {f : α → Except ε β} {b : β}
    (h : (x >>= f) = .ok b) : ∃ a, x = .ok a ∧ f a = .ok b := by
  cases x with
  | error e => cases h
  | ok a => exact ⟨a, rfl, h⟩

/-- A sequence of two steps faults if the first does, or the second after it. -/
theorem exists_of_bind_eq_error {ε α β : Type} {x : Except ε α} {f : α → Except ε β} {e : ε}
    (h : (x >>= f) = .error e) : x = .error e ∨ ∃ a, x = .ok a ∧ f a = .error e := by
  cases x with
  | error e' =>
      cases h
      exact .inl rfl
  | ok a => exact .inr ⟨a, rfl, h⟩

end BytecodeVerifier
