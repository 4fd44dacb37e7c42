import BytecodeVerifier.Assembly.Label
import BytecodeVerifier.Assembly.Token
import BytecodeVerifier.Register.Descriptor

/-!
# Cursors — reading a list of tokens

A step of the assembler reads tokens from a cursor, which remembers where the last token read ended
and which labels have been seen.  A step ends in a complaint about a span of the source.  Reading
beyond the last token is a fault.
-/

namespace BytecodeVerifier.Assembly

/-- What is wrong with a source. -/
inductive Problem where
  /-- Some text is no token. -/
  | unknownText
  /-- Something other than a method is declared. -/
  | unknownDeclaration
  /-- Another token is needed here. -/
  | unexpectedToken
  /-- The number of registers cannot be read, or is too large. -/
  | invalidRegisterCount
  /-- The descriptor is malformed, or does not fit the registers. -/
  | descriptor (text : String) (error : Register.DescriptorError)
  /-- A label is declared twice. -/
  | duplicateLabel
  /-- No instruction has this mnemonic. -/
  | unknownInstruction
  /-- No register has this name. -/
  | unknownRegister
  /-- A number cannot be read, or does not fit 64 bits. -/
  | invalidNumber
  /-- Another word is needed here. -/
  | expected (word : String)
  /-- A label is used and not declared. -/
  | unknownLabel (name : String)
  /-- Two methods have one name. -/
  | duplicateMethod
  deriving DecidableEq, Repr, Inhabited

/-- The text of a problem. -/
def Problem.message : Problem → String
  | unknownText => "unknown text encountered"
  | unknownDeclaration => "unknown declaration"
  | unexpectedToken => "unexpected token"
  | invalidRegisterCount => "invalid register count"
  | descriptor text e => e.message text
  | duplicateLabel => "duplicate label"
  | unknownInstruction => "unknown instruction"
  | unknownRegister => "unknown register"
  | invalidNumber => "invalid number"
  | expected w => s!"expected \"{w}\""
  | unknownLabel name => s!"unknown label \"{name}\""
  | duplicateMethod => "duplicate method"

/-- Why a source is not assembled. -/
inductive Failure where
  /-- There is a problem with the source. -/
  | complaint (span : Source.Span) (problem : Problem)
  /-- A step of the assembler could not be carried out. -/
  | fault (f : Fault)
  deriving DecidableEq, Repr, Inhabited

/-- What is left to read, and what has been seen. -/
structure Cursor where
  /-- The tokens not read yet. -/
  rest : List Token
  /-- Where the last token read ended. -/
  last : Nat
  /-- The labels seen so far. -/
  labels : Labels
  deriving DecidableEq, Repr, Inhabited

/-- A step reads some tokens. -/
abbrev Step (α : Type) : Type := Cursor → Except Failure (α × Cursor)

/-- An operation whose faults are faults of the assembler. -/
def orFault {α : Type} (x : Except Fault α) : Except Failure α := x.mapError .fault

namespace Cursor

/-- The next token. -/
def peek (c : Cursor) : Except Failure Token :=
  match c.rest with
  | [] => .error (.fault .outOfBounds)
  | t :: _ => .ok t

/-- The next token, of whatever kind, is read. -/
def take : Step Token := fun c =>
  match c.rest with
  | [] => .error (.fault .outOfBounds)
  | t :: rest => .ok (t, { c with rest, last := t.stop })

/-- The next token is read, and must be of a kind. -/
def expect (kind : TokenKind) : Step Token := fun c => do
  let (t, c) ← c.take
  if t.kind = kind then return (t, c) else .error (.complaint t.span .unexpectedToken)

/-- The span from a position to the end of the last token read. -/
def spanFrom (c : Cursor) (start : Nat) : Except Failure Source.Span :=
  orFault (Source.Span.new start c.last)

/-- The number of tokens left. -/
def length (c : Cursor) : Nat := c.rest.length

/-! ### Progress -/

theorem length_take {c c' : Cursor} {t : Token} (h : c.take = .ok (t, c')) :
    c'.length + 1 = c.length := by
  unfold take at h
  split at h
  · cases h
  · next heq => cases h; simp [length, heq]

theorem length_expect {c c' : Cursor} {kind : TokenKind} {t : Token}
    (h : c.expect kind = .ok (t, c')) : c'.length + 1 = c.length := by
  obtain ⟨⟨t', c₁⟩, h₁, h⟩ := exists_of_bind_eq_ok h
  rw [← length_take h₁]
  simp only [] at h
  split at h
  · cases h; rfl
  · cases h

end Cursor

end BytecodeVerifier.Assembly
