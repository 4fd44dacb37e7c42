import BytecodeVerifier.Register.File

/-!
# Descriptors — the parameters and result of a method, as text

A descriptor is `(`, the field types of the parameters, `)` and the field type of the result.  A
field type is any number of `[` followed by a letter, and after an `L` a class name up to `;`.
Descriptors are read as bytes.  `Signature.allocate` gives the incoming values the highest registers
of a file, the receiver of an instance method first.
-/

namespace BytecodeVerifier.Register

/-- The byte of an ASCII character. -/
def asciiByte (c : Char) : UInt8 := UInt8.ofNat c.toNat

/-! ### Field types -/

/-- Why the text at hand is not a field type. -/
inductive FieldError where
  /-- The text ends before the letter of the type. -/
  | truncated
  /-- The letter names no type. -/
  | invalidLetter (letter : UInt8)
  /-- A class name is not closed. -/
  | unterminatedClass
  /-- An array has no element type. -/
  | arrayOfVoid
  deriving DecidableEq, Repr, Inhabited

/-- The text of a rejected field type; the letter is shown as the character of that number. -/
def FieldError.message : FieldError → String
  | .truncated => "truncated type descriptor"
  | .invalidLetter b => s!"invalid type descriptor '{Char.ofNat b.toNat}'"
  | .unterminatedClass => "unterminated class descriptor"
  | .arrayOfVoid => "array of void"

/-- The type named by one letter. -/
def typeOfLetter (letter : UInt8) : Except FieldError DeclaredType :=
  match DeclaredType.ofLetter? letter with
  | some t => .ok t
  | none => .error (.invalidLetter letter)

/-- What follows the letter of a field type: after `L`, the text beyond the next `;`. -/
def afterLetter (letter : UInt8) (text : List UInt8) : Except FieldError (List UInt8) :=
  if letter = asciiByte 'L' then
    match text.dropWhile (· != asciiByte ';') with
    | [] => .error .unterminatedClass
    | _ :: rest => .ok rest
  else .ok text

/-- The first field type of a text, and the text after it. -/
def readField (text : List UInt8) : Except FieldError (DeclaredType × List UInt8) :=
  match text.dropWhile (· == asciiByte '[') with
  | [] => .error .truncated
  | letter :: following => do
    let type ← typeOfLetter letter
    let rest ← afterLetter letter following
    if text.head? = some (asciiByte '[') then
      if type = .void then .error .arrayOfVoid else .ok (.reference, rest)
    else .ok (type, rest)

theorem afterLetter_length_le {letter : UInt8} {text rest : List UInt8}
    (h : afterLetter letter text = .ok rest) : rest.length ≤ text.length := by
  unfold afterLetter at h
  split at h
  · have hd := (List.dropWhile_sublist (· != asciiByte ';') (l := text)).length_le
    split at h
    · cases h
    · next e => cases h; rw [e] at hd; simp at hd; omega
  · cases h; exact Nat.le_refl _

/-- Reading a field type consumes text. -/
theorem readField_length_lt {text rest : List UInt8} {type : DeclaredType}
    (h : readField text = .ok (type, rest)) : rest.length < text.length := by
  unfold readField at h
  have hd := (List.dropWhile_sublist (· == asciiByte '[') (l := text)).length_le
  split at h
  · cases h
  · next letter following e =>
      rw [e, List.length_cons] at hd
      cases ht : typeOfLetter letter with
      | error _ => rw [ht] at h; cases h
      | ok t =>
          cases hr : afterLetter letter following with
          | error _ => rw [ht, hr] at h; cases h
          | ok r =>
              have hle := afterLetter_length_le hr
              rw [ht, hr] at h
              simp only [bind, Except.bind] at h
              split at h
              · split at h
                · cases h
                · cases h; omega
              · cases h; omega

/-! ### Descriptors -/

/-- The types of the parameters and of the result. -/
structure Signature where
  arguments : List DeclaredType
  returns : DeclaredType
  deriving DecidableEq, Repr, Inhabited

/-- Why a text is not a descriptor, or its values have no place. -/
inductive DescriptorError where
  /-- There is no parameter list followed by a result. -/
  | malformed
  /-- A field type is malformed. -/
  | field (error : FieldError)
  /-- A parameter is void. -/
  | voidParameter
  /-- Text follows the result. -/
  | trailing
  /-- The incoming values need more registers than there are. -/
  | tooFewRegisters (needed found : UInt64)
  /-- The incoming values do not form a register file. -/
  | file (error : FileError)
  deriving DecidableEq, Repr, Inhabited

/-- The text of a rejected descriptor. -/
def DescriptorError.message (descriptor : String) : DescriptorError → String
  | .malformed => s!"invalid method descriptor: {descriptor}"
  | .field e => s!"{e.message} in {descriptor}"
  | .voidParameter => s!"void parameter in {descriptor}"
  | .trailing => s!"trailing characters in {descriptor}"
  | .tooFewRegisters needed found =>
    s!"descriptor {descriptor} requires {needed.toNat} registers (found {found.toNat})"
  | .file e => e.message

/-- The types of a list of parameters. -/
def readArguments (text : List UInt8) : Except DescriptorError (List DeclaredType) :=
  if text.isEmpty then .ok []
  else
    match _h : readField text with
    | .error e => .error (.field e)
    | .ok (type, rest) =>
      if type = .void then .error .voidParameter
      else (type :: ·) <$> readArguments rest
termination_by text.length
decreasing_by exact readField_length_lt ‹_›

/-- The type of a result, which must be all of the text. -/
def readResult (text : List UInt8) : Except DescriptorError DeclaredType :=
  match readField text with
  | .error e => .error (.field e)
  | .ok (type, rest) => if rest.isEmpty then .ok type else .error .trailing

namespace Signature

/-- The signature that the bytes of a descriptor spell. -/
def ofBytes (text : List UInt8) : Except DescriptorError Signature :=
  match text with
  | [] => .error .malformed
  | b :: body =>
    if b = asciiByte '(' then
      match body.dropWhile (· != asciiByte ')') with
      | _ :: result@(_ :: _) => do
        let arguments ← readArguments (body.takeWhile (· != asciiByte ')'))
        let returns ← readResult result
        return ⟨arguments, returns⟩
      | _ => .error .malformed
    else .error .malformed

/-- The signature that a descriptor spells. -/
def ofDescriptor (descriptor : String) : Except DescriptorError Signature :=
  ofBytes descriptor.toUTF8.toList

/-- The types of the incoming values: the receiver of an instance method comes first. -/
def incoming (s : Signature) (static : Bool) : List DeclaredType :=
  if static then s.arguments else .reference :: s.arguments

/-- The number of registers which values of these types take. -/
def totalWidth (types : List DeclaredType) : UInt64 :=
  types.foldl (fun n t => n + t.width) 0

/-- Consecutive parameters of the given types, from a slot on. -/
def layOut (slot : UInt64) : List DeclaredType → List Parameter
  | [] => []
  | t :: ts => ⟨⟨slot⟩, t⟩ :: layOut (slot + t.width) ts

/-- The file of `size` registers whose last ones hold the incoming values. -/
def allocate (s : Signature) (size : UInt64) (static : Bool) : Except DescriptorError File :=
  let types := s.incoming static
  let needed := totalWidth types
  if size < needed then .error (.tooFewRegisters needed size)
  else (File.new size (layOut (size - needed) types)).mapError .file

end Signature

/-- The register file and result type of a method, from the bytes of its descriptor. -/
def File.ofBytes (size : UInt64) (static : Bool) (text : List UInt8) :
    Except DescriptorError (File × DeclaredType) := do
  let signature ← Signature.ofBytes text
  let file ← signature.allocate size static
  return (file, signature.returns)

/-- The register file and result type of a method, from its descriptor. -/
def File.ofDescriptor (size : UInt64) (static : Bool) (descriptor : String) :
    Except DescriptorError (File × DeclaredType) :=
  File.ofBytes size static descriptor.toUTF8.toList

/-- The register file and result type of a method, from the bytes of its descriptor; if the incoming
values fit the file, there must be room for its marks. -/
def File.setUpBytes (size : UInt64) (static : Bool) (text : List UInt8) :
    Except Fault (Except DescriptorError (File × DeclaredType)) :=
  match File.ofBytes size static text with
  | .error e => .ok (.error e)
  | .ok shape => do
    reserve size.toNat 1
    return .ok shape

/-- The register file and result type of a method, from its descriptor, and room for its marks. -/
def File.setUpFrom (size : UInt64) (static : Bool) (descriptor : String) :
    Except Fault (Except DescriptorError (File × DeclaredType)) :=
  File.setUpBytes size static descriptor.toUTF8.toList

end BytecodeVerifier.Register
