import BytecodeVerifier.Assembly.Statement
import BytecodeVerifier.Method

/-!
# Assembly — methods written as text

A source is a sequence of methods.  A method has a header `.method`, modifiers, its name and its
descriptor, then `.registers` and the number of registers, a body of statements, and `.end method`.
`assemble` gives the methods of a source, with the span of every header and instruction, or the
first complaint about it.
-/

namespace BytecodeVerifier

/-- A method, and where it stands in its source. -/
structure AssembledMethod where
  method : Method
  source : Source
  /-- The span of the header. -/
  header : Source.Span
  /-- The span of each instruction. -/
  spans : Array Source.Span
  deriving DecidableEq, Repr, Inhabited

namespace AssembledMethod

/-- A message about an instruction, or about the header if there is no such instruction. -/
def diagnostic (m : AssembledMethod) (index : Nat) (message : String) : Diagnostic :=
  ⟨m.source, m.spans.getD index m.header, message⟩

end AssembledMethod

namespace Assembly

open Cursor

/-! ### Bodies -/

/-- The instructions of a body, of which `pc` have been read, up to `.end`. -/
def body (file : Register.File) (pc : Nat) (c : Cursor) :
    Except Failure (List (Instruction × Source.Span) × Cursor) :=
  match c.peek with
  | .error e => .error e
  | .ok t =>
    if t.kind = .endKeyword then .ok ([], c)
    else if t.kind = .colon then
      match _h : label pc c with
      | .error e => .error e
      | .ok (_, c) => body file pc c
    else
      match _h : instruction file c with
      | .error e => .error e
      | .ok (i, c) =>
        match body file (pc + 1) c with
        | .error e => .error e
        | .ok (is, c) => .ok (i :: is, c)
termination_by c.length
decreasing_by
  · exact length_label ‹_›
  · exact length_instruction ‹_›

theorem length_body {file : Register.File} {pc : Nat} {c c' : Cursor}
    {is : List (Instruction × Source.Span)} (h : body file pc c = .ok (is, c')) :
    c'.length ≤ c.length := by
  fun_induction body file pc c generalizing is c' with
  | case1 => cases h
  | case2 => cases h; exact Nat.le_refl _
  | case3 => cases h
  | case4 pc c t _ _ _ u c₁ h₁ ih => exact Nat.le_trans (ih h) (Nat.le_of_lt (length_label h₁))
  | case5 => cases h
  | case6 => cases h
  | case7 pc c t _ _ _ i c₁ h₁ is₁ c₂ h₂ ih =>
      cases h
      exact Nat.le_trans (ih h₂) (Nat.le_of_lt (length_instruction h₁))

/-! ### Methods -/

/-- The header of a method. -/
structure Header where
  name : String
  isStatic : Bool
  descriptor : Token
  span : Source.Span
  deriving DecidableEq, Repr, Inhabited

/-- The identifiers up to one which a descriptor follows are modifiers: whether `static` is among
them, and the tokens after them. -/
def modifiers : List Token → Bool × List Token
  | [] => (false, [])
  | t :: rest =>
    if t.kind = .identifier ∧ rest.head?.map Token.kind ≠ some .descriptor then
      let (isStatic, rest) := modifiers rest
      (t.text == "static" || isStatic, rest)
    else (false, t :: rest)

/-- The header of a method. -/
def header : Step Header := fun c => do
  let (keyword, c) ← c.expect .methodKeyword
  let (isStatic, rest) := modifiers c.rest
  let (name, c) ← { c with rest }.expect .identifier
  let (descriptor, c) ← c.expect .descriptor
  let span ← c.spanFrom keyword.start
  return (⟨name.text, isStatic, descriptor, span⟩, c)

/-- The register file of a method and its declared result, from the number of registers. -/
def registerFile (h : Header) : Step (Register.File × DeclaredType) := fun c => do
  let (_, c) ← c.expect .registersKeyword
  let (count, c) ← c.expect .number
  match Numeral.natural? 16 count.text.toList with
  | none => .error (.complaint count.span .invalidRegisterCount)
  | some n =>
    match Register.File.ofDescriptor (UInt64.ofNat n) h.isStatic h.descriptor.text with
    | .error e => .error (.complaint h.descriptor.span (.descriptor h.descriptor.text e))
    | .ok shape => return (shape, c)

/-- The end of a method. -/
def ending : Step Unit := fun c => do
  let (_, c) ← c.expect .endKeyword
  let (word, c) ← c.expect .identifier
  if word.text = "method" then return ((), c)
  else .error (.complaint word.span (.expected "method"))

/-- A method, whose labels are its own. -/
def method (f : Source) : Step AssembledMethod := fun c => do
  let (h, c) ← header { c with labels := .empty }
  let ((file, returns), c) ← registerFile h c
  let (statements, c) ← body file 0 c
  let (_, c) ← ending c
  match ← orFault (c.labels.resolve (statements.map Prod.fst)) with
  | .error label => .error (.complaint label.span (.unknownLabel label.name))
  | .ok code =>
    return (⟨⟨h.name, file, returns, code.toArray⟩, f, h.span,
      (statements.map Prod.snd).toArray⟩, c)

theorem length_modifiers (ts : List Token) : (modifiers ts).2.length ≤ ts.length := by
  induction ts with
  | nil => exact Nat.le_refl _
  | cons t ts ih =>
      unfold modifiers
      split
      · exact Nat.le_trans ih (Nat.le_succ _)
      · exact Nat.le_refl _

theorem length_header {c c' : Cursor} {h : Header} (hh : header c = .ok (h, c')) :
    c'.length < c.length := by
  obtain ⟨⟨_, c₁⟩, h₁, hh⟩ := exists_of_bind_eq_ok hh
  obtain ⟨⟨_, c₂⟩, h₂, hh⟩ := exists_of_bind_eq_ok hh
  obtain ⟨⟨_, c₃⟩, h₃, hh⟩ := exists_of_bind_eq_ok hh
  obtain ⟨_, _, hh⟩ := exists_of_bind_eq_ok hh
  have := length_expect h₁
  have := length_expect h₂
  have := length_expect h₃
  have := length_modifiers c₁.rest
  cases hh
  simp only [Cursor.length] at *
  omega

theorem length_registerFile {h : Header} {c c' : Cursor} {p : Register.File × DeclaredType}
    (hh : registerFile h c = .ok (p, c')) : c'.length ≤ c.length := by
  obtain ⟨⟨_, c₁⟩, h₁, hh⟩ := exists_of_bind_eq_ok hh
  obtain ⟨⟨_, c₂⟩, h₂, hh⟩ := exists_of_bind_eq_ok hh
  have := length_expect h₁
  have := length_expect h₂
  dsimp only at *
  split at hh
  · cases hh
  · split at hh
    · cases hh
    · cases hh; omega

theorem length_ending {c c' : Cursor} {u : Unit} (h : ending c = .ok (u, c')) :
    c'.length ≤ c.length := by
  obtain ⟨⟨_, c₁⟩, h₁, h⟩ := exists_of_bind_eq_ok h
  obtain ⟨⟨_, c₂⟩, h₂, h⟩ := exists_of_bind_eq_ok h
  have := length_expect h₁
  have := length_expect h₂
  dsimp only at *
  split at h
  · cases h; omega
  · cases h

/-- Reading a method consumes tokens. -/
theorem length_method {f : Source} {c c' : Cursor} {m : AssembledMethod}
    (h : method f c = .ok (m, c')) : c'.length < c.length := by
  obtain ⟨⟨_, c₁⟩, h₁, h⟩ := exists_of_bind_eq_ok h
  obtain ⟨⟨⟨_, _⟩, c₂⟩, h₂, h⟩ := exists_of_bind_eq_ok h
  obtain ⟨⟨_, c₃⟩, h₃, h⟩ := exists_of_bind_eq_ok h
  obtain ⟨⟨_, c₄⟩, h₄, h⟩ := exists_of_bind_eq_ok h
  obtain ⟨_, _, h⟩ := exists_of_bind_eq_ok h
  have := length_header h₁
  have := length_registerFile h₂
  have := length_body h₃
  have := length_ending h₄
  split at h
  · cases h
  · cases h; simp only [Cursor.length] at *; omega

/-- The methods of a source, none of which may have one of the names already taken. -/
def methods (f : Source) (taken : List String) (c : Cursor) :
    Except Failure (List AssembledMethod) :=
  match c.peek with
  | .error e => .error e
  | .ok t =>
    if t.kind = .endOfText then .ok []
    else if t.kind = .methodKeyword then
      match _h : method f c with
      | .error e => .error e
      | .ok (m, c) =>
        if taken.contains m.method.name then .error (.complaint m.header .duplicateMethod)
        else
          match methods f (m.method.name :: taken) c with
          | .error e => .error e
          | .ok ms => .ok (m :: ms)
    else .error (.complaint t.span .unknownDeclaration)
termination_by c.length
decreasing_by exact length_method ‹_›

/-- The methods of a source. -/
def assemble (f : Source) : Except Failure (List AssembledMethod) :=
  match tokens f with
  | .error span => .error (.complaint span .unknownText)
  | .ok ts => methods f [] ⟨ts, 0, .empty⟩

end Assembly

end BytecodeVerifier
