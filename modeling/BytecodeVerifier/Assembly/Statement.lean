import BytecodeVerifier.Assembly.Cursor
import BytecodeVerifier.Assembly.RegisterName
import BytecodeVerifier.Opcode.Table

/-!
# Statements — the labels and instructions of a method

A statement is a label `:name`, which stands for the position of the next instruction, or an
instruction: its mnemonic, its registers, and then a literal or targets, separated by commas.  The
opcode decides what follows the mnemonic.  Every step reads at least one token, which is why reading
a body ends.
-/

namespace BytecodeVerifier.Assembly

open Cursor

/-! ### Parts of instructions -/

/-- A register. -/
def register (file : Register.File) : Step Register := fun c => do
  let (t, c) ← c.expect .identifier
  match file.named? t.text with
  | some r => return (r, c)
  | none => .error (.complaint t.span .unknownRegister)

/-- A comma and a register for each of some operands. -/
def moreRegisters (file : Register.File) : List Operand → Step (List Register)
  | [], c => .ok ([], c)
  | _ :: os, c => do
    let (_, c) ← c.expect .comma
    let (r, c) ← register file c
    let (rs, c) ← moreRegisters file os c
    return (r :: rs, c)

/-- A register for each operand, separated by commas. -/
def registers (file : Register.File) : List Operand → Step (List Register)
  | [], c => .ok ([], c)
  | _ :: os, c => do
    let (r, c) ← register file c
    let (rs, c) ← moreRegisters file os c
    return (r :: rs, c)

/-- A number, of which the sign has been read. -/
def number (negative : Bool) : Step Int64 := fun c => do
  let (t, c) ← c.expect .number
  match Numeral.signed? (if negative then '-' :: t.text.toList else t.text.toList) with
  | some n => return (Int64.ofInt n, c)
  | none => .error (.complaint t.span .invalidNumber)

/-- A literal: a number, or a string or a type, which count as zero. -/
def literal : Step Int64 := fun c => do
  let (t, rest) ← c.take
  match t.kind with
  | .minus => number true rest
  | .string | .type => return (0, rest)
  | _ => number false c

/-- A target `:name`, by the number of its label. -/
def target : Step UInt64 := fun c => do
  let (colon, c) ← c.expect .colon
  let (name, c) ← c.expect .identifier
  let span ← c.spanFrom colon.start
  let (i, labels) := c.labels.bind name.text span
  return (UInt64.ofNat i, { c with labels })

theorem length_target {c c' : Cursor} {i : UInt64} (h : target c = .ok (i, c')) :
    c'.length < c.length := by
  obtain ⟨⟨_, c₁⟩, h₁, h⟩ := exists_of_bind_eq_ok h
  obtain ⟨⟨_, c₂⟩, h₂, h⟩ := exists_of_bind_eq_ok h
  obtain ⟨_, _, h⟩ := exists_of_bind_eq_ok h
  have := length_expect h₁
  have := length_expect h₂
  cases h
  simp only [Cursor.length] at *
  omega

/-- The targets of a table up to the closing bracket, after the first. -/
def moreTargets (c : Cursor) : Except Failure (List UInt64 × Cursor) :=
  match _h₁ : c.take with
  | .error e => .error e
  | .ok (t, rest) =>
    if t.kind = .rightCurly then .ok ([], rest)
    else if t.kind = .comma then
      match _h₂ : target rest with
      | .error e => .error e
      | .ok (i, rest) =>
        match moreTargets rest with
        | .error e => .error e
        | .ok (is, rest) => .ok (i :: is, rest)
    else .error (.complaint t.span .unexpectedToken)
termination_by c.length
decreasing_by
  have := length_take ‹_›
  have := length_target ‹_›
  omega

/-- A table of targets in curly brackets. -/
def targetTable : Step (List UInt64) := fun c => do
  let (_, c) ← c.expect .leftCurly
  let (t, rest) ← c.take
  if t.kind = .rightCurly then return ([], rest)
  let (i, c) ← target c
  let (is, c) ← moreTargets c
  return (i :: is, c)

/-! ### Instructions -/

/-- The comma between the registers of an instruction and what follows them, if both are there. -/
def separator (op : Opcode) : Step Unit := fun c => do
  if (op.hasLiteral || op.branches) && !op.operands.isEmpty then
    let (_, c) ← c.expect .comma
    return ((), c)
  else return ((), c)

/-- What follows the registers of an instruction: the instruction is then complete. -/
def completion (op : Opcode) (rs : List Register) : Step Instruction := fun c => do
  if op.hasLiteral then
    let (n, c) ← literal c
    let i ← orFault (Instruction.withLiteral op n rs)
    return (i, c)
  else if op.family = .switch then
    let (targets, c) ← targetTable c
    let i ← orFault (Instruction.branch op targets rs)
    return (i, c)
  else if op.branches then
    let (t, c) ← target c
    let i ← orFault (Instruction.branch op [t] rs)
    return (i, c)
  else
    let i ← orFault (Instruction.plain op rs)
    return (i, c)

/-- The type which may follow an operation on objects or arrays is passed over. -/
def skipType (op : Opcode) (c : Cursor) : Cursor :=
  if op.family = .object ∨ op.family = .array then
    match c.rest with
    | comma :: type :: rest =>
      if comma.kind = .comma ∧ type.kind = .type then { c with rest, last := type.stop } else c
    | _ => c
  else c

/-- An instruction, and where it stands. -/
def instruction (file : Register.File) : Step (Instruction × Source.Span) := fun c => do
  let (mnemonic, c) ← c.expect .identifier
  match Opcode.find? mnemonic.text with
  | none => .error (.complaint mnemonic.span .unknownInstruction)
  | some op =>
    let (rs, c) ← registers file op.operands c
    let (_, c) ← separator op c
    let (i, c) ← completion op rs c
    let c := skipType op c
    let span ← c.spanFrom mnemonic.start
    return ((i, span), c)

/-- A label, which stands for a position. -/
def label (pc : Nat) : Step Unit := fun c => do
  let (colon, c) ← c.expect .colon
  let (name, c) ← c.expect .identifier
  let span ← c.spanFrom colon.start
  match c.labels.declare name.text (UInt64.ofNat pc) span with
  | (true, labels) => return ((), { c with labels })
  | (false, _) => .error (.complaint span .duplicateLabel)

/-! ### Progress -/

theorem length_register {file : Register.File} {c c' : Cursor} {r : Register}
    (h : register file c = .ok (r, c')) : c'.length < c.length := by
  obtain ⟨⟨t, c₁⟩, h₁, h⟩ := exists_of_bind_eq_ok h
  have := length_expect h₁
  simp only [] at h
  split at h
  · cases h; omega
  · cases h

theorem length_moreRegisters {file : Register.File} {os : List Operand} {c c' : Cursor}
    {rs : List Register} (h : moreRegisters file os c = .ok (rs, c')) : c'.length ≤ c.length := by
  induction os generalizing c c' rs with
  | nil => cases h; exact Nat.le_refl _
  | cons o os ih =>
      obtain ⟨⟨_, c₁⟩, h₁, h⟩ := exists_of_bind_eq_ok h
      obtain ⟨⟨_, c₂⟩, h₂, h⟩ := exists_of_bind_eq_ok h
      obtain ⟨⟨_, c₃⟩, h₃, h⟩ := exists_of_bind_eq_ok h
      have := length_expect h₁
      have := length_register h₂
      have := ih h₃
      cases h
      omega

theorem length_registers {file : Register.File} {os : List Operand} {c c' : Cursor}
    {rs : List Register} (h : registers file os c = .ok (rs, c')) : c'.length ≤ c.length := by
  cases os with
  | nil => cases h; exact Nat.le_refl _
  | cons o os =>
      obtain ⟨⟨_, c₁⟩, h₁, h⟩ := exists_of_bind_eq_ok h
      obtain ⟨⟨_, c₂⟩, h₂, h⟩ := exists_of_bind_eq_ok h
      have := length_register h₁
      have := length_moreRegisters h₂
      cases h
      omega

theorem length_number {negative : Bool} {c c' : Cursor} {n : Int64}
    (h : number negative c = .ok (n, c')) : c'.length ≤ c.length := by
  obtain ⟨⟨t, c₁⟩, h₁, h⟩ := exists_of_bind_eq_ok h
  have := length_expect h₁
  simp only [] at h
  split at h
  · cases h; omega
  · cases h

theorem length_literal {c c' : Cursor} {n : Int64} (h : literal c = .ok (n, c')) :
    c'.length ≤ c.length := by
  obtain ⟨⟨t, c₁⟩, h₁, h⟩ := exists_of_bind_eq_ok h
  have := length_take h₁
  simp only [] at h
  split at h
  · have := length_number h; omega
  · cases h; omega
  · cases h; omega
  · exact length_number h

theorem length_moreTargets {c c' : Cursor} {is : List UInt64}
    (h : moreTargets c = .ok (is, c')) : c'.length ≤ c.length := by
  fun_induction moreTargets c generalizing is c' with
  | case1 => cases h
  | case2 c t rest h₁ _ => cases h; have := length_take h₁; omega
  | case3 => cases h
  | case4 => cases h
  | case5 c t rest h₁ _ _ i rest₁ h₂ is₁ rest₂ h₃ ih =>
      cases h
      have := length_take h₁
      have := length_target h₂
      have := ih h₃
      omega
  | case6 => cases h

theorem length_targetTable {c c' : Cursor} {is : List UInt64}
    (h : targetTable c = .ok (is, c')) : c'.length ≤ c.length := by
  obtain ⟨⟨_, c₁⟩, h₁, h⟩ := exists_of_bind_eq_ok h
  obtain ⟨⟨t, c₂⟩, h₂, h⟩ := exists_of_bind_eq_ok h
  have := length_expect h₁
  have := length_take h₂
  simp only [] at h
  split at h
  · cases h; omega
  · obtain ⟨⟨_, c₃⟩, h₃, h⟩ := exists_of_bind_eq_ok h
    obtain ⟨⟨_, c₄⟩, h₄, h⟩ := exists_of_bind_eq_ok h
    have := length_target h₃
    have := length_moreTargets h₄
    cases h
    dsimp only at *
    omega

theorem length_separator {op : Opcode} {c c' : Cursor} {u : Unit}
    (h : separator op c = .ok (u, c')) : c'.length ≤ c.length := by
  unfold separator at h
  split at h
  · obtain ⟨⟨_, c₁⟩, h₁, h⟩ := exists_of_bind_eq_ok h
    have := length_expect h₁
    cases h
    omega
  · cases h; exact Nat.le_refl _

theorem length_completion {op : Opcode} {rs : List Register} {c c' : Cursor} {i : Instruction}
    (h : completion op rs c = .ok (i, c')) : c'.length ≤ c.length := by
  unfold completion at h
  split at h
  · obtain ⟨⟨_, c₁⟩, h₁, h⟩ := exists_of_bind_eq_ok h
    obtain ⟨_, _, h⟩ := exists_of_bind_eq_ok h
    cases h
    exact length_literal h₁
  · split at h
    · obtain ⟨⟨_, c₁⟩, h₁, h⟩ := exists_of_bind_eq_ok h
      obtain ⟨_, _, h⟩ := exists_of_bind_eq_ok h
      cases h
      exact length_targetTable h₁
    · split at h
      · obtain ⟨⟨_, c₁⟩, h₁, h⟩ := exists_of_bind_eq_ok h
        obtain ⟨_, _, h⟩ := exists_of_bind_eq_ok h
        cases h
        exact Nat.le_of_lt (length_target h₁)
      · obtain ⟨_, _, h⟩ := exists_of_bind_eq_ok h
        cases h
        exact Nat.le_refl _

theorem length_skipType (op : Opcode) (c : Cursor) : (skipType op c).length ≤ c.length := by
  unfold skipType
  split
  · split
    · next heq =>
        split
        · simp [Cursor.length, heq]; omega
        · exact Nat.le_refl _
    · exact Nat.le_refl _
  · exact Nat.le_refl _

/-- Reading an instruction consumes tokens. -/
theorem length_instruction {file : Register.File} {c c' : Cursor} {p : Instruction × Source.Span}
    (h : instruction file c = .ok (p, c')) : c'.length < c.length := by
  obtain ⟨⟨t, c₁⟩, h₁, h⟩ := exists_of_bind_eq_ok h
  have := length_expect h₁
  simp only [] at h
  split at h
  · cases h
  · next op _ =>
      obtain ⟨⟨_, c₂⟩, h₂, h⟩ := exists_of_bind_eq_ok h
      obtain ⟨⟨_, c₃⟩, h₃, h⟩ := exists_of_bind_eq_ok h
      obtain ⟨⟨_, c₄⟩, h₄, h⟩ := exists_of_bind_eq_ok h
      obtain ⟨_, _, h⟩ := exists_of_bind_eq_ok h
      have := length_registers h₂
      have := length_separator h₃
      have := length_completion h₄
      have := length_skipType op c₄
      cases h
      dsimp only at *
      omega

/-- Reading a label consumes tokens. -/
theorem length_label {pc : Nat} {c c' : Cursor} {u : Unit} (h : label pc c = .ok (u, c')) :
    c'.length < c.length := by
  obtain ⟨⟨_, c₁⟩, h₁, h⟩ := exists_of_bind_eq_ok h
  obtain ⟨⟨_, c₂⟩, h₂, h⟩ := exists_of_bind_eq_ok h
  obtain ⟨_, _, h⟩ := exists_of_bind_eq_ok h
  have := length_expect h₁
  have := length_expect h₂
  split at h
  · cases h; simp only [Cursor.length] at *; omega
  · cases h

end BytecodeVerifier.Assembly
