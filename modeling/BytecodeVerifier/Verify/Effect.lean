import BytecodeVerifier.Dataflow.State
import BytecodeVerifier.Method

/-!
# Effects — what an instruction does to a state

Writing a register breaks the pair that the register was half of: its other half becomes `⊤`.  A low
half is written together with the high half that continues it.  A move writes whatever its source
holds; any other instruction writes the values which its operands determine.

Nothing is checked here.  Where a slot lies outside the frame, also the one beside a half that is
overwritten, the effect faults.
-/

namespace BytecodeVerifier

namespace Dataflow.State

/-- Breaks the pair, if any, which a register holds half of. -/
def clobber (s : State) (r : Register) : Except Fault State := do
  let v ← s.get r
  if v.isWideLow then s.set r.next .conflict
  else if v.isWideHigh then s.set r.previous .conflict
  else return s

/-- Writes a value, and after a low half the half which continues it. -/
def write (s : State) (r : Register) (v : Value) : Except Fault State := do
  let s ← s.clobber r
  match v.high? with
  | some high =>
    let s ← s.clobber r.next
    let s ← s.set r v
    s.set r.next high
  | none => s.set r v

/-- Writes the values which the operands determine. -/
def writeAll : List Operand → List Register → State → Except Fault State
  | [], _, s => .ok s
  | o :: os, rs, s =>
    if o.isDefine then
      match rs with
      | [] => .error .outOfBounds
      | r :: rs => do
        let v ← o.constraint.value
        let s ← s.write r v
        writeAll os rs s
    else writeAll os rs.tail s

end Dataflow.State

namespace Instruction

open Dataflow

/-- The state after an instruction. -/
def effect (i : Instruction) (s : State) : Except Fault State :=
  if i.opcode.family = .move then
    match i.registers with
    | target :: source :: _ => do
      let v ← s.get source
      s.write target v
    | _ => .error .outOfBounds
  else State.writeAll i.opcode.operands i.registers s

end Instruction

namespace Method

open Dataflow

/-- The instruction at a position. -/
def instruction (m : Method) (pc : Nat) : Except Fault Instruction :=
  match m.code[pc]? with
  | some i => .ok i
  | none => .error .outOfBounds

/-- The state after the instruction at a position. -/
def effectAt (m : Method) (s : State) (pc : Nat) : Except Fault State := do
  let i ← m.instruction pc
  i.effect s

/-- The state after the instructions at some positions, one after the other. -/
def effectAlong (m : Method) (s : State) (pcs : List Nat) : Except Fault State :=
  pcs.foldlM m.effectAt s

/-- The state with a parameter in its slots. -/
def receive (s : State) (p : Register.Parameter) : Except Fault State := do
  let v ← p.type.value
  let s ← s.set p.slot v
  match v.high? with
  | some high => s.set p.slot.next high
  | none => return s

/-- The state on entry: the parameters are in their slots, and nothing else is written. -/
def initialState (m : Method) : Except Fault State :=
  m.registers.parameters.foldlM receive (.blank m.registers.size.toNat)

end Method

/-! ### Effects keep the frame -/

namespace Dataflow.State

theorem size_clobber {s t : State} {r : Register} (h : s.clobber r = .ok t) : t.size = s.size := by
  unfold clobber at h
  obtain ⟨v, _, h⟩ := exists_of_bind_eq_ok h
  split at h
  · exact size_set h
  · split at h
    · exact size_set h
    · cases h; rfl

theorem size_write {s t : State} {r : Register} {v : Value} (h : s.write r v = .ok t) :
    t.size = s.size := by
  unfold write at h
  obtain ⟨s₁, h₁, h⟩ := exists_of_bind_eq_ok h
  rw [← size_clobber h₁]
  split at h
  · obtain ⟨s₂, h₂, h⟩ := exists_of_bind_eq_ok h
    obtain ⟨s₃, h₃, h⟩ := exists_of_bind_eq_ok h
    rw [← size_clobber h₂, ← size_set h₃]
    exact size_set h
  · exact size_set h

theorem size_writeAll {os : List Operand} {rs : List Register} {s t : State}
    (h : writeAll os rs s = .ok t) : t.size = s.size := by
  induction os generalizing rs s with
  | nil => cases h; rfl
  | cons o os ih =>
      unfold writeAll at h
      split at h
      · split at h
        · cases h
        · obtain ⟨v, _, h⟩ := exists_of_bind_eq_ok h
          obtain ⟨s₁, h₁, h⟩ := exists_of_bind_eq_ok h
          rw [← size_write h₁]
          exact ih h
      · exact ih h

end Dataflow.State

open Dataflow

theorem Instruction.size_effect {i : Instruction} {s t : State} (h : i.effect s = .ok t) :
    t.size = s.size := by
  unfold effect at h
  split at h
  · split at h
    · obtain ⟨v, _, h⟩ := exists_of_bind_eq_ok h
      exact State.size_write h
    · cases h
  · exact State.size_writeAll h

theorem Method.size_effectAlong {m : Method} {pcs : List Nat} {s t : State}
    (h : m.effectAlong s pcs = .ok t) : t.size = s.size := by
  induction pcs generalizing s with
  | nil => cases h; rfl
  | cons pc pcs ih =>
      unfold effectAlong at h
      rw [List.foldlM_cons] at h
      obtain ⟨s₁, h₁, h⟩ := exists_of_bind_eq_ok h
      obtain ⟨i, _, h₁⟩ := exists_of_bind_eq_ok h₁
      rw [← Instruction.size_effect h₁]
      exact ih h

theorem Method.size_receive {s t : State} {p : Register.Parameter} (h : receive s p = .ok t) :
    t.size = s.size := by
  unfold receive at h
  obtain ⟨v, _, h⟩ := exists_of_bind_eq_ok h
  obtain ⟨s₁, h₁, h⟩ := exists_of_bind_eq_ok h
  rw [← State.size_set h₁]
  split at h
  · exact State.size_set h
  · cases h; rfl

/-- The state on entry has a slot for every register. -/
theorem Method.size_initialState {m : Method} {s : State} (h : m.initialState = .ok s) :
    s.size = m.registers.size.toNat := by
  have key : ∀ (ps : List Register.Parameter) (s t : State),
      ps.foldlM receive s = .ok t → t.size = s.size := by
    intro ps
    induction ps with
    | nil => intro s t h; cases h; rfl
    | cons p ps ih =>
        intro s t h
        rw [List.foldlM_cons] at h
        obtain ⟨s₁, h₁, h⟩ := exists_of_bind_eq_ok h
        rw [← size_receive h₁]
        exact ih _ _ h
  rw [key _ _ _ h, State.size_blank]

end BytecodeVerifier
