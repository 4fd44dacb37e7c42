import BytecodeVerifier.Proofs.Writing
import BytecodeVerifier.Verify.Check

/-!
# Transfer — what an instruction demands of a state and writes into it

The effect of an instruction is a list of writes, one after the other: `Instruction.outputs` are the
registers written, each with its value, and the effect succeeds just when they can all be written
(`effect_eq_ok_iff`).  Only a move looks at the state to know what it writes.

A register passes the check of an operand just when it holds a value that the operand accepts and,
where the operand is wide, the next register continues it (`checkUse_eq_none_iff`).  A check looks
at the state through `checkUse` alone, so what holds of every operand holds of the instruction
(`Instruction.check_of_checkUse`).
-/

namespace BytecodeVerifier

/-! ### What constraints accept and determine -/

namespace Constraint

theorem isDefined_of_accepts {c : Constraint} {v : Value} (h : c.accepts v = true) :
    v.isDefined = true := by
  revert h
  cases c <;> cases v <;> decide

theorem low?_of_accepts {c : Constraint} {v : Value} (h : c.accepts v = true) : v.low? = none := by
  revert h
  cases c <;> cases v <;> decide

theorem not_isWideHigh_of_accepts {c : Constraint} {v : Value} (h : c.accepts v = true) :
    ¬ v.isWideHigh = true := by
  revert h
  cases c <;> cases v <;> decide

/-- A wide constraint accepts low halves only, and no other constraint accepts one. -/
theorem isWideLow_of_accepts {c : Constraint} {v : Value} (h : c.accepts v = true) :
    v.isWideLow = c.isWide := by
  revert h
  cases c <;> cases v <;> decide

theorem accepts_of_value {c : Constraint} {v : Value} (h : c.value = .ok v) :
    c.accepts v = true := by
  cases c <;> cases h <;> rfl

end Constraint

namespace Dataflow.State

/-! ### Writing several registers -/

/-- The state after several registers are written, one after the other. -/
def writeEach (s : State) (ws : List (Register × Value)) : Except Fault State :=
  ws.foldlM (fun s w => s.write w.1 w.2) s

theorem writeEach_nil (s : State) : s.writeEach [] = .ok s := rfl

theorem writeEach_cons (s : State) (w : Register × Value) (ws : List (Register × Value)) :
    s.writeEach (w :: ws) = s.write w.1 w.2 >>= fun t => t.writeEach ws := rfl

/-- What the first of several writes, and then the others, do. -/
theorem writeEach_cons_eq_ok {s t : State} {w : Register × Value} {ws : List (Register × Value)}
    (h : s.writeEach (w :: ws) = .ok t) :
    ∃ s₁, s.write w.1 w.2 = .ok s₁ ∧ s₁.writeEach ws = .ok t :=
  exists_of_bind_eq_ok h

end Dataflow.State

namespace Instruction

open Dataflow

/-! ### What an instruction writes -/

/-- The registers at the operands which are written, each with the value which its operand
determines. -/
def determined : List Operand → List Register → Except Fault (List (Register × Value))
  | [], _ => .ok []
  | o :: os, rs =>
    if o.isDefine then
      match rs with
      | [] => .error .outOfBounds
      | r :: rs => do
        let v ← o.constraint.value
        let ws ← determined os rs
        return (r, v) :: ws
    else determined os rs.tail

/-- The registers which an instruction writes in a state, each with its value: a move writes what
its source holds. -/
def outputs (i : Instruction) (s : State) : Except Fault (List (Register × Value)) :=
  if i.opcode.family = .move then
    match i.registers with
    | target :: source :: _ => do
      let v ← s.get source
      return [(target, v)]
    | _ => .error .outOfBounds
  else determined i.opcode.operands i.registers

theorem writeAll_eq_ok_iff {os : List Operand} {rs : List Register} {s t : State} :
    State.writeAll os rs s = .ok t ↔
      ∃ ws, determined os rs = .ok ws ∧ s.writeEach ws = .ok t := by
  induction os generalizing rs s with
  | nil => simp [State.writeAll, determined, State.writeEach_nil]
  | cons o os ih =>
      unfold State.writeAll determined
      by_cases hdef : o.isDefine = true
      · rw [if_pos hdef, if_pos hdef]
        cases rs with
        | nil => simp
        | cons r rs =>
            constructor
            · intro h
              obtain ⟨v, hv, h⟩ := exists_of_bind_eq_ok h
              obtain ⟨s₁, h₁, h⟩ := exists_of_bind_eq_ok h
              obtain ⟨ws, hws, h⟩ := ih.mp h
              refine ⟨(r, v) :: ws, by simp only [hv, hws]; rfl, ?_⟩
              rw [State.writeEach_cons, h₁]
              exact h
            · rintro ⟨ws', hws', h⟩
              obtain ⟨v, hv, hws'⟩ := exists_of_bind_eq_ok hws'
              obtain ⟨ws, hws, hws'⟩ := exists_of_bind_eq_ok hws'
              cases hws'
              obtain ⟨s₁, h₁, h⟩ := State.writeEach_cons_eq_ok h
              rw [hv]
              simp only [bind, Except.bind, h₁]
              exact ih.mpr ⟨ws, hws, h⟩
      · rw [if_neg hdef, if_neg hdef]
        exact ih

/-- **What an effect does**: it writes the outputs, one after the other. -/
theorem effect_eq_ok_iff {i : Instruction} {s t : State} :
    i.effect s = .ok t ↔ ∃ ws, i.outputs s = .ok ws ∧ s.writeEach ws = .ok t := by
  unfold effect outputs
  by_cases hm : i.opcode.family = .move
  · rw [if_pos hm, if_pos hm]
    match i.registers with
    | [] => simp
    | [_] => simp
    | target :: source :: _ =>
        cases hg : s.get source with
        | error f => simp [hg, bind, Except.bind]
        | ok v =>
            simp only [hg, bind, Except.bind, pure, Except.pure]
            constructor
            · intro h
              refine ⟨[(target, v)], rfl, ?_⟩
              rw [State.writeEach_cons, h]
              rfl
            · rintro ⟨ws, hws, h⟩
              cases hws
              obtain ⟨s₁, h₁, h⟩ := State.writeEach_cons_eq_ok h
              cases h
              exact h₁
  · rw [if_neg hm, if_neg hm]
    exact writeAll_eq_ok_iff

/-- The value of an output which no state decides is one that its operand accepts. -/
theorem accepts_of_mem_determined {os : List Operand} {rs : List Register}
    {ws : List (Register × Value)} (h : determined os rs = .ok ws) {w : Register × Value}
    (hw : w ∈ ws) : ∃ o, (o, w.1) ∈ os.zip rs ∧ o.isDefine = true ∧
      o.constraint.accepts w.2 = true := by
  induction os generalizing rs ws with
  | nil => cases h; cases hw
  | cons o os ih =>
      unfold determined at h
      by_cases hdef : o.isDefine = true
      · rw [if_pos hdef] at h
        cases rs with
        | nil => cases h
        | cons r rs =>
            obtain ⟨v, hv, h⟩ := exists_of_bind_eq_ok h
            obtain ⟨ws', hws', h⟩ := exists_of_bind_eq_ok h
            cases h
            rcases List.mem_cons.mp hw with rfl | hw
            · exact ⟨o, List.mem_cons_self, hdef, Constraint.accepts_of_value hv⟩
            · obtain ⟨o', hmem, hd⟩ := ih hws' hw
              exact ⟨o', List.mem_cons_of_mem _ hmem, hd⟩
      · rw [if_neg hdef] at h
        cases rs with
        | nil =>
            obtain ⟨o', hmem, -⟩ := ih h hw
            simp at hmem
        | cons r rs =>
            obtain ⟨o', hmem, hd⟩ := ih h hw
            exact ⟨o', List.mem_cons_of_mem _ hmem, hd⟩

/-- The one output of a move. -/
theorem outputs_of_move {i : Instruction} {s : State} {ws : List (Register × Value)}
    (hm : i.opcode.family = .move) (h : i.outputs s = .ok ws) :
    ∃ target source rest, i.registers = target :: source :: rest ∧
      source.toNat < s.size ∧ ws = [(target, s.valueAt source.toNat)] := by
  unfold outputs at h
  rw [if_pos hm] at h
  match hr : i.registers with
  | [] => rw [hr] at h; cases h
  | [_] => rw [hr] at h; cases h
  | target :: source :: rest =>
      rw [hr] at h
      obtain ⟨v, hv, h⟩ := exists_of_bind_eq_ok h
      obtain ⟨hlt, rfl⟩ := State.get_eq_ok_iff.mp hv
      cases h
      exact ⟨target, source, rest, rfl, hlt, rfl⟩

end Instruction

namespace Dataflow.State

/-! ### When an operand is accepted -/

/-- A register that was never written is always the defect. -/
theorem checkUse_of_uninitialized {s : State} {r : Register} (h : s.get r = .ok .uninitialized)
    (c : Constraint) : s.checkUse r c = .ok (some (.undefinedRead r .uninitialized)) := by
  unfold checkUse
  rw [h]
  rfl

theorem mismatch?_eq_none_iff {c : Constraint} {r : Register} {v : Value} :
    c.mismatch? r v = none ↔ c.accepts v = true := by
  unfold Constraint.mismatch?
  split <;> simp_all

/-- **When an operand is accepted**: its register holds a value which the constraint accepts and, if
that is a low half, the next register holds the half which continues it. -/
theorem checkUse_eq_none_iff {s : State} {r : Register} {c : Constraint}
    (hs : s.size < UInt64.size) :
    s.checkUse r c = .ok none ↔ r.toNat < s.size ∧ c.accepts (s.valueAt r.toNat) = true ∧
      (c.isWide = true → (s.valueAt r.toNat).high? = some (s.valueAt (r.toNat + 1))) := by
  by_cases hr : r.toNat < s.size
  · have hnext := Register.toNat_next hr hs
    simp only [hr, true_and]
    unfold checkUse
    rw [get_of_lt hr]
    simp only [bind, Except.bind, pure, Except.pure]
    by_cases hacc : c.accepts (s.valueAt r.toNat) = true
    · have hdef := Constraint.isDefined_of_accepts hacc
      have hlow := Constraint.low?_of_accepts hacc
      have hwide := Constraint.isWideLow_of_accepts hacc
      simp only [hdef, hlow, hacc, true_and, Bool.not_true, Bool.false_eq_true, if_false]
      by_cases hc : c.isWide = true
      · obtain ⟨h, hh⟩ := Value.isWideLow_iff.mp (hwide.trans hc)
        simp only [hc, hh, Bool.not_true, Bool.false_eq_true, if_false, forall_const,
          Option.some.injEq]
        by_cases hlt : r.toNat + 1 < s.size
        · rw [get_of_lt (by rwa [hnext]), hnext]
          by_cases he : s.valueAt (r.toNat + 1) = h
          · simp [he, mismatch?_eq_none_iff, hacc]
          · simp [he, Ne.symm he]
        · rw [get_of_le (by rw [hnext]; exact Nat.not_lt.mp hlt), valueAt_of_le (Nat.not_lt.mp hlt)]
          have hne := Value.ne_uninitialized_of_isDefined
            (Value.isDefined_of_isWideHigh (Value.isWideHigh_of_high? hh))
          simp [hne]
      · simp [hc, mismatch?_eq_none_iff, hacc]
    · simp only [hacc, Bool.false_eq_true, false_and, iff_false]
      have hmis : c.mismatch? r (s.valueAt r.toNat) ≠ none := fun e =>
        hacc (mismatch?_eq_none_iff.mp e)
      intro h
      split at h
      · cases h
      · split at h
        · cases h
        · split at h
          · exact hmis (Except.ok.inj h)
          · split at h
            · cases h
            · split at h
              · split at h
                · cases h
                · exact hmis (Except.ok.inj h)
              · split at h
                · cases h
                · exact hmis (Except.ok.inj h)
  · unfold checkUse
    rw [get_of_le (Nat.not_lt.mp hr)]
    simp [hr, bind, Except.bind]

/-- Where one state passes the checks of some operands, another passes them too or reads a register
of some set, in which none was written, if that is so of each operand. -/
theorem checkUses_of_checkUse {s a : State} {os : List Operand} {rs : List Register}
    {U : Register → Prop} (hU : ∀ r, U r → s.get r = .ok .uninitialized)
    (h : ∀ o r, (o, r) ∈ os.zip rs → o.isUse = true → a.checkUse r o.constraint = .ok none →
      s.checkUse r o.constraint = .ok none ∨ U r)
    (ha : a.checkUses os rs = .ok none) :
    s.checkUses os rs = .ok none ∨ ∃ r, U r ∧
      s.checkUses os rs = .ok (some (.undefinedRead r .uninitialized)) := by
  induction os generalizing rs with
  | nil => exact .inl rfl
  | cons o os ih =>
      unfold checkUses at ha ⊢
      by_cases huse : o.isUse = true
      · rw [if_pos huse] at ha ⊢
        cases rs with
        | nil => cases ha
        | cons r rs =>
            obtain ⟨d, hd, ha⟩ := exists_of_bind_eq_ok ha
            cases d with
            | some d => cases ha
            | none =>
                rcases h o r List.mem_cons_self huse hd with hs | hs
                · simp only [hs, bind, Except.bind]
                  exact ih (fun o' r' hm => h o' r' (List.mem_cons_of_mem _ hm)) ha
                · simp only [checkUse_of_uninitialized (hU r hs)]
                  exact .inr ⟨r, hs, rfl⟩
      · rw [if_neg huse] at ha ⊢
        cases rs with
        | nil => exact ih (fun o' r' hm => by simp at hm) ha
        | cons r rs => exact ih (fun o' r' hm => h o' r' (List.mem_cons_of_mem _ hm)) ha

end Dataflow.State

namespace Instruction

open Dataflow

/-! ### When an instruction is accepted -/

/-- The instruction is checked to hold, in a register, what a constraint accepts. -/
inductive Examines (i : Instruction) (returns : DeclaredType) : Register → Constraint → Prop where
  /-- An operand which is read. -/
  | operand {o : Operand} {r : Register} : (o, r) ∈ i.opcode.operands.zip i.registers →
      o.isUse = true → Examines i returns r o.constraint
  /-- The source of a move. -/
  | source {o₀ o : Operand} {os : List Operand} {r₀ r : Register} {rs : List Register} :
      i.opcode.family = .move → i.opcode.operands = o₀ :: o :: os →
      i.registers = r₀ :: r :: rs → Examines i returns r o.constraint
  /-- What is returned, as the instruction has it. -/
  | result {o : Operand} {os : List Operand} {r : Register} {rs : List Register} :
      i.opcode.family = .returnValue → i.opcode.operands = o :: os →
      i.registers = r :: rs → Examines i returns r o.constraint
  /-- What is returned, as the method declares it. -/
  | declared {o : Operand} {os : List Operand} {r : Register} {rs : List Register}
      {c : Constraint} : i.opcode.family = .returnValue → i.opcode.operands = o :: os →
      i.registers = r :: rs → o.constraint.admits returns = true →
      Constraint.ofType returns = .ok c → Examines i returns r c

/-- **A check looks at operands only.**  Where one state passes the check of an instruction, another
passes it too or reads a register of some set, in which none was written, if that is so of each
register examined. -/
theorem check_of_checkUse {i : Instruction} {returns : DeclaredType} {s a : State}
    {U : Register → Prop} (hU : ∀ r, U r → s.get r = .ok .uninitialized)
    (h : ∀ r c, i.Examines returns r c → a.checkUse r c = .ok none →
      s.checkUse r c = .ok none ∨ U r)
    (ha : i.check returns a = .ok none) :
    i.check returns s = .ok none ∨ ∃ r, U r ∧
      i.check returns s = .ok (some (.undefinedRead r .uninitialized)) := by
  have huses (ha : a.checkUses i.opcode.operands i.registers = .ok none) :=
    State.checkUses_of_checkUse hU (fun o r hm hu => h r _ (.operand hm hu)) ha
  cases hf : i.opcode.family <;> simp only [check, hf] at ha ⊢
  case move =>
    cases ho : i.opcode.operands with
    | nil => simp only [ho] at ha; cases ha
    | cons o₀ os =>
        cases os with
        | nil => simp only [ho] at ha; cases ha
        | cons o os =>
            match hr : i.registers with
            | [] => simp only [ho, hr] at ha; cases ha
            | [_] => simp only [ho, hr] at ha; cases ha
            | r₀ :: r :: rs =>
                simp only [ho, hr] at ha
                rcases h r _ (.source hf ho hr) ha with hs | hs
                · exact .inl hs
                · exact .inr ⟨r, hs, State.checkUse_of_uninitialized (hU r hs) _⟩
  case returnValue =>
    unfold checkReturn at ha ⊢
    cases ho : i.opcode.operands with
    | nil => simp only [ho] at ha; cases ha
    | cons o os =>
        cases hr : i.registers with
        | nil => simp only [ho, hr] at ha; cases ha
        | cons r rs =>
            simp only [ho, hr] at ha ⊢
            obtain ⟨d, hd, ha⟩ := exists_of_bind_eq_ok ha
            cases d with
            | some d => cases ha
            | none =>
                rcases h r _ (.result hf ho hr) hd with hs | hs
                · simp only [hs, bind, Except.bind] at ha ⊢
                  by_cases hadm : o.constraint.admits returns = true
                  · simp only [hadm, Bool.not_true, Bool.false_eq_true, if_false] at ha ⊢
                    cases hc : Constraint.ofType returns with
                    | error f => rw [hc] at ha; cases ha
                    | ok c =>
                        rw [hc] at ha
                        rcases h r c (.declared hf ho hr hadm hc) ha with hs' | hs'
                        · exact .inl hs'
                        · exact .inr ⟨r, hs', State.checkUse_of_uninitialized (hU r hs') _⟩
                  · simp [hadm, pure, Except.pure] at ha
                · rw [State.checkUse_of_uninitialized (hU r hs)]
                  exact .inr ⟨r, hs, rfl⟩
  case nop => exact .inl trivial
  case goto => exact .inl trivial
  case returnVoid => exact .inl ha
  all_goals exact huses ha

end Instruction

end BytecodeVerifier
