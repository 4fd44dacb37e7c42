import BytecodeVerifier.Opcode.Table
import BytecodeVerifier.Proofs.Flow
import BytecodeVerifier.Proofs.Transfer

/-!
# Operands — the slots which an instruction reads and writes

`Instruction.Reads` and `Instruction.Writes` are about slots: a wide operand is the slot of its
register and the one after it.  Both are read off the operands alone, and what an instruction does
follows them because every opcode of the table is *regular* (`Opcode.isRegular_of_mem_table`):

* an instruction of a regular opcode has one output at most, and only a move takes it from the state
  (`effect_cases`);
* where it passes its check, every slot it reads holds a value (`isDefined_of_reads`), and the check
  looks at no others (`reads_of_examines`);
* its check never faults (`exists_check`).
-/

namespace BytecodeVerifier

/-! ### Regular opcodes -/

namespace Opcode

/-- The operands have the form which the family asks for: an idle instruction has none, a move has a
target and a source under one constraint, a return has a source, and any other instruction writes
its first operand at most, whose constraint determines the value. -/
def isRegular (op : Opcode) : Bool :=
  match op.family with
  | .nop | .goto | .returnVoid => op.operands.isEmpty
  | .move => Constraint.all.any fun c => op.operands == [writes c, reads c]
  | .returnValue => Constraint.all.any fun c => op.operands == [reads c]
  | _ =>
    match op.operands with
    | [] => true
    | o :: os => (!o.isDefine || o.constraint.value.isOk) && os.all fun o => !o.isDefine

/-- **Every opcode of the table is regular.** -/
theorem isRegular_of_mem_table {op : Opcode} (h : op ∈ table) : op.isRegular = true := by
  have hall : table.all isRegular = true := by decide +kernel
  exact List.all_eq_true.mp hall op h

theorem isRegular_of_getElem? {code : Array Instruction} (h : ∀ i ∈ code, i.opcode ∈ table)
    {pc : Nat} {i : Instruction} (hi : code[pc]? = some i) : i.opcode.isRegular = true :=
  isRegular_of_mem_table (h i (Array.mem_of_getElem? hi))

theorem operands_of_move {op : Opcode} (h : op.isRegular = true) (hf : op.family = .move) :
    ∃ c, op.operands = [writes c, reads c] := by
  unfold isRegular at h
  rw [hf] at h
  obtain ⟨c, -, hc⟩ := List.any_eq_true.mp h
  exact ⟨c, by simpa using hc⟩

theorem operands_of_return {op : Opcode} (h : op.isRegular = true)
    (hf : op.family = .returnValue) : ∃ c, op.operands = [reads c] := by
  unfold isRegular at h
  rw [hf] at h
  obtain ⟨c, -, hc⟩ := List.any_eq_true.mp h
  exact ⟨c, by simpa using hc⟩

/-- But for a move, the first operand alone may be written, and determines the value. -/
theorem operands_of_not_move {op : Opcode} (h : op.isRegular = true) (hf : op.family ≠ .move)
    {o : Operand} {os : List Operand} (ho : op.operands = o :: os) :
    (o.isDefine = true → ∃ v, o.constraint.value = .ok v) ∧
      ∀ o' ∈ os, ¬ o'.isDefine = true := by
  have hret : op.family = .returnValue → (o.isDefine = true → ∃ v, o.constraint.value = .ok v) ∧
      ∀ o' ∈ os, ¬ o'.isDefine = true := fun hf => by
    obtain ⟨c, hc⟩ := operands_of_return h hf
    obtain ⟨rfl, rfl⟩ : o = reads c ∧ os = [] := by simpa using ho.symm.trans hc
    exact ⟨fun hd => Bool.noConfusion hd, fun o' ho' => absurd ho' List.not_mem_nil⟩
  unfold isRegular at h
  rw [ho] at h
  cases hfam : op.family <;> simp only [hfam] at h
  case move => exact absurd hfam hf
  case returnValue => exact hret hfam
  case nop => cases h
  case goto => cases h
  case returnVoid => cases h
  all_goals
    simp only [Bool.and_eq_true, Bool.or_eq_true, Bool.not_eq_true', List.all_eq_true] at h
    refine ⟨fun hd => ?_, fun o' ho' hd => ?_⟩
    · rcases h.1 with hnot | hok
      · rw [hd] at hnot
        cases hnot
      · cases hv : o.constraint.value with
        | error f =>
            rw [hv] at hok
            cases hok
        | ok v => exact ⟨v, rfl⟩
    · rw [h.2 o' ho'] at hd
      cases hd

end Opcode

namespace Instruction

open Dataflow Opcode

/-- The instruction reads the slot: an operand which is read names it or, if the operand is wide,
the one before it. -/
def Reads (i : Instruction) (k : Nat) : Prop :=
  ∃ o r, (o, r) ∈ i.opcode.operands.zip i.registers ∧ o.isUse = true ∧
    (k = r.toNat ∨ (o.constraint.isWide = true ∧ k = r.toNat + 1))

/-- The instruction writes the slot: an operand which is written names it or, if the operand is
wide, the one before it. -/
def Writes (i : Instruction) (k : Nat) : Prop :=
  ∃ o r, (o, r) ∈ i.opcode.operands.zip i.registers ∧ o.isDefine = true ∧
    (k = r.toNat ∨ (o.constraint.isWide = true ∧ k = r.toNat + 1))

instance (i : Instruction) (k : Nat) : Decidable (i.Reads k) :=
  decidable_of_iff (∃ x ∈ i.opcode.operands.zip i.registers, x.1.isUse = true ∧
    (k = x.2.toNat ∨ (x.1.constraint.isWide = true ∧ k = x.2.toNat + 1))) Prod.exists

/-- An instruction reads slots of the frame only. -/
theorem Reads.lt_size {i : Instruction} {file : Register.File} {length k : Nat}
    (hst : i.Structured file length) (hk : i.Reads k) : k < file.size.toNat := by
  obtain ⟨o, r, hm, -, rfl | ⟨hw, rfl⟩⟩ := hk
  · exact hst.register o r hm
  · exact hst.pair o r hm hw

/-! ### Outputs -/

theorem writeAll_of_reads {os : List Operand} (h : ∀ o ∈ os, ¬ o.isDefine = true)
    (rs : List Register) (s : State) : State.writeAll os rs s = .ok s := by
  induction os generalizing rs with
  | nil => rfl
  | cons o os ih =>
      unfold State.writeAll
      rw [if_neg (h o List.mem_cons_self)]
      exact ih (fun o' ho' => h o' (List.mem_cons_of_mem _ ho')) _

/-- An instruction writes one register, of an operand: the value which the operand determines or, if
it is a move, what its source holds.  `value` is what is written in each state. -/
structure Output (i : Instruction) (o : Operand) (r : Register) (value : State → Value) : Prop where
  mem : (o, r) ∈ i.opcode.operands.zip i.registers
  isDefine : o.isDefine = true
  source : (i.opcode.family ≠ .move ∧ ∃ v, o.constraint.accepts v = true ∧ ∀ s, value s = v) ∨
    ∃ source, i.opcode.family = .move ∧ i.registers = [r, source] ∧
      i.opcode.operands = [writes o.constraint, reads o.constraint] ∧
      ∀ s, value s = s.valueAt source.toNat

/-- **What an instruction of a regular opcode does**: nothing, or it writes its output. -/
theorem effect_cases {i : Instruction} {file : Register.File} {length : Nat}
    (hreg : i.opcode.isRegular = true) (hst : i.Structured file length) :
    ((∀ o ∈ i.opcode.operands, ¬ o.isDefine = true) ∧ ∀ s, i.effect s = .ok s) ∨
    ∃ o r value, i.Output o r value ∧
      ∀ s, s.size = file.size.toNat → i.effect s = s.write r (value s) := by
  have harity := hst.arity
  by_cases hm : i.opcode.family = .move
  · obtain ⟨c, hc⟩ := operands_of_move hreg hm
    rw [hc] at harity
    obtain ⟨target, source, hr⟩ := List.length_eq_two.mp harity
    have hmem {k : Operand × Register} (hk : k ∈ [(writes c, target), (reads c, source)]) :
        k ∈ i.opcode.operands.zip i.registers := by
      rw [hc, hr]
      exact hk
    refine .inr ⟨writes c, target, fun s => s.valueAt source.toNat,
      ⟨hmem List.mem_cons_self, rfl, .inr ⟨source, hm, hr, hc, fun _ => rfl⟩⟩, fun s hs => ?_⟩
    have hlt : source.toNat < s.size :=
      hs ▸ hst.register _ _ (hmem (List.mem_cons_of_mem _ List.mem_cons_self))
    unfold effect
    simp only [if_pos hm, hr, State.get_of_lt hlt]
    rfl
  · -- But for a move, the first operand alone may be written.
    have heffect : ∀ s, i.effect s = State.writeAll i.opcode.operands i.registers s := fun s => by
      unfold effect
      rw [if_neg hm]
    have hnone (h : ∀ o ∈ i.opcode.operands, ¬ o.isDefine = true) (s : State) :
        i.effect s = .ok s := (heffect s).trans (writeAll_of_reads h _ s)
    cases ho : i.opcode.operands with
    | nil =>
        have hreads : ∀ o ∈ i.opcode.operands, ¬ o.isDefine = true := fun o hm => by
          rw [ho] at hm
          cases hm
        exact .inl ⟨ho ▸ hreads, hnone hreads⟩
    | cons o os =>
        rw [ho] at harity
        obtain ⟨r, rs, hr⟩ := List.exists_cons_of_length_eq_add_one harity
        obtain ⟨hval, hrest⟩ := operands_of_not_move hreg hm ho
        by_cases hdef : o.isDefine = true
        · obtain ⟨v, hv⟩ := hval hdef
          refine .inr ⟨o, r, fun _ => v, ⟨by rw [ho, hr]; exact List.mem_cons_self, hdef,
            .inl ⟨hm, v, Constraint.accepts_of_value hv, fun _ => rfl⟩⟩, fun s _ => ?_⟩
          rw [heffect, ho, hr]
          unfold State.writeAll
          rw [if_pos hdef]
          simp only [hv, writeAll_of_reads hrest, bind, Except.bind]
          cases s.write r v <;> rfl
        · have hreads : ∀ o' ∈ i.opcode.operands, ¬ o'.isDefine = true := by
            intro o' ho'
            rw [ho] at ho'
            rcases List.mem_cons.mp ho' with rfl | ho'
            · exact hdef
            · exact hrest o' ho'
          exact .inl ⟨ho ▸ hreads, hnone hreads⟩

/-- No other register is written. -/
theorem Output.unique {i : Instruction} {o : Operand} {r : Register} {value : State → Value}
    (h : i.Output o r value) (hreg : i.opcode.isRegular = true) {o' : Operand} {r' : Register}
    (hm : (o', r') ∈ i.opcode.operands.zip i.registers) (hd : o'.isDefine = true) : r' = r := by
  rcases h.source with ⟨hf, -⟩ | ⟨source, -, hr, ho, -⟩
  · -- Both are the first operand, as no other is written.
    have hmem := h.mem
    cases ho : i.opcode.operands with
    | nil =>
        rw [ho] at hm
        cases hm
    | cons o₀ os =>
        cases hr : i.registers with
        | nil =>
            rw [ho, hr] at hm
            cases hm
        | cons r₀ rs =>
            have hrest := (operands_of_not_move hreg hf ho).2
            rw [ho, hr, List.zip_cons_cons, List.mem_cons] at hm hmem
            rcases hm with e | hm
            · rcases hmem with e' | hmem
              · cases e
                cases e'
                rfl
              · exact absurd h.isDefine (hrest o (List.of_mem_zip hmem).1)
            · exact absurd hd (hrest o' (List.of_mem_zip hm).1)
  · rw [ho, hr] at hm
    rcases List.mem_cons.mp hm with e | hm
    · cases e
      rfl
    · cases List.mem_singleton.mp hm
      cases hd

/-- States which agree on what an instruction reads have it write the same. -/
theorem Output.value_eq {i : Instruction} {o : Operand} {r : Register} {value : State → Value}
    (h : i.Output o r value) {s t : State} (hst : ∀ k, i.Reads k → s.valueAt k = t.valueAt k) :
    value s = value t := by
  rcases h.source with ⟨-, v, -, e⟩ | ⟨source, -, hr, ho, e⟩
  · rw [e, e]
  · rw [e, e]
    refine hst _ ⟨Opcode.reads o.constraint, source, ?_, rfl, .inl rfl⟩
    rw [ho, hr]
    exact List.mem_cons_of_mem _ List.mem_cons_self

/-! ### Checks -/

theorem checkUse_of_checkUses {s : State} {os : List Operand} {rs : List Register}
    (h : s.checkUses os rs = .ok none) {o : Operand} {r : Register} (hm : (o, r) ∈ os.zip rs)
    (hu : o.isUse = true) : s.checkUse r o.constraint = .ok none := by
  induction os generalizing rs with
  | nil => cases hm
  | cons o' os ih =>
      cases rs with
      | nil => simp at hm
      | cons r' rs =>
          unfold State.checkUses at h
          rw [List.zip_cons_cons, List.mem_cons] at hm
          by_cases huse : o'.isUse = true
          · rw [if_pos huse] at h
            obtain ⟨d, hd, h⟩ := exists_of_bind_eq_ok h
            cases d with
            | some d => cases h
            | none =>
                rcases hm with e | hm
                · cases e
                  exact hd
                · exact ih h hm
          · rw [if_neg huse] at h
            rcases hm with e | hm
            · cases e
              exact absurd hu huse
            · exact ih h hm

/-- **Every operand which is read is checked.** -/
theorem checkUse_of_check {i : Instruction} {returns : DeclaredType} {s : State}
    (hreg : i.opcode.isRegular = true) (hc : i.check returns s = .ok none) {o : Operand}
    {r : Register} (hm : (o, r) ∈ i.opcode.operands.zip i.registers) (hu : o.isUse = true) :
    s.checkUse r o.constraint = .ok none := by
  have hidle : i.opcode.operands = [] → s.checkUse r o.constraint = .ok none := fun e => by
    rw [e] at hm
    cases hm
  cases hf : i.opcode.family <;> simp only [check, hf] at hc
  case move =>
    obtain ⟨c, ho⟩ := operands_of_move hreg hf
    cases hr : i.registers with
    | nil => rw [ho, hr] at hc; cases hc
    | cons r₀ rs =>
        cases rs with
        | nil => rw [ho, hr] at hc; cases hc
        | cons r₁ rs =>
            rw [ho, hr] at hm hc
            rcases List.mem_cons.mp hm with e | hm
            · cases e
              cases hu
            · cases List.mem_singleton.mp hm
              exact hc
  case returnValue =>
    obtain ⟨c, ho⟩ := operands_of_return hreg hf
    unfold checkReturn at hc
    cases hr : i.registers with
    | nil => rw [ho, hr] at hc; cases hc
    | cons r₀ rs =>
        rw [ho, hr] at hm
        simp only [ho, hr] at hc
        obtain ⟨d, hd, hc⟩ := exists_of_bind_eq_ok hc
        cases d with
        | some d => cases hc
        | none =>
            cases List.mem_singleton.mp hm
            exact hd
  case nop => exact hidle (by simpa [isRegular, hf] using hreg)
  case goto => exact hidle (by simpa [isRegular, hf] using hreg)
  case returnVoid => exact hidle (by simpa [isRegular, hf] using hreg)
  all_goals exact checkUse_of_checkUses hc hm hu

/-- Every slot read holds a value, where the instruction passes its check. -/
theorem isDefined_of_reads {i : Instruction} {returns : DeclaredType} {s : State}
    (hs : s.size < UInt64.size) (hreg : i.opcode.isRegular = true)
    (hc : i.check returns s = .ok none) {k : Nat} (hk : i.Reads k) :
    (s.valueAt k).isDefined = true := by
  obtain ⟨o, r, hm, hu, hslot⟩ := hk
  obtain ⟨-, hacc, hwide⟩ := (State.checkUse_eq_none_iff hs).mp (checkUse_of_check hreg hc hm hu)
  rcases hslot with rfl | ⟨hw, rfl⟩
  · exact Constraint.isDefined_of_accepts hacc
  · exact Value.isDefined_of_isWideHigh (Value.isWideHigh_of_high? (hwide hw))

/-- Where an instruction passes its check, the operand of its output accepts what is written. -/
theorem Output.accepts {i : Instruction} {o : Operand} {r : Register} {value : State → Value}
    (h : i.Output o r value) {returns : DeclaredType} {s : State} (hs : s.size < UInt64.size)
    (hreg : i.opcode.isRegular = true) (hc : i.check returns s = .ok none) :
    o.constraint.accepts (value s) = true := by
  rcases h.source with ⟨-, v, hv, e⟩ | ⟨source, -, hr, ho, e⟩
  · rw [e]
    exact hv
  · rw [e]
    have hm : (reads o.constraint, source) ∈ i.opcode.operands.zip i.registers := by
      rw [ho, hr]
      exact List.mem_cons_of_mem _ List.mem_cons_self
    exact ((State.checkUse_eq_none_iff hs).mp (checkUse_of_check hreg hc hm rfl)).2.1

/-- **In a paired state an instruction that passes its check has an effect**, and leaves a paired
state. -/
theorem exists_effect_of_check {i : Instruction} {file : Register.File} {length : Nat}
    (hreg : i.opcode.isRegular = true) (hst : i.Structured file length) {returns : DeclaredType}
    {s : State} (hsize : s.size = file.size.toNat) (hp : s.Paired)
    (hc : i.check returns s = .ok none) : ∃ t, i.effect s = .ok t ∧ t.Paired := by
  rcases effect_cases hreg hst with ⟨-, hnone⟩ | ⟨o, r, value, hout, hform⟩
  · exact ⟨s, hnone s, hp⟩
  · have hlt : s.size < UInt64.size := hsize ▸ file.size.toNat_lt_size
    have hacc := hout.accepts hlt hreg hc
    have hroom : s.Room r.toNat (value s) := by
      refine hp.room (hsize ▸ hst.register o r hout.mem) fun hlow => ?_
      rw [Constraint.isWideLow_of_accepts hacc] at hlow
      exact hsize ▸ hst.pair o r hout.mem hlow
    refine ⟨s.store r.toNat (value s), ?_,
      hp.store hroom (Constraint.not_isWideHigh_of_accepts hacc)⟩
    rw [hform s hsize]
    exact (State.write_eq_ok_iff hlt).mpr ⟨hroom, rfl⟩

/-- What a type declares has the width of what admits it. -/
theorem isWide_of_admits {c c' : Constraint} {t : DeclaredType} (h : c.admits t = true)
    (hc : Constraint.ofType t = .ok c') : c'.isWide = c.isWide := by
  revert h
  cases t <;> cases hc <;> cases c <;> decide

/-- **A check looks at no other slots** than those which are read. -/
theorem reads_of_examines {i : Instruction} {returns : DeclaredType} {r : Register}
    {c : Constraint} (hreg : i.opcode.isRegular = true) (h : i.Examines returns r c) :
    i.Reads r.toNat ∧ (c.isWide = true → i.Reads (r.toNat + 1)) := by
  have use {o : Operand} (hm : (o, r) ∈ i.opcode.operands.zip i.registers)
      (hu : o.isUse = true) (hw : c.isWide = o.constraint.isWide) :
      i.Reads r.toNat ∧ (c.isWide = true → i.Reads (r.toNat + 1)) :=
    ⟨⟨o, r, hm, hu, .inl rfl⟩, fun hc => ⟨o, r, hm, hu, .inr ⟨hw ▸ hc, rfl⟩⟩⟩
  cases h with
  | operand hm hu => exact use hm hu rfl
  | @source o₀ o os r₀ r rs hf ho hr =>
      obtain ⟨c, hc⟩ := operands_of_move hreg hf
      obtain ⟨rfl, rfl, rfl⟩ : o₀ = writes c ∧ o = reads c ∧ os = [] := by
        simpa using ho.symm.trans hc
      exact use (by rw [ho, hr]; exact List.mem_cons_of_mem _ List.mem_cons_self) rfl rfl
  | @result o os r rs hf ho hr =>
      obtain ⟨c, hc⟩ := operands_of_return hreg hf
      obtain ⟨rfl, rfl⟩ : o = reads c ∧ os = [] := by simpa using ho.symm.trans hc
      exact use (by rw [ho, hr]; exact List.mem_cons_self) rfl rfl
  | @declared o os r rs c' hf ho hr hadm hof =>
      obtain ⟨c, hc⟩ := operands_of_return hreg hf
      obtain ⟨rfl, rfl⟩ : o = reads c ∧ os = [] := by simpa using ho.symm.trans hc
      exact use (by rw [ho, hr]; exact List.mem_cons_self) rfl (isWide_of_admits hadm hof)

/-! ### No check faults -/

theorem exists_checkUse {s : State} {r : Register} {c : Constraint} (hs : s.size < UInt64.size)
    (hr : r.toNat < s.size) (hpair : c.isWide = true → r.toNat + 1 < s.size) :
    ∃ d, s.checkUse r c = .ok d := by
  have hnext := Register.toNat_next hr hs
  unfold State.checkUse
  rw [State.get_of_lt hr]
  simp only [bind, Except.bind, pure, Except.pure]
  split
  · exact ⟨_, rfl⟩
  · split
    · exact ⟨_, rfl⟩
    · split
      · exact ⟨_, rfl⟩
      · next hwide =>
          have hget : s.get r.next = .ok (s.valueAt r.next.toNat) :=
            State.get_of_lt (by rw [hnext]; exact hpair (by simpa using hwide))
          simp only [hget]
          split
          · split <;> exact ⟨_, rfl⟩
          · split <;> exact ⟨_, rfl⟩

theorem exists_checkUses {s : State} {os : List Operand} {rs : List Register}
    (hlen : rs.length = os.length)
    (h : ∀ o r, (o, r) ∈ os.zip rs → ∃ d, s.checkUse r o.constraint = .ok d) :
    ∃ d, s.checkUses os rs = .ok d := by
  induction os generalizing rs with
  | nil => exact ⟨none, rfl⟩
  | cons o os ih =>
      obtain ⟨r, rs, rfl⟩ := List.exists_cons_of_length_eq_add_one hlen
      have hrest := ih (Nat.succ.inj hlen) fun o' r' hm => h o' r' (List.mem_cons_of_mem _ hm)
      unfold State.checkUses
      split
      · obtain ⟨d, hd⟩ := h o r List.mem_cons_self
        simp only [hd, bind, Except.bind]
        cases d with
        | some d => exact ⟨_, rfl⟩
        | none => exact hrest
      · exact hrest

/-- **No check faults** in a state of the size of the file, if the structure is sound. -/
theorem exists_check {i : Instruction} {file : Register.File} {length : Nat}
    (hreg : i.opcode.isRegular = true) (hst : i.Structured file length) {s : State}
    (hs : s.size = file.size.toNat) (returns : DeclaredType) :
    ∃ d, i.check returns s = .ok d := by
  have hlt : s.size < UInt64.size := hs ▸ file.size.toNat_lt_size
  have huse : ∀ o r, (o, r) ∈ i.opcode.operands.zip i.registers → ∀ c : Constraint,
      c.isWide = o.constraint.isWide → ∃ d, s.checkUse r c = .ok d := by
    intro o r hm c hw
    refine exists_checkUse hlt (hs ▸ hst.register o r hm) fun hc => ?_
    rw [hs]
    exact hst.pair o r hm (hw ▸ hc)
  have huses : ∃ d, s.checkUses i.opcode.operands i.registers = .ok d :=
    exists_checkUses hst.arity fun o r hm => huse o r hm _ rfl
  have harity := hst.arity
  cases hf : i.opcode.family <;> simp only [check, hf]
  case move =>
    obtain ⟨c, ho⟩ := operands_of_move hreg hf
    rw [ho] at harity
    obtain ⟨target, source, hr⟩ := List.length_eq_two.mp harity
    rw [ho, hr] at huse ⊢
    exact huse (reads c) source (List.mem_cons_of_mem _ List.mem_cons_self) c rfl
  case returnValue =>
    obtain ⟨c, ho⟩ := operands_of_return hreg hf
    rw [ho] at harity
    obtain ⟨r, hr⟩ := List.length_eq_one_iff.mp harity
    rw [ho, hr] at huse
    unfold checkReturn
    simp only [ho, hr]
    obtain ⟨d, hd⟩ := huse (reads c) r List.mem_cons_self c rfl
    simp only [show (reads c).constraint = c from rfl, hd, bind, Except.bind]
    cases d with
    | some d => exact ⟨_, rfl⟩
    | none =>
        by_cases hadm : c.admits returns = true
        · simp only [hadm, Bool.not_true, Bool.false_eq_true, if_false]
          cases hof : Constraint.ofType returns with
          | error f =>
              -- Only `void` has no constraint, and nothing admits it.
              revert hadm hof
              cases returns <;> cases c <;> simp [Constraint.ofType, Constraint.admits,
                DeclaredType.isWide]
          | ok c' => exact huse (reads c) r List.mem_cons_self c' (isWide_of_admits hadm hof)
        · simp [hadm, pure, Except.pure]
  case nop => exact ⟨_, rfl⟩
  case goto => exact ⟨_, rfl⟩
  case returnVoid => exact ⟨_, rfl⟩
  all_goals exact huses

end Instruction

end BytecodeVerifier
