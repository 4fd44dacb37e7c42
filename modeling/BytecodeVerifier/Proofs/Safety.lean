import BytecodeVerifier.Proofs.Entry
import BytecodeVerifier.Proofs.Operands
import BytecodeVerifier.Proofs.Verdict

/-!
# Safety — when verification ends in a report

Effects are applied before anything is checked, so they run on operands of every kind, and an effect
may leave the frame.  There are two ways (`Instruction.Overruns`): `v0` is overwritten whilst it
holds a high half, which a merge can leave there alone, and breaking its pair asks for the register
before `v0`; or a move puts a low half into the last register, which a narrow move of a wide value
can do, and there is no register for the high half.

**These are the only ways**: verification ends in a report just when no instruction is met in a
state in which it overruns the frame (`exists_report_iff`).  In every state that is met each low
half has a register after it (`Framed`), so breaking a pair never runs past the end.
-/

namespace BytecodeVerifier

open Dataflow ControlFlow

namespace Dataflow.State

/-- After every low half the frame goes on. -/
def Framed (s : State) : Prop := ∀ i, (s.valueAt i).isWideLow = true → i + 1 < s.size

theorem Paired.framed {s : State} (h : s.Paired) : s.Framed := fun _ hlow => h.lt_of_low hlow

theorem Framed.merge {s t : State} (hs : s.Framed) (ht : t.Framed) (hsize : t.size = s.size) :
    (s.merge t).Framed := by
  intro i hlow
  rw [valueAt_merge (Nat.le_of_eq hsize)] at hlow
  rw [size_merge]
  -- A low half that two states merge to is that of one of them.
  rcases Value.join_cases (Value.ne_conflict_of_isDefined (Value.isDefined_of_isWideLow hlow)) with
    e | e
  · exact hs i (e ▸ hlow)
  · exact hsize ▸ ht i (e ▸ hlow)

/-- A write leaves no low half at the end. -/
theorem Framed.store {s : State} (hs : s.Framed) {i : Nat} {v : Value} (hroom : s.Room i v) :
    (s.store i v).Framed := by
  intro j hlow
  rw [size_store]
  rcases store_cases hroom j with ⟨rfl, e⟩ | ⟨rfl, e⟩ | ⟨-, -, -, e⟩ | ⟨-, -, -, e⟩
  · exact (hroom.2.2 (e ▸ hlow)).1
  · exact absurd hlow (Value.not_isWideLow_of_isWideHigh (Value.isWideHigh_of_high? e))
  · rw [e] at hlow
    cases hlow
  · exact hs j (e ▸ hlow)

/-- There is room for a write, unless it breaks a pair at `v0` or puts a low half at the end. -/
theorem Framed.room_iff {s : State} (hs : s.Framed) {i : Nat} {v : Value} (hi : i < s.size) :
    s.Room i v ↔ ¬ (i = 0 ∧ (s.valueAt 0).isWideHigh = true) ∧
      ¬ (i + 1 = s.size ∧ v.isWideLow = true) := by
  constructor
  · rintro ⟨-, hb, hlow⟩
    constructor
    · rintro ⟨rfl, hhigh⟩
      exact absurd (hb.2 hhigh) (Nat.lt_irrefl 0)
    · rintro ⟨e, hv⟩
      exact absurd (hlow hv).1 (e ▸ Nat.lt_irrefl _)
  · rintro ⟨hfirst, hlast⟩
    have hb : s.Breakable i := by
      refine ⟨hs i, fun hhigh => Nat.pos_of_ne_zero fun e => hfirst ⟨e, ?_⟩⟩
      rwa [e] at hhigh
    refine ⟨hi, hb, fun hv => ⟨Nat.lt_of_le_of_ne hi fun e => hlast ⟨e, hv⟩, fun hl => ?_,
      fun _ => Nat.succ_pos i⟩⟩
    rw [size_breakPair]
    by_cases hnot : (s.valueAt i).isWideLow = true
    · rw [valueAt_breakPair_of_low hb hnot] at hl
      cases hl
    · rw [valueAt_breakPair_other (fun h => absurd h hnot) (fun _ => by omega) hb] at hl
      exact hs (i + 1) hl

end Dataflow.State

/-! ### Running out of the frame -/

/-- The instruction writes `v0` whilst it holds a high half, or moves a low half into the last
register. -/
def Instruction.Overruns (i : Instruction) (s : State) : Prop :=
  (i.Writes 0 ∧ (s.valueAt 0).isWideHigh = true) ∨
  ∃ target source, i.opcode.family = .move ∧ i.registers = [target, source] ∧
    target.toNat + 1 = s.size ∧ (s.valueAt source.toNat).isWideLow = true

namespace Instruction

/-- An instruction overruns the frame when its output does. -/
theorem Output.overruns_iff {i : Instruction} {o : Operand} {r : Register}
    {value : State → Value} (h : i.Output o r value) {file : Register.File} {length : Nat}
    (hreg : i.opcode.isRegular = true) (hst : i.Structured file length) {s : State}
    (hsize : s.size = file.size.toNat) :
    i.Overruns s ↔ (r.toNat = 0 ∧ (s.valueAt 0).isWideHigh = true) ∨
      (r.toNat + 1 = s.size ∧ (value s).isWideLow = true) := by
  constructor
  · rintro (⟨⟨o', r', hm, hd, hslot⟩, hhigh⟩ | ⟨target, source, hf, hr, hlast, hlow⟩)
    · obtain rfl := h.unique hreg hm hd
      rcases hslot with e | ⟨-, e⟩
      · exact .inl ⟨e.symm, hhigh⟩
      · exact absurd e (Nat.succ_ne_zero _).symm
    · rcases h.source with ⟨hne, -⟩ | ⟨source', -, hr', -, e⟩
      · exact absurd hf hne
      · obtain ⟨rfl, rfl⟩ : target = r ∧ source = source' := by simpa using hr.symm.trans hr'
        exact .inr ⟨hlast, by rw [e]; exact hlow⟩
  · rintro (⟨hzero, hhigh⟩ | ⟨hlast, hlow⟩)
    · exact .inl ⟨⟨o, r, h.mem, h.isDefine, .inl hzero.symm⟩, hhigh⟩
    · rcases h.source with ⟨-, v, hv, e⟩ | ⟨source, hf, hr, -, e⟩
      · -- What an operand determines has the operand's width, for which there is room.
        rw [e, Constraint.isWideLow_of_accepts hv] at hlow
        have := hst.pair o r h.mem hlow
        rw [hlast, hsize] at this
        exact absurd this (Nat.lt_irrefl _)
      · exact .inr ⟨r, source, hf, hr, hlast, by rw [← e]; exact hlow⟩

/-- **An effect faults just when it overruns the frame**, in a framed state: at a register outside
the frame.  Otherwise it leaves a framed state. -/
theorem effect_framed {i : Instruction} {file : Register.File} {length : Nat}
    (hreg : i.opcode.isRegular = true) (hst : i.Structured file length) {s : State}
    (hsize : s.size = file.size.toNat) (hs : s.Framed) :
    ((∃ t, i.effect s = .ok t) ↔ ¬ i.Overruns s) ∧ (∀ t, i.effect s = .ok t → t.Framed) ∧
      ∀ f, i.effect s = .error f → f = .outOfBounds := by
  have hlt : s.size < UInt64.size := hsize ▸ file.size.toNat_lt_size
  rcases effect_cases hreg hst with ⟨hreads, hnone⟩ | ⟨o, r, value, hout, hform⟩
  · refine ⟨⟨fun _ => ?_, fun _ => ⟨s, hnone s⟩⟩, fun t ht => ?_, fun f hf => ?_⟩
    · rintro (⟨⟨o, r, hm, hd, -⟩, -⟩ | ⟨-, -, hf, -⟩)
      · exact hreads o (List.of_mem_zip hm).1 hd
      · obtain ⟨c, hc⟩ := Opcode.operands_of_move hreg hf
        exact hreads (Opcode.writes c) (hc ▸ List.mem_cons_self) rfl
    · obtain rfl : s = t := Except.ok.inj ((hnone s).symm.trans ht)
      exact hs
    · rw [hnone s] at hf
      cases hf
  · have hr : r.toNat < s.size := hsize ▸ hst.register o r hout.mem
    rw [hform s hsize]
    refine ⟨?_, fun t ht => ?_, fun f hf => State.write_eq_error hf⟩
    · rw [hout.overruns_iff hreg hst hsize, not_or, ← hs.room_iff hr]
      constructor
      · rintro ⟨t, ht⟩
        exact ((State.write_eq_ok_iff hlt).mp ht).1
      · intro hroom
        exact ⟨_, (State.write_eq_ok_iff hlt).mpr ⟨hroom, rfl⟩⟩
    · obtain ⟨hroom, rfl⟩ := (State.write_eq_ok_iff hlt).mp ht
      exact hs.store hroom

end Instruction

namespace Method

section Built

variable {m : Method} {g : Graph} (hg : Graph.build m.registers m.code = .ok g)
  (htable : ∀ i ∈ m.code, i.opcode ∈ Opcode.table)
include hg htable

/-- The same of an instruction of a method. -/
theorem effect_framed {pc : Nat} {i : Instruction} (hi : m.code[pc]? = some i) {s : State}
    (hsize : s.size = m.registers.size.toNat) (hs : s.Framed) :
    ((∃ t, i.effect s = .ok t) ↔ ¬ i.Overruns s) ∧ (∀ t, i.effect s = .ok t → t.Framed) ∧
      ∀ f, i.effect s = .error f → f = .outOfBounds :=
  Instruction.effect_framed (Opcode.isRegular_of_getElem? htable hi)
    (structured_of_build hg hi) hsize hs

/-- **Every state in which an instruction is met is framed.** -/
theorem framed_of_meets {s₀ : State} (hs₀ : m.initialState = .ok s₀) {pc : Nat} {s : State}
    (hm : m.Meets g (m.solve g).1 pc s) : s.size = m.registers.size.toNat ∧ s.Framed := by
  refine solve_states hg hs₀ (P := fun _ s => s.size = m.registers.size.toNat ∧ s.Framed)
    ?_ ?_ ⟨size_initialState hs₀, (paired_initialState hs₀).framed⟩ pc s hm
  · rintro pc s t hs ht ⟨-, hs'⟩ ⟨-, ht'⟩
    exact ⟨by rw [State.size_merge, hs], hs'.merge ht' (ht.trans hs.symm)⟩
  · rintro p q i s t hi - ⟨hs, hs'⟩ he -
    exact ⟨(Instruction.size_effect he).trans hs, (effect_framed hg htable hi hs hs').2.1 t he⟩

end Built

/-- **When verification ends in a report**: just when no instruction overruns the frame in a state
in which it is met.  Otherwise it ends at a register outside the frame, and nowhere else. -/
theorem exists_report_iff {m : Method}
    (hfit : ∀ p ∈ m.registers.parameters, p.Fits m.registers.size.toNat)
    (htable : ∀ i ∈ m.code, i.opcode ∈ Opcode.table) :
    ((∃ report, m.verify = .ok report) ↔
      ∀ g, Graph.build m.registers m.code = .ok g →
        ∀ pc s i, m.Meets g (m.solve g).1 pc s → m.code[pc]? = some i → ¬ i.Overruns s) ∧
    ∀ f, m.verify = .error f → f = .outOfBounds := by
  cases hg : Graph.build m.registers m.code with
  | error v =>
      have hverify : m.verify = .ok (.rejected v) := by
        unfold verify trace
        rw [hg]
      refine ⟨⟨fun _ g hg' => ?_, fun _ => ⟨_, hverify⟩⟩, fun f hf => ?_⟩
      · cases hg'
      · rw [hverify] at hf
        cases hf
  | ok g =>
      obtain ⟨s₀, hs₀⟩ := exists_initialState hfit
      rcases solved_or_fault hg hs₀ with ⟨events, w, h⟩ |
        ⟨pc, u, i, f, hmeets, hi, hfault, hverify⟩
      · -- Every effect has succeeded, so nothing overran the frame; and no check faults.
        obtain ⟨report, hreport⟩ := h.exists_report fun pc a i ha hi =>
          Instruction.exists_check (Opcode.isRegular_of_getElem? htable hi)
            (structured_of_build hg hi) (h.size_settledAt ha) m.returns
        refine ⟨⟨fun _ g' hg' pc u i hm hi => ?_, fun _ => ⟨report, hreport⟩⟩, fun f hf => ?_⟩
        · cases hg'
          obtain ⟨hsize, hframed⟩ := framed_of_meets hg htable hs₀ hm
          rw [h.solve] at hm
          obtain ⟨w₀, hst, hrun⟩ := h.run
          exact (effect_framed hg htable hi hsize hframed).1.mp
            (hrun.effect_of_meets hg hst.fits hm hi)
        · rw [hreport] at hf
          cases hf
      · -- The effect that faults overruns the frame.
        obtain ⟨hsize, hframed⟩ := framed_of_meets hg htable hs₀ hmeets
        obtain ⟨hover, -, herror⟩ := effect_framed hg htable hi hsize hframed
        refine ⟨⟨fun ⟨report, hr⟩ => ?_, fun hnone => ?_⟩, fun f' hf' => ?_⟩
        · rw [hverify] at hr
          cases hr
        · obtain ⟨v, hv⟩ := hover.mpr (hnone g rfl pc u i hmeets hi)
          rw [hfault] at hv
          cases hv
        · rw [hverify] at hf'
          cases hf'
          exact herror f hfault

/-! ### A method whose verification faults -/

/-- A long is moved as a narrow value into the last register. -/
def truncation : Method where
  name := "truncation"
  registers := ⟨2, [⟨⟨0⟩, .long⟩], by decide⟩
  returns := .void
  code := #[⟨⟨"move", .move, [Opcode.writes .narrow, Opcode.reads .narrow]⟩, [⟨1⟩, ⟨0⟩], [], 0⟩]

theorem fits_truncation : ∀ p ∈ truncation.registers.parameters,
    p.Fits truncation.registers.size.toNat := by decide

theorem mem_table_truncation : ∀ i ∈ truncation.code, i.opcode ∈ Opcode.table := by
  decide +kernel

theorem exists_report_iff_truncation : ((∃ report, truncation.verify = .ok report) ↔
    ∀ g, Graph.build truncation.registers truncation.code = .ok g →
      ∀ pc s i, truncation.Meets g (truncation.solve g).1 pc s → truncation.code[pc]? = some i →
        ¬ i.Overruns s) ∧ ∀ f, truncation.verify = .error f → f = .outOfBounds :=
  exists_report_iff fits_truncation mem_table_truncation

/-- **Verification may fault**, on a well-formed method. -/
theorem truncation_faults : (∀ p ∈ truncation.registers.parameters,
    p.Fits truncation.registers.size.toNat) ∧
    (∀ i ∈ truncation.code, i.opcode ∈ Opcode.table) ∧
    truncation.verify = .error .outOfBounds :=
  ⟨fits_truncation, mem_table_truncation, by decide +kernel⟩

end Method

end BytecodeVerifier
