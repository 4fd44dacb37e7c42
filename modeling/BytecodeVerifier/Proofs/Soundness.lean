import BytecodeVerifier.Opcode.Table
import BytecodeVerifier.Proofs.Entry
import BytecodeVerifier.Proofs.Simulation
import BytecodeVerifier.Proofs.Verdict

/-!
# Soundness — what a verified method does along every path

A `Path` is a way which control may take from the entry: positions passed, and the one come to.
Replaying a path checks every instruction on it and applies its effect, from the state on entry on.
**The replay of a path of a verified method finds no violation, except that a register is read which
was never written on that path** (`verified_sound`).  In particular no operand is of the wrong
category or kind, no pair is broken or misaligned, no register is read that holds `⊤`, and no result
is of the wrong type, unless a register was read before that which was never written.

Along a path the state and the settled one stay in `Sim` (`Path.sim`), because the settled states
pass their checks and are closed under passages.
-/

namespace BytecodeVerifier

open Dataflow ControlFlow

namespace Method

/-- Control may pass some positions, from the entry on, and then come to another. -/
inductive Path (m : Method) : List Nat → Nat → Prop where
  | entry : 0 < m.code.size → Path m [] 0
  | step {pcs : List Nat} {p q : Nat} : Path m pcs p → Flow m.code p q → Path m (pcs ++ [p]) q

theorem Path.size_pos {m : Method} {pcs : List Nat} {pc : Nat} (h : m.Path pcs pc) :
    0 < m.code.size := by
  induction h with
  | entry hne => exact hne
  | step _ _ ih => exact ih

/-- Control may arrive at the position in the state: some path leaves it. -/
def Arrives (m : Method) (s₀ : State) (pc : Nat) (t : State) : Prop :=
  ∃ pcs, m.Path pcs pc ∧ m.effectAlong s₀ pcs = .ok t

/-- Every instruction on a path has a settled state. -/
theorem Path.exists_settledAt {m : Method} {g : Graph} {s₀ : State} {events : List Event}
    {w : Worklist} (h : m.Solved g s₀ events w) {pcs : List Nat} {pc : Nat}
    (hpath : m.Path pcs pc) : ∃ a, m.SettledAt g w pc a := by
  induction hpath with
  | entry hne =>
      obtain ⟨a, ha, -⟩ := h.entry hne
      exact ⟨a, ha⟩
  | step _ hflow ih =>
      obtain ⟨a, ha⟩ := ih
      obtain ⟨i, hi⟩ := hflow.exists_instruction
      obtain ⟨t, -, hnext⟩ := h.step ha hi
      obtain ⟨a', ha', -⟩ := hnext _ (passes_of_flow h.built hflow)
      exact ⟨a', ha'⟩

/-- The first check that fails along some positions is that of an instruction which reads a register
never written. -/
def ReadsUnwritten (m : Method) (s : State) (pcs : List Nat) : Prop :=
  ∃ pre q post t r, pcs = pre ++ q :: post ∧ m.checkAlong s pre = .ok none ∧
    m.effectAlong s pre = .ok t ∧ t.get r = .ok .uninitialized ∧
    m.checkAt t q = .ok (some (.ofDefect q (.undefinedRead r .uninitialized)))

theorem ReadsUnwritten.append {m : Method} {s : State} {pcs : List Nat}
    (h : m.ReadsUnwritten s pcs) (rest : List Nat) : m.ReadsUnwritten s (pcs ++ rest) := by
  obtain ⟨pre, q, post, t, r, rfl, h⟩ := h
  exact ⟨pre, q, post ++ rest, t, r, by simp, h⟩

section Solved

variable {m : Method} {g : Graph} {s₀ : State} {events : List Event} {w : Worklist}
  (h : m.Solved g s₀ events w)
  (hcheck : ∀ pc a i, m.SettledAt g w pc a → m.code[pc]? = some i →
    i.check m.returns a = .ok none)
include h hcheck

/-- An instruction replayed in a state related to the settled one: it reads a register never
written, or passes its check and leaves a state related to what it leaves in the settled one. -/
theorem replay_step {pc : Nat} {i : Instruction} {t a a' : State} (hi : m.code[pc]? = some i)
    (hsim : State.Sim t a) (hsettled : m.SettledAt g w pc a) (ha' : i.effect a = .ok a') :
    (i.check m.returns t = .ok none ∧ ∃ t', i.effect t = .ok t' ∧ State.Sim t' a') ∨
      ∃ r, t.get r = .ok .uninitialized ∧
        i.check m.returns t = .ok (some (.undefinedRead r .uninitialized)) := by
  have hsize : t.size < UInt64.size := by
    rw [hsim.size, h.size_settledAt hsettled]
    exact m.registers.size.toNat_lt_size
  have hpass := hcheck pc a i hsettled hi
  rcases hsim.check hsize hpass with ht | hr
  · exact .inl ⟨ht, hsim.effect hsize ht hpass ha'⟩
  · exact .inr hr

/-- **Along a path the replayed state and the settled one are related**, up to the first read of a
register never written. -/
theorem Path.sim {pcs : List Nat} {pc : Nat} (hpath : m.Path pcs pc) :
    (∃ t a, m.checkAlong s₀ pcs = .ok none ∧ m.effectAlong s₀ pcs = .ok t ∧
      m.SettledAt g w pc a ∧ State.Sim t a) ∨ m.ReadsUnwritten s₀ pcs := by
  induction hpath with
  | entry hne =>
      obtain ⟨a, ha, hle⟩ := h.entry hne
      exact .inl ⟨s₀, a, rfl, rfl, ha, .of_le hle (paired_initialState h.initial)⟩
  | @step pcs p q _ hflow ih =>
      -- What was found before the last instruction is found again; else that instruction decides.
      rcases ih with ⟨t, a, hc, he, ha, hsim⟩ | hread
      · obtain ⟨i, hi⟩ := hflow.exists_instruction
        obtain ⟨a', ha', hnext⟩ := h.step ha hi
        rcases replay_step h hcheck hi hsim ha ha' with ⟨hp, t', ht', hsim'⟩ | ⟨r, hr, hd⟩
        · obtain ⟨b, hb, hle⟩ := hnext q (passes_of_flow h.built hflow)
          refine .inl ⟨t', b, ?_, ?_, hb, hsim'.mono hle⟩
          · exact (checkAlong_concat_eq_none_iff hi).mpr ⟨hc, t, t', he, hp, ht'⟩
          · exact (effectAlong_concat_eq_ok_iff hi).mpr ⟨t, he, ht'⟩
        · refine .inr ⟨pcs, p, [], t, r, rfl, hc, he, hr, ?_⟩
          rw [checkAt_of_getElem? hi, hd]
          rfl
      · exact .inr (hread.append [p])

/-- The replay of a path finds nothing at fault, or a read of a register never written. -/
theorem Path.replay {pcs : List Nat} {pc : Nat} (hpath : m.Path pcs pc) :
    m.checkAlong s₀ (pcs ++ [pc]) = .ok none ∨ m.ReadsUnwritten s₀ (pcs ++ [pc]) := by
  rcases hpath.sim h hcheck with ⟨t, a, hc, he, ha, hsim⟩ | hread
  · obtain ⟨i, hi⟩ := ha.exists_instruction h.built
    obtain ⟨a', ha', -⟩ := h.step ha hi
    rcases replay_step h hcheck hi hsim ha ha' with ⟨hp, t', ht', -⟩ | ⟨r, hr, hd⟩
    · exact .inl ((checkAlong_concat_eq_none_iff hi).mpr ⟨hc, t, t', he, hp, ht'⟩)
    · refine .inr ⟨pcs, pc, [], t, r, rfl, hc, he, hr, ?_⟩
      rw [checkAt_of_getElem? hi, hd]
      rfl
  · exact .inr (hread.append [pc])

end Solved

/-- **Type soundness.**  Whatever path control takes through a verified method, its replay from the
state on entry finds nothing at fault, unless it reads a register never written; and it finds that
before anything else. -/
theorem verified_sound {m : Method} (hv : m.verify = .ok .verified) {pcs : List Nat} {pc : Nat}
    (hpath : m.Path pcs pc) : ∃ s, m.initialState = .ok s ∧
      (m.checkAlong s (pcs ++ [pc]) = .ok none ∨ m.ReadsUnwritten s (pcs ++ [pc])) := by
  obtain ⟨g, s, events, w, h, hcheck⟩ := solved_of_verified hv
  exact ⟨s, h.initial, hpath.replay h hcheck⟩

/-- A loop: `v0` starts at zero, and `v1` is added to it until the sum is zero again. -/
def summation : Method where
  name := "summation"
  registers := ⟨2, [⟨⟨1⟩, .int⟩], Register.File.accepted_two⟩
  returns := .int
  code := #[
    ⟨⟨"const/4", .const, [Opcode.writes .int]⟩, [⟨0⟩], [], 0⟩,
    ⟨⟨"add-int/2addr", .binaryInPlace, [Opcode.updates .int, Opcode.reads .int]⟩,
      [⟨0⟩, ⟨1⟩], [], 0⟩,
    ⟨⟨"if-nez", .ifZero, [Opcode.reads .int]⟩, [⟨0⟩], [1], 0⟩,
    ⟨⟨"return", .returnValue, [Opcode.reads .narrow]⟩, [⟨0⟩], [], 0⟩]

/-- Once around the loop and out of it. -/
theorem path_summation : summation.Path [0, 1, 2, 1, 2] 3 := by
  have first : summation.Path [0] 1 := .step (.entry (by decide)) (.next rfl rfl (by decide))
  have back : Flow summation.code 2 1 := .jump (t := 1) rfl rfl List.mem_cons_self
  have once : summation.Path [0, 1, 2] 1 := .step (.step first (.next rfl rfl (by decide))) back
  exact .step (.step once (.next rfl rfl (by decide))) (.next rfl rfl (by decide))

theorem summation_sound : summation.verify = .ok .verified ∧ ∃ s, summation.initialState = .ok s ∧
    (summation.checkAlong s [0, 1, 2, 1, 2, 3] = .ok none ∨
      summation.ReadsUnwritten s [0, 1, 2, 1, 2, 3]) :=
  have verified : summation.verify = .ok .verified := by decide +kernel
  ⟨verified, verified_sound verified path_summation⟩

end Method

end BytecodeVerifier
