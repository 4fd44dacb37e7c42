import BytecodeVerifier.Proofs.Settling
import BytecodeVerifier.Verify

/-!
# Passages — from blocks to instructions

Blocks are a matter of the analysis; everything that is claimed of a method is claimed of its
instructions.  `Graph.Passes` is the flow between instructions as the graph has it: it contains the
flow of the code, and is no more than that where only branches have targets.

Visits *meet* an instruction in a state when one of them is to the block of the instruction and
comes to the instruction in that state.  What holds on entry, passes along every passage and passes
to merges holds whenever solving meets an instruction (`solve_states`).  `SettledAt` is the state in
which an instruction is met at the end: it lies above the state on entry (`Solved.entry`), and above
what every instruction before it leaves (`Solved.step`).
-/

namespace BytecodeVerifier

open Dataflow ControlFlow

/-! ### Passages -/

namespace ControlFlow

/-- Control passes to the next instruction of a block, or from the last one of a block to the first
one of a successor. -/
inductive Graph.Passes (g : Graph) : Nat → Nat → Prop where
  | within {b pc : Nat} {block : Block} : g.blocks[b]? = some block → block.start ≤ pc →
      pc + 1 < block.stop → g.Passes pc (pc + 1)
  | across {b c pc : Nat} {block target : Block} : g.blocks[b]? = some block →
      block.start ≤ pc → pc + 1 = block.stop → c ∈ block.successors →
      g.blocks[c]? = some target → g.Passes pc target.start

section Built

variable {file : Register.File} {code : Array Instruction} {g : Graph}
  (hg : Graph.build file code = .ok g)
include hg

/-- A position of a block is that of an instruction. -/
theorem exists_instruction {b pc : Nat} {block : Block} (hb : g.blocks[b]? = some block)
    (hpc : pc < block.stop) : ∃ i, code[pc]? = some i :=
  ⟨_, Array.getElem?_eq_getElem (Nat.lt_of_lt_of_le hpc (stop_le hg hb))⟩

/-- A block with a successor is not empty. -/
theorem start_lt_stop {b c : Nat} {block : Block} (hb : g.blocks[b]? = some block)
    (hc : c ∈ block.successors) : block.start < block.stop := by
  by_cases hne : 0 < code.size
  · exact (block_bounds hg hne hb).1
  · obtain rfl := eq_connect_of_build hg
    obtain ⟨-, rfl⟩ := block_of_empty (by omega) hb
    cases hc

theorem passes_of_flow {p q : Nat} (h : Flow code p q) : g.Passes p q := by
  obtain ⟨i, hi⟩ := h.exists_instruction
  have hp : p < code.size := (Array.getElem?_eq_some_iff.mp hi).1
  obtain ⟨b, block, hb, hlo, hhi⟩ := exists_block hg hp
  rcases flow_cases hg h hb hlo hhi with ⟨rfl, hq⟩ | ⟨hstop, c, hc, target, ht, rfl, -⟩
  · exact .within hb hlo hq
  · exact .across hb hlo hstop hc ht

theorem flow_of_passes (hbr : OnlyBranchesHaveTargets code) {p q : Nat} (h : g.Passes p q) :
    Flow code p q := by
  cases h with
  | within hb hlo hhi => exact flow_within hg hb hlo hhi
  | @across b c pc block target hb hlo hstop hc ht =>
      have hsize := stop_le hg hb
      have h := flow_of_mem_successors hg hbr (by omega) hb hc ht
      rwa [show block.stop - 1 = p by omega] at h

end Built

end ControlFlow

namespace Method

/-! ### Several instructions -/

theorem effectAlong_append (m : Method) (s : State) (pre post : List Nat) :
    m.effectAlong s (pre ++ post) = m.effectAlong s pre >>= fun t => m.effectAlong t post := by
  simp [effectAlong, List.foldlM_append]

theorem effectAlong_cons (m : Method) (s : State) (pc : Nat) (pcs : List Nat) :
    m.effectAlong s (pc :: pcs) = m.effectAt s pc >>= fun t => m.effectAlong t pcs := rfl

theorem effectAlong_singleton (m : Method) (s : State) (pc : Nat) :
    m.effectAlong s [pc] = m.effectAt s pc := by
  rw [effectAlong_cons]
  cases m.effectAt s pc <;> rfl

theorem effectAt_of_getElem? {m : Method} {pc : Nat} {i : Instruction}
    (hi : m.code[pc]? = some i) (s : State) : m.effectAt s pc = i.effect s := by
  simp [effectAt, instruction, hi, bind, Except.bind]

theorem effectAlong_concat_eq_ok_iff {m : Method} {s t : State} {pcs : List Nat} {pc : Nat}
    {i : Instruction} (hi : m.code[pc]? = some i) : m.effectAlong s (pcs ++ [pc]) = .ok t ↔
      ∃ u, m.effectAlong s pcs = .ok u ∧ i.effect u = .ok t := by
  rw [effectAlong_append]
  constructor
  · intro h
    obtain ⟨u, hu, h⟩ := exists_of_bind_eq_ok h
    rw [effectAlong_singleton, effectAt_of_getElem? hi] at h
    exact ⟨u, hu, h⟩
  · rintro ⟨u, hu, h⟩
    rw [hu, ← h, ← effectAt_of_getElem? hi]
    exact effectAlong_singleton m u pc

theorem checkAt_of_getElem? {m : Method} {pc : Nat} {i : Instruction}
    (hi : m.code[pc]? = some i) (s : State) :
    m.checkAt s pc = (i.check m.returns s).map (Option.map (Violation.ofDefect pc)) := by
  simp only [checkAt, instruction, hi, bind, Except.bind]
  cases i.check m.returns s <;> rfl

theorem checkAt_eq_none_iff {m : Method} {pc : Nat} {i : Instruction}
    (hi : m.code[pc]? = some i) {s : State} :
    m.checkAt s pc = .ok none ↔ i.check m.returns s = .ok none := by
  rw [checkAt_of_getElem? hi]
  cases i.check m.returns s with
  | error f => simp [Except.map]
  | ok d => cases d <;> simp [Except.map]

/-- Nothing is at fault along some positions and then others, if nothing is along the first, nor
along the others in the state which the first leave. -/
theorem checkAlong_append_eq_none_iff {m : Method} {s : State} {pre post : List Nat} :
    m.checkAlong s (pre ++ post) = .ok none ↔ m.checkAlong s pre = .ok none ∧
      ∃ t, m.effectAlong s pre = .ok t ∧ m.checkAlong t post = .ok none := by
  induction pre generalizing s with
  | nil =>
      constructor
      · exact fun h => ⟨rfl, s, rfl, h⟩
      · rintro ⟨-, t, ht, h⟩
        cases ht
        exact h
  | cons pc pre ih =>
      rw [List.cons_append, effectAlong_cons, checkAlong, checkAlong]
      cases hc : m.checkAt s pc with
      | error f => simp [bind, Except.bind]
      | ok v =>
          cases v with
          | some v => simp [bind, Except.bind, pure, Except.pure]
          | none =>
              cases he : m.effectAt s pc with
              | error f => simp [bind, Except.bind]
              | ok t =>
                  simp only [bind, Except.bind]
                  exact ih

/-- Where nothing is at fault along some positions, checking goes on in the state which they
leave. -/
theorem checkAlong_append_of_none {m : Method} {s t : State} {pre : List Nat}
    (hc : m.checkAlong s pre = .ok none) (ht : m.effectAlong s pre = .ok t) (post : List Nat) :
    m.checkAlong s (pre ++ post) = m.checkAlong t post := by
  induction pre generalizing s with
  | nil =>
      cases ht
      rfl
  | cons pc pre ih =>
      rw [checkAlong] at hc
      rw [List.cons_append, checkAlong]
      rw [effectAlong_cons] at ht
      obtain ⟨v, hv, hc⟩ := exists_of_bind_eq_ok hc
      obtain ⟨u, hu, ht⟩ := exists_of_bind_eq_ok ht
      cases v with
      | some v => cases hc
      | none =>
          simp only [hv, hu, bind, Except.bind] at hc ⊢
          exact ih hc ht

theorem checkAlong_singleton_eq_none_iff {m : Method} {pc : Nat} {i : Instruction}
    (hi : m.code[pc]? = some i) {s : State} :
    m.checkAlong s [pc] = .ok none ↔
      i.check m.returns s = .ok none ∧ ∃ t, i.effect s = .ok t := by
  rw [← checkAt_eq_none_iff hi, ← effectAt_of_getElem? hi]
  unfold checkAlong
  cases m.checkAt s pc with
  | error f => simp [bind, Except.bind]
  | ok v =>
      cases v with
      | some v => simp [bind, Except.bind, pure, Except.pure]
      | none => cases m.effectAt s pc <;> simp [bind, Except.bind, checkAlong]

theorem checkAlong_concat_eq_none_iff {m : Method} {s : State} {pcs : List Nat} {pc : Nat}
    {i : Instruction} (hi : m.code[pc]? = some i) :
    m.checkAlong s (pcs ++ [pc]) = .ok none ↔ m.checkAlong s pcs = .ok none ∧
      ∃ t u, m.effectAlong s pcs = .ok t ∧ i.check m.returns t = .ok none ∧
        i.effect t = .ok u := by
  rw [checkAlong_append_eq_none_iff]
  simp only [checkAlong_singleton_eq_none_iff hi, exists_and_left]

/-! ### Within a block -/

theorem positions_split {block : Block} {pc : Nat} (hlo : block.start ≤ pc)
    (hhi : pc < block.stop) :
    block.positions = List.range' block.start (pc - block.start) ++
      pc :: List.range' (pc + 1) (block.stop - (pc + 1)) := by
  have hlen : block.length = (pc - block.start) + (block.stop - (pc + 1) + 1) := by
    unfold Block.length
    omega
  rw [Block.positions, hlen, ← List.range'_append_1, List.range'_succ]
  simp [show block.start + (pc - block.start) = pc by omega]

/-- A position before which stand those of a block up to it. -/
theorem eq_range'_of_positions {block : Block} {pre post : List Nat} {pc : Nat}
    (h : block.positions = pre ++ pc :: post) : block.start ≤ pc ∧ pc < block.stop ∧
      pre = List.range' block.start (pc - block.start) := by
  obtain ⟨k, hk, rfl, hrest⟩ := List.range'_eq_append_iff.mp h
  obtain ⟨hpc, hpos, -⟩ := List.range'_eq_cons_iff.mp hrest.symm
  unfold Block.length at hk hpos
  exact ⟨by omega, by omega, by rw [show pc - block.start = k by omega]⟩

/-- A block that is entered in one state comes to one of its instructions in another. -/
def Leads (m : Method) (g : Graph) (b : Nat) (s : State) (pc : Nat) (t : State) : Prop :=
  ∃ block, g.blocks[b]? = some block ∧ block.start ≤ pc ∧ pc < block.stop ∧
    m.effectAlong s (List.range' block.start (pc - block.start)) = .ok t

namespace Leads

variable {m : Method} {g : Graph} {b pc : Nat} {s t : State} {block : Block}

theorem start (hb : g.blocks[b]? = some block) (hne : block.start < block.stop) :
    m.Leads g b s block.start s :=
  ⟨block, hb, Nat.le_refl _, hne, by rw [Nat.sub_self]; rfl⟩

theorem size (h : m.Leads g b s pc t) : t.size = s.size := by
  obtain ⟨block, -, -, -, he⟩ := h
  exact size_effectAlong he

theorem next (h : m.Leads g b s pc t) (hb : g.blocks[b]? = some block) {i : Instruction}
    (hi : m.code[pc]? = some i) {u : State} (hu : i.effect t = .ok u)
    (hhi : pc + 1 < block.stop) : m.Leads g b s (pc + 1) u := by
  obtain ⟨block', hb', hlo, -, he⟩ := h
  obtain rfl : block = block' := Option.some.inj (hb.symm.trans hb')
  refine ⟨block, hb, Nat.le_succ_of_le hlo, hhi, ?_⟩
  rw [show pc + 1 - block.start = pc - block.start + 1 by omega, List.range'_concat,
    Nat.one_mul, show block.start + (pc - block.start) = pc by omega]
  exact (effectAlong_concat_eq_ok_iff hi).mpr ⟨t, he, hu⟩

/-- The effect of a block, in two parts. -/
theorem effectAlong_positions (h : m.Leads g b s pc t) (hb : g.blocks[b]? = some block) :
    m.effectAlong s block.positions = m.effectAt t pc >>= fun u =>
      m.effectAlong u (List.range' (pc + 1) (block.stop - (pc + 1))) := by
  obtain ⟨block', hb', hlo, hhi, he⟩ := h
  obtain rfl : block = block' := Option.some.inj (hb.symm.trans hb')
  rw [positions_split hlo hhi, effectAlong_append, he]
  rfl

/-- The last instruction leaves what the block leaves. -/
theorem last (h : m.Leads g b s pc t) (hb : g.blocks[b]? = some block)
    (hstop : pc + 1 = block.stop) {i : Instruction} (hi : m.code[pc]? = some i) :
    m.effectAlong s block.positions = i.effect t := by
  rw [h.effectAlong_positions hb, show block.stop - (pc + 1) = 0 by omega,
    effectAt_of_getElem? hi]
  cases i.effect t <;> rfl

end Leads

/-- Where the effect of a block succeeds, it comes to every instruction, whose effect succeeds. -/
theorem exists_leads {m : Method} {g : Graph} {b pc : Nat} {s exit : State} {block : Block}
    (hb : g.blocks[b]? = some block) (he : m.effectAlong s block.positions = .ok exit)
    (hlo : block.start ≤ pc) (hhi : pc < block.stop) {i : Instruction}
    (hi : m.code[pc]? = some i) : ∃ t, m.Leads g b s pc t ∧ ∃ u, i.effect t = .ok u := by
  rw [positions_split hlo hhi, effectAlong_append] at he
  obtain ⟨t, ht, he⟩ := exists_of_bind_eq_ok he
  obtain ⟨u, hu, -⟩ := exists_of_bind_eq_ok he
  rw [effectAt_of_getElem? hi] at hu
  exact ⟨t, ⟨block, hb, hlo, hhi, ht⟩, u, hu⟩

/-- Where the effect of several instructions faults, one of them does. -/
theorem effectAlong_eq_error {m : Method} {s : State} {pcs : List Nat} {f : Fault}
    (h : m.effectAlong s pcs = .error f) : ∃ pre pc post t, pcs = pre ++ pc :: post ∧
      m.effectAlong s pre = .ok t ∧ m.effectAt t pc = .error f := by
  induction pcs generalizing s with
  | nil => cases h
  | cons pc pcs ih =>
      rw [effectAlong_cons] at h
      cases he : m.effectAt s pc with
      | error f' =>
          rw [he] at h
          cases h
          exact ⟨[], pc, pcs, s, rfl, rfl, he⟩
      | ok u =>
          rw [he] at h
          obtain ⟨pre, q, post, t, e, ht, hq⟩ := ih h
          refine ⟨pc :: pre, q, post, t, by rw [e]; rfl, ?_, hq⟩
          rw [effectAlong_cons, he]
          exact ht

section Built

variable {m : Method} {g : Graph} (hg : Graph.build m.registers m.code = .ok g)
include hg

/-- Where the effect of a block faults, it comes to an instruction whose effect faults. -/
theorem exists_leads_of_error {b : Nat} {s : State} {block : Block} {f : Fault}
    (hb : g.blocks[b]? = some block) (he : m.effectAlong s block.positions = .error f) :
    ∃ pc t i, m.Leads g b s pc t ∧ m.code[pc]? = some i ∧ i.effect t = .error f := by
  obtain ⟨pre, pc, post, t, hsplit, ht, hpc⟩ := effectAlong_eq_error he
  obtain ⟨hlo, hhi, rfl⟩ := eq_range'_of_positions hsplit
  obtain ⟨i, hi⟩ := exists_instruction hg hb hhi
  rw [effectAt_of_getElem? hi] at hpc
  exact ⟨pc, t, i, ⟨block, hb, hlo, hhi, ht⟩, hi, hpc⟩

/-- What passes along passages passes from the start of a block to its instructions. -/
theorem Leads.preserves {b pc : Nat} {s t : State} {block : Block} {P : Nat → State → Prop}
    (hstep : ∀ p q i u v, m.code[p]? = some i → m.Leads g b s p u → P p u →
      i.effect u = .ok v → g.Passes p q → P q v)
    (hb : g.blocks[b]? = some block) (hs : P block.start s) (h : m.Leads g b s pc t) :
    P pc t := by
  obtain ⟨block', hb', hlo, hhi, he⟩ := h
  obtain rfl : block = block' := Option.some.inj (hb.symm.trans hb')
  obtain ⟨k, rfl⟩ := Nat.exists_eq_add_of_le hlo
  rw [Nat.add_sub_cancel_left] at he
  induction k generalizing t with
  | zero => cases he; exact hs
  | succ k ih =>
      obtain ⟨i, hi⟩ := exists_instruction hg hb (show block.start + k < block.stop by omega)
      rw [List.range'_concat, Nat.one_mul] at he
      obtain ⟨u, hu, he⟩ := (effectAlong_concat_eq_ok_iff hi).mp he
      have hlead : m.Leads g b s (block.start + k) u :=
        ⟨block, hb, by omega, by omega, by rwa [Nat.add_sub_cancel_left]⟩
      exact hstep _ _ i u t hi hlead (ih (by omega) (by omega) hu) he
        (.within hb (by omega) (by omega))

/-! ### What a run meets -/

/-- Among some visits is one to the block of the instruction, which comes to it in the state. -/
def Meets (m : Method) (g : Graph) (events : List Event) (pc : Nat) (t : State) : Prop :=
  ∃ b s, .visiting b s ∈ events ∧ m.Leads g b s pc t

/-- What holds of the state on entry, passes to merges and passes along passages from where an
instruction is met holds wherever an instruction is met: by the visits of a run, and by a visit
which it would make next. -/
theorem Run.states {s₀ : State} {w₀ w : Worklist} {events visits : List Event}
    (hrun : Run m g w₀ events w) (hst : m.Started g s₀ w₀)
    (hvisits : ∀ b s, .visiting b s ∈ events → .visiting b s ∈ visits)
    (hnext : ∀ b s, .visiting b s ∈ visits → .visiting b s ∈ events ∨ w.Entry b s)
    {P : Nat → State → Prop}
    (hmerge : ∀ pc s t, s.size = m.registers.size.toNat → t.size = m.registers.size.toNat →
      P pc s → P pc t → P pc (s.merge t))
    (hstep : ∀ p q i s t, m.code[p]? = some i → m.Meets g visits p s → P p s →
      i.effect s = .ok t → g.Passes p q → P q t)
    (hinit : P 0 s₀) : ∀ pc t, m.Meets g visits pc t → P pc t := by
  have hlead {b : Nat} {s : State} (hs : .visiting b s ∈ visits) :
      ∀ p q i u v, m.code[p]? = some i → m.Leads g b s p u → P p u → i.effect u = .ok v →
        g.Passes p q → P q v := fun p q i u v hi hl => hstep p q i u v hi ⟨b, s, hs, hl⟩
  obtain ⟨hlast, hevents⟩ := hrun.entries hg hst.fits
    (P := fun b s => ∀ block, g.blocks[b]? = some block → P block.start s)
    (fun b s t hs ht h₁ h₂ block hb => hmerge _ s t hs ht (h₁ block hb) (h₂ block hb))
    (fun b block s t c hs hb hP he hc target ht => by
      -- The last instruction of the block leaves the state in which a successor is entered.
      have hne := start_lt_stop hg hb hc
      obtain ⟨i, hi⟩ := exists_instruction hg hb (show block.stop - 1 < block.stop by omega)
      obtain ⟨u, hu, -⟩ := exists_leads hb he (show block.start ≤ block.stop - 1 by omega)
        (by omega) hi
      rw [hu.last hb (by omega) hi] at he
      exact hlead (hvisits b s hs) _ _ i u t hi hu
        (hu.preserves hg (hlead (hvisits b s hs)) hb (hP block hb)) he
        (.across hb (by omega) (by omega) hc ht))
    (fun b e he block hb => by
      obtain ⟨rfl, rfl⟩ := hst.only b e he
      rw [start_entry hg hb]
      exact hinit)
  rintro pc t ⟨b, s, hs, hl⟩
  obtain ⟨block, hb, -⟩ := id hl
  refine hl.preserves hg (hlead hs) hb ?_
  rcases hnext b s hs with h | h
  · exact hevents b s h block hb
  · exact hlast b s h block hb

/-- An instruction that a run meets has an effect there. -/
theorem Run.effect_of_meets {w w' : Worklist} {events : List Event} (h : Run m g w events w')
    (hw : m.Fits g w) {pc : Nat} {t : State} (hm : m.Meets g events pc t) {i : Instruction}
    (hi : m.code[pc]? = some i) : ∃ u, i.effect t = .ok u := by
  obtain ⟨b, s, hs, hl⟩ := hm
  induction h with
  | refl w => cases hs
  | step hp hv _ ih =>
      obtain ⟨hw₂, block, exit, hvis⟩ := visited_of_visit hg hw hp hv
      rcases List.mem_cons.mp hs with e | hs
      · cases e
        have he := hvis.effect
        rw [hl.effectAlong_positions hvis.found, effectAt_of_getElem? hi] at he
        obtain ⟨u, hu, -⟩ := exists_of_bind_eq_ok he
        exact ⟨u, hu⟩
      · exact ih hw₂ hs

/-- An entry state is visited, unless its block is on the stack or it was there before the run. -/
theorem Run.visited {w w' : Worklist} {events : List Event} (h : Run m g w events w')
    (hw : m.Fits g w) {b : Nat} {e : State} (he : w'.Entry b e) (hnot : b ∉ w'.stack) :
    .visiting b e ∈ events ∨ (w.Entry b e ∧ b ∉ w.stack) := by
  induction h with
  | refl w => exact .inr ⟨he, hnot⟩
  | @step w w₁ w₂ w' c s events hp hv hrun ih =>
      obtain ⟨hw₂, block, exit, hvis⟩ := visited_of_visit hg hw hp hv
      have hpop := Worklist.popped_of_pop hp
      rcases ih hw₂ he hnot with h | ⟨he₂, hnot₂⟩
      · exact .inl (List.mem_cons_of_mem _ h)
      · have hold : w.Entry b e := by
          rw [Worklist.Entry, ← hpop.entries, ← hvis.flowed.kept b hnot₂]
          exact he₂
        by_cases hb : b = c
        · subst hb
          obtain rfl := hold.unique hpop.entry
          exact .inl List.mem_cons_self
        · refine .inr ⟨hold, ?_⟩
          rw [hpop.stack, List.mem_cons]
          rintro (h | h)
          · exact hb h
          · exact hnot₂ (hvis.flowed.stack b h)

/-! ### Settled states -/

/-- The state in which an instruction is met in the entry states that a worklist has. -/
def SettledAt (m : Method) (g : Graph) (w : Worklist) (pc : Nat) (a : State) : Prop :=
  ∃ b e, w.Entry b e ∧ m.Leads g b e pc a

theorem SettledAt.exists_instruction {w : Worklist} {pc : Nat} {a : State}
    (h : m.SettledAt g w pc a) : ∃ i, m.code[pc]? = some i := by
  obtain ⟨b, e, -, block, hb, -, hhi, -⟩ := h
  exact ControlFlow.exists_instruction hg hb hhi

/-- An instruction has one settled state at most. -/
theorem SettledAt.unique {w : Worklist} {pc : Nat} {a a' : State} (h : m.SettledAt g w pc a)
    (h' : m.SettledAt g w pc a') : a = a' := by
  obtain ⟨b, e, he, block, hb, hlo, hhi, hl⟩ := h
  obtain ⟨b', e', he', block', hb', hlo', hhi', hl'⟩ := h'
  obtain rfl := block_unique hg hb hlo hhi hb' hlo' hhi'
  obtain rfl := he.unique he'
  obtain rfl : block = block' := Option.some.inj (hb.symm.trans hb')
  exact Except.ok.inj (hl.symm.trans hl')

end Built

/-! ### Solutions -/

/-- Solving has ended: a run from the state on entry has left nothing to visit. -/
structure Solved (m : Method) (g : Graph) (s₀ : State) (events : List Event) (w : Worklist) :
    Prop where
  built : Graph.build m.registers m.code = .ok g
  solve : m.solve g = (events, .ok w)
  run : ∃ w₀, m.Started g s₀ w₀ ∧ Run m g w₀ events w
  done : w.stack = []

namespace Solved

variable {m : Method} {g : Graph} {s₀ : State} {events : List Event} {w : Worklist}
  (h : m.Solved g s₀ events w)
include h

theorem initial : m.initialState = .ok s₀ := by
  obtain ⟨w₀, hst, -⟩ := h.run
  exact hst.initial

theorem fits : m.Fits g w := by
  obtain ⟨w₀, hst, hrun⟩ := h.run
  exact (hrun.fits h.built hst.fits).1

theorem covers : m.Covers g w := by
  obtain ⟨w₀, hst, hrun⟩ := h.run
  refine hrun.covers h.built hst.fits fun b e he hnot => ?_
  obtain ⟨rfl, rfl⟩ := hst.only b e he
  exact absurd hst.stack hnot

theorem size_settledAt {pc : Nat} {a : State} (ha : m.SettledAt g w pc a) :
    a.size = m.registers.size.toNat := by
  obtain ⟨b, e, he, hl⟩ := ha
  rw [hl.size, h.fits.sizes b e he]

/-- The first block has an entry state, above the state on entry. -/
theorem entry_zero : ∃ e, w.Entry 0 e ∧ s₀ ≤ e := by
  obtain ⟨w₀, hst, hrun⟩ := h.run
  exact (hrun.fits h.built hst.fits).2 0 s₀ hst.entry

/-- The state on entry lies below the settled one. -/
theorem entry (hne : 0 < m.code.size) : ∃ a, m.SettledAt g w 0 a ∧ s₀ ≤ a := by
  obtain ⟨e, he, hle⟩ := h.entry_zero
  obtain ⟨block, hb⟩ := exists_first h.built
  have hl := Leads.start (m := m) (s := e) hb (block_bounds h.built hne hb).1
  rw [start_entry h.built hb] at hl
  exact ⟨e, ⟨0, e, he, hl⟩, hle⟩

/-- **Settled states are closed under passages**: the effect of an instruction in its settled state
succeeds, and leaves a state below the settled state of every instruction to which control
passes. -/
theorem step {p : Nat} {a : State} (ha : m.SettledAt g w p a) {i : Instruction}
    (hi : m.code[p]? = some i) :
    ∃ t, i.effect a = .ok t ∧ ∀ q, g.Passes p q → ∃ a', m.SettledAt g w q a' ∧ t ≤ a' := by
  obtain ⟨b, e, he, hl⟩ := ha
  -- Nothing is left to visit, so the block of the instruction is covered.
  obtain ⟨block, exit, hb, hexit, hsucc⟩ := h.covers b e he
    (by rw [h.done]; exact List.not_mem_nil)
  obtain ⟨block', hb', hlo, hhi, -⟩ := id hl
  obtain rfl : block = block' := Option.some.inj (hb.symm.trans hb')
  obtain ⟨a', hl', t, ht⟩ := exists_leads hb hexit hlo hhi hi
  obtain rfl := SettledAt.unique h.built ⟨b, e, he, hl⟩ ⟨b, e, he, hl'⟩
  refine ⟨t, ht, fun q hq => ?_⟩
  cases hq with
  | within hc hlo' hhi' =>
      obtain rfl := block_unique h.built hb hlo hhi hc hlo' (by omega)
      exact ⟨t, ⟨b, e, he, hl.next hc hi ht hhi'⟩, le_refl t⟩
  | @across c d pc block' target hc hlo' hstop hd htarget =>
      obtain rfl := block_unique h.built hb hlo hhi hc hlo' (by omega)
      obtain rfl : block = block' := Option.some.inj (hb.symm.trans hc)
      obtain rfl : exit = t := Except.ok.inj (hexit.symm.trans ((hl.last hb hstop hi).trans ht))
      obtain ⟨e', he', hle⟩ := hsucc d hd
      have hsize := stop_le h.built hb
      exact ⟨e', ⟨d, e', he', .start htarget (block_bounds h.built (by omega) htarget).1⟩, hle⟩

/-- A block is visited in the entry state which it has at the end. -/
theorem visiting {b : Nat} {e : State} (he : w.Entry b e) : .visiting b e ∈ events := by
  obtain ⟨w₀, hst, hrun⟩ := h.run
  rcases hrun.visited h.built hst.fits he (by rw [h.done]; exact List.not_mem_nil) with
    hv | ⟨h', hnot⟩
  · exact hv
  · obtain ⟨rfl, rfl⟩ := hst.only b e h'
    exact absurd hst.stack hnot

/-- A settled state is one in which its instruction is met. -/
theorem meets {pc : Nat} {a : State} (ha : m.SettledAt g w pc a) : m.Meets g events pc a := by
  obtain ⟨b, e, he, hl⟩ := ha
  exact ⟨b, e, h.visiting he, hl⟩

/-- What holds on entry, passes to merges and passes along passages from where an instruction is met
holds wherever an instruction is met. -/
theorem states {P : Nat → State → Prop}
    (hmerge : ∀ pc s t, s.size = m.registers.size.toNat → t.size = m.registers.size.toNat →
      P pc s → P pc t → P pc (s.merge t))
    (hstep : ∀ p q i s t, m.code[p]? = some i → m.Meets g events p s → P p s →
      i.effect s = .ok t → g.Passes p q → P q t)
    (hinit : P 0 s₀) : ∀ pc t, m.Meets g events pc t → P pc t := by
  obtain ⟨w₀, hst, hrun⟩ := h.run
  exact hrun.states h.built hst (fun _ _ hs => hs) (fun _ _ hs => .inl hs) hmerge hstep hinit

end Solved

/-- **How solving ends**: at the state on entry, which may fault; with a solution; or at a block
whose effect faults in the state in which it is visited. -/
theorem solve_cases {m : Method} {g : Graph} (hg : Graph.build m.registers m.code = .ok g) :
    (∃ f, m.initialState = .error f ∧ m.solve g = ([], .error f)) ∨
    (∃ s₀ events w, m.Solved g s₀ events w) ∨
    ∃ s₀ w₀ events w b t block f, m.Started g s₀ w₀ ∧ Run m g w₀ events w ∧ w.Entry b t ∧
      g.blocks[b]? = some block ∧ m.effectAlong t block.positions = .error f ∧
      m.solve g = (events ++ [.visiting b t], .error f) := by
  rcases solve_runs hg with hfault | ⟨s₀, w₀, events, w, -, hst, hrun, hend⟩
  · exact .inl hfault
  · rcases hend with ⟨hempty, e⟩ | ⟨b, t, w₁, block, f, hp, hb, he, e⟩
    · exact .inr (.inl ⟨s₀, events, w,
        ⟨hg, e, ⟨w₀, hst, hrun⟩, by simpa [Worklist.isEmpty] using hempty⟩⟩)
    · exact .inr (.inr ⟨s₀, w₀, events, w, b, t, block, f, hst, hrun,
        (Worklist.popped_of_pop hp).entry, hb, he, e⟩)

/-- Where solving returns, it has ended with a solution. -/
theorem solved_of_solve {m : Method} {g : Graph} {events : List Event} {w : Worklist}
    (hg : Graph.build m.registers m.code = .ok g) (hsolve : m.solve g = (events, .ok w)) :
    ∃ s₀, m.Solved g s₀ events w := by
  rcases solve_cases hg with ⟨f, -, e⟩ | ⟨s₀, events', w', h⟩ |
    ⟨_, _, _, _, _, _, _, f, -, -, -, -, -, e⟩
  · rw [hsolve] at e
    cases e
  · have e := hsolve.symm.trans h.solve
    cases e
    exact ⟨s₀, h⟩
  · rw [hsolve] at e
    cases e

/-- **What holds whenever an instruction is met.**  It holds on entry, passes to merges, and passes
along passages from where an instruction is met. -/
theorem solve_states {m : Method} {g : Graph} (hg : Graph.build m.registers m.code = .ok g)
    {s₀ : State} (hs₀ : m.initialState = .ok s₀) {P : Nat → State → Prop}
    (hmerge : ∀ pc s t, s.size = m.registers.size.toNat → t.size = m.registers.size.toNat →
      P pc s → P pc t → P pc (s.merge t))
    (hstep : ∀ p q i s t, m.code[p]? = some i → m.Meets g (m.solve g).1 p s → P p s →
      i.effect s = .ok t → g.Passes p q → P q t)
    (hinit : P 0 s₀) : ∀ pc t, m.Meets g (m.solve g).1 pc t → P pc t := by
  rcases solve_cases hg with ⟨f, hf, -⟩ | ⟨s, events, w, h⟩ |
    ⟨s, w₀, events, w, b, t, block, f, hst, hrun, he, -, -, hsolve⟩
  · rw [hs₀] at hf
    cases hf
  · obtain rfl : s₀ = s := Except.ok.inj (hs₀.symm.trans h.initial)
    rw [h.solve] at hstep ⊢
    exact h.states hmerge hstep hinit
  · obtain rfl : s₀ = s := Except.ok.inj (hs₀.symm.trans hst.initial)
    rw [hsolve] at hstep ⊢
    refine hrun.states hg hst (fun _ _ hs => List.mem_append_left _ hs) (fun c u hu => ?_) hmerge
      hstep hinit
    rcases List.mem_append.mp hu with hu | hu
    · exact .inl hu
    · cases List.mem_singleton.mp hu
      exact .inr he

end Method

end BytecodeVerifier
