import BytecodeVerifier.Proofs.Confluence
import BytecodeVerifier.Proofs.Soundness
import Mathlib.Order.Bounds.Basic

/-!
# Inflow — what settled entry states are made of

Whenever a block is visited, what it leaves is joined into the entry states of its successors.  So
at the end what a block leaves lies below the entry states of its successors (`solve_covers`), and
an entry state is the least upper bound of everything that ever flowed in (`Solved.isLUB_inflow`).

What flowed in at first may have been superseded since: the block was visited again, in a higher
entry state.  **If the method is steady, an entry state is the least upper bound of what flows in at
the end** (`Solved.isLUB_entries`), because what was superseded lies below what superseded it.
Otherwise an entry state may hold a leftover, a `⊤` that no predecessor leaves any longer
(`leftover_superseded`).
-/

namespace BytecodeVerifier

open Dataflow ControlFlow

namespace Method

/-- What flows into a block, if blocks are entered in the states given: what its predecessors leave,
and for the first block the state on entry. -/
def Inflow (m : Method) (g : Graph) (s₀ : State) (enters : Nat → State → Prop) (c : Nat) :
    Set State :=
  {x | (c = 0 ∧ x = s₀) ∨ ∃ target, g.blocks[c]? = some target ∧ ∃ b ∈ target.predecessors,
    ∃ block s, g.blocks[b]? = some block ∧ enters b s ∧ m.effectAlong s block.positions = .ok x}

/-- The same from the side of the predecessors. -/
theorem mem_inflow_iff {m : Method} {g : Graph} (hg : Graph.build m.registers m.code = .ok g)
    {s₀ x : State} {enters : Nat → State → Prop} {c : Nat} :
    x ∈ m.Inflow g s₀ enters c ↔ (c = 0 ∧ x = s₀) ∨ ∃ b block s, g.blocks[b]? = some block ∧
      c ∈ block.successors ∧ enters b s ∧ m.effectAlong s block.positions = .ok x := by
  obtain rfl := eq_connect_of_build hg
  refine or_congr Iff.rfl ⟨?_, ?_⟩
  · rintro ⟨target, ht, b, hb, block, s, hblock, hs, hx⟩
    obtain ⟨block', hblock', hc⟩ := (mem_predecessors_iff ht).mp hb
    obtain rfl : block = block' := Option.some.inj (hblock.symm.trans hblock')
    exact ⟨b, block, s, hblock, hc, hs, hx⟩
  · rintro ⟨b, block, s, hblock, hc, hs, hx⟩
    obtain ⟨target, ht⟩ : ∃ target, (connect m.code).blocks[c]? = some target :=
      ⟨_, Array.getElem?_eq_getElem (successor_lt hg hblock hc)⟩
    have hb := (mem_predecessors_iff ht).mpr ⟨block, hblock, hc⟩
    exact ⟨target, ht, b, hb, block, s, hblock, hs, hx⟩

namespace Solved

variable {m : Method} {g : Graph} {s₀ : State} {events : List Event} {w : Worklist}
  (h : m.Solved g s₀ events w)
include h

/-! ### Everything that flowed in -/

theorem inflow_le {c : Nat} {e x : State} (he : w.Entry c e)
    (hx : x ∈ m.Inflow g s₀ (fun b s => .visiting b s ∈ events) c) : x ≤ e := by
  rcases (mem_inflow_iff h.built).mp hx with ⟨rfl, rfl⟩ | ⟨b, block, s, hb, hc, hs, hx⟩
  · obtain ⟨e', he', hle⟩ := h.entry_zero
    obtain rfl := he.unique he'
    exact hle
  · obtain ⟨w₀, hst, hrun⟩ := h.run
    obtain ⟨block', exit, hb', hexit, hnext⟩ := hrun.arrives h.built hst.fits hs
    obtain rfl : block = block' := Option.some.inj (hb.symm.trans hb')
    obtain rfl : x = exit := Except.ok.inj (hx.symm.trans hexit)
    obtain ⟨e', he', hle⟩ := hnext c hc
    obtain rfl := he.unique he'
    exact hle

/-- **An entry state is the least upper bound of everything that flowed in.** -/
theorem isLUB_inflow {c : Nat} {e : State} (he : w.Entry c e) :
    IsLUB (m.Inflow g s₀ (fun b s => .visiting b s ∈ events) c) e := by
  refine ⟨fun x hx => h.inflow_le he hx, ?_⟩
  obtain ⟨w₀, hst, hrun⟩ := h.run
  -- A bound of what flowed in is a bound of the first state, and stays one over every merge.
  refine (hrun.entries h.built hst.fits (P := fun c e => e ∈ lowerBounds
    (upperBounds (m.Inflow g s₀ (fun b s => .visiting b s ∈ events) c))) ?_ ?_ ?_).1 c e he
  · intro c s t _ _ hs ht u hu
    exact State.merge_le (hs hu) (ht hu)
  · intro b block s t c hs hb _ ht hc u hu
    exact hu ((mem_inflow_iff h.built).mpr (.inr ⟨b, block, s, hb, hc, hs, ht⟩))
  · intro b e he u hu
    obtain ⟨rfl, rfl⟩ := hst.only b e he
    exact hu ((mem_inflow_iff h.built).mpr (.inl ⟨rfl, rfl⟩))

/-! ### What flows in at the end -/

theorem inflow_entries_subset (c : Nat) : m.Inflow g s₀ w.Entry c ⊆
    m.Inflow g s₀ (fun b s => .visiting b s ∈ events) c := by
  intro x hx
  rcases (mem_inflow_iff h.built).mp hx with hfirst | ⟨b, block, s, hb, hc, hs, hx⟩
  · exact (mem_inflow_iff h.built).mpr (.inl hfirst)
  · exact (mem_inflow_iff h.built).mpr (.inr ⟨b, block, s, hb, hc, h.visiting hs, hx⟩)

/-- **When there are no leftovers**: what bounds all that flows in at the end bounds all that ever
flowed in. -/
theorem isLUB_entries_iff {c : Nat} {e : State} (he : w.Entry c e) :
    IsLUB (m.Inflow g s₀ w.Entry c) e ↔ upperBounds (m.Inflow g s₀ w.Entry c) ⊆
      upperBounds (m.Inflow g s₀ (fun b s => .visiting b s ∈ events) c) := by
  obtain ⟨hupper, hleast⟩ := h.isLUB_inflow he
  constructor
  · intro hlub u hu x hx
    exact le_trans (hupper hx) (hlub.2 hu)
  · intro hsub
    refine ⟨fun x hx => hupper (h.inflow_entries_subset c hx), fun u hu => hleast (hsub hu)⟩

/-- In a steady method what a visit leaves lies below what the block leaves at the end. -/
theorem exit_le (htable : ∀ i ∈ m.code, i.opcode ∈ Opcode.table) (hsteady : m.Steady g)
    {b c : Nat} {block : Block} {s x : State} (hs : .visiting b s ∈ events)
    (hb : g.blocks[b]? = some block) (hc : c ∈ block.successors)
    (hx : m.effectAlong s block.positions = .ok x) :
    ∃ e y, w.Entry b e ∧ m.effectAlong e block.positions = .ok y ∧ x ≤ y := by
  have hA : Alike (fun _ => True) m g m g := .refl
  have hne := start_lt_stop h.built hb hc
  have hstop : block.stop - 1 + 1 = block.stop := Nat.sub_add_cancel (Nat.zero_lt_of_lt hne)
  have hlo : block.start ≤ block.stop - 1 := Nat.le_pred_of_lt hne
  have hhi : block.stop - 1 < block.stop := Nat.lt_of_succ_le (Nat.le_of_eq hstop)
  -- The last instruction is met in a state below its settled one, and leaves what the block leaves.
  obtain ⟨i, hi⟩ := exists_instruction h.built hb hhi
  obtain ⟨t, hl, -⟩ := exists_leads hb hx hlo hhi hi
  have hmeets : m.Meets g events (block.stop - 1) t := ⟨b, s, hs, hl⟩
  obtain ⟨-, a, ha, hle⟩ := hA.met_le h h
    (fun _ _ _ _ _ _ hc => hA.effect_le h h htable hsteady hsteady hc) hmeets
  obtain ⟨y, hy, -⟩ := h.step ha hi
  have hxy : x ≤ y := by
    rw [hl.last hb hstop hi] at hx
    exact hA.effect_le h h htable hsteady hsteady trivial hi hmeets ha hle hx hy
  obtain ⟨b', e, he, hl'⟩ := ha
  obtain ⟨block', hb', hlo', hhi', -⟩ := id hl'
  obtain rfl := block_unique h.built hb hlo hhi hb' hlo' hhi'
  exact ⟨e, y, he, (hl'.last hb hstop hi).trans hy, hxy⟩

/-- **In a steady method there are no leftovers.** -/
theorem isLUB_entries (htable : ∀ i ∈ m.code, i.opcode ∈ Opcode.table) (hsteady : m.Steady g)
    {c : Nat} {e : State} (he : w.Entry c e) : IsLUB (m.Inflow g s₀ w.Entry c) e := by
  refine (h.isLUB_entries_iff he).mpr ?_
  intro u hu x hx
  rcases (mem_inflow_iff h.built).mp hx with hfirst | ⟨b, block, s, hb, hc, hs, hx⟩
  · exact hu ((mem_inflow_iff h.built).mpr (.inl hfirst))
  · obtain ⟨e', y, he', hy, hle⟩ := h.exit_le htable hsteady hs hb hc hx
    exact le_trans hle (hu ((mem_inflow_iff h.built).mpr (.inr ⟨b, block, e', hb, hc, he', hy⟩)))

end Solved

/-! ### Solving -/

/-- **The settled states cover every edge.**  The entry state of the first block lies above the
state on entry.  A successor of a visited block is visited, and its entry state lies above what the
block leaves in its own. -/
theorem solve_covers {m : Method} {g : Graph} {events : List Event} {w : Worklist}
    (hg : Graph.build m.registers m.code = .ok g) (hsolve : m.solve g = (events, .ok w)) :
    (∃ s₀ e, m.initialState = .ok s₀ ∧ w.entryOf 0 = .ok (some e) ∧ s₀ ≤ e) ∧
    ∀ b, w.visited.contains b = true → ∃ block e exit, g.blocks[b]? = some block ∧
      w.entryOf b = .ok (some e) ∧ m.effectAlong e block.positions = .ok exit ∧
      ∀ c ∈ block.successors, w.visited.contains c = true ∧
        ∃ e', w.entryOf c = .ok (some e') ∧ exit ≤ e' := by
  obtain ⟨s₀, h⟩ := solved_of_solve hg hsolve
  obtain ⟨e, he, hle⟩ := h.entry_zero
  refine ⟨⟨s₀, e, h.initial, Worklist.entryOf_of_entry he, hle⟩, fun b hb => ?_⟩
  obtain ⟨e, he⟩ := (h.fits.visited b).mp hb
  -- Nothing is left on the stack, so no block is excused.
  obtain ⟨block, exit, hblock, hexit, hnext⟩ := h.covers b e he
    (by rw [h.done]; exact List.not_mem_nil)
  refine ⟨block, e, exit, hblock, Worklist.entryOf_of_entry he, hexit, fun c hc => ?_⟩
  obtain ⟨e', he', hle⟩ := hnext c hc
  exact ⟨(h.fits.visited c).mpr ⟨e', he'⟩, e', Worklist.entryOf_of_entry he', hle⟩

theorem solved_summation :
    ∃ s₀ events w, summation.Solved (connect summation.code) s₀ events w := by
  have verified : summation.verify = .ok .verified := by decide +kernel
  exact solved_of_report (by decide +kernel) verified

theorem visited_summation {events : List Event} {w : Worklist}
    (hsolve : summation.solve (connect summation.code) = (events, .ok w)) :
    w.visited.contains 1 = true := by
  have visited : (summation.solve (connect summation.code)).2.toOption.map
      (fun w => w.visited.contains 1) = some true := by decide +kernel
  rw [hsolve] at visited
  exact Option.some.inj visited

/-- What the loop of `summation` leaves lies below the state in which it is entered. -/
theorem summation_covers : ∃ g events w block e exit,
    Graph.build summation.registers summation.code = .ok g ∧
    summation.solve g = (events, .ok w) ∧ g.blocks[1]? = some block ∧ 1 ∈ block.successors ∧
    w.entryOf 1 = .ok (some e) ∧ summation.effectAlong e block.positions = .ok exit ∧ exit ≤ e := by
  obtain ⟨_, events, w, h⟩ := solved_summation
  obtain ⟨block, e, exit, hb, he, hexit, hnext⟩ :=
    (solve_covers h.built h.solve).2 1 (visited_summation h.solve)
  have successors : (connect summation.code).blocks[1]?.map (·.successors) = some [2, 1] := by
    decide +kernel
  rw [hb] at successors
  have loops : 1 ∈ block.successors := by
    rw [show block.successors = [2, 1] from Option.some.inj successors]
    decide
  obtain ⟨-, e', he', hle⟩ := hnext 1 loops
  obtain rfl : e = e' := Option.some.inj (Except.ok.inj (he.symm.trans he'))
  exact ⟨_, events, w, block, e, exit, h.built, h.solve, hb, loops, he, hexit, hle⟩

/-- **What a settled entry state is made of.**  It is the least upper bound of what ever flowed in.
It is that of what flows in at the end just when what bounds the latter bounds the former; and so it
is if the method is steady. -/
theorem solve_isLUB {m : Method} {g : Graph} {events : List Event} {w : Worklist}
    (hg : Graph.build m.registers m.code = .ok g)
    (htable : ∀ i ∈ m.code, i.opcode ∈ Opcode.table) (hsolve : m.solve g = (events, .ok w)) :
    ∃ s₀, m.initialState = .ok s₀ ∧ ∀ c, w.visited.contains c = true →
      ∃ e, w.entryOf c = .ok (some e) ∧
        IsLUB (m.Inflow g s₀ (fun b s => .visiting b s ∈ events) c) e ∧
        (IsLUB (m.Inflow g s₀ w.Entry c) e ↔ upperBounds (m.Inflow g s₀ w.Entry c) ⊆
          upperBounds (m.Inflow g s₀ (fun b s => .visiting b s ∈ events) c)) ∧
        (m.Steady g → IsLUB (m.Inflow g s₀ w.Entry c) e) := by
  obtain ⟨s₀, h⟩ := solved_of_solve hg hsolve
  refine ⟨s₀, h.initial, fun c hc => ?_⟩
  obtain ⟨e, he⟩ := (h.fits.visited c).mp hc
  exact ⟨e, Worklist.entryOf_of_entry he, h.isLUB_inflow he, h.isLUB_entries_iff he,
    fun hsteady => h.isLUB_entries htable hsteady he⟩

/-- In the loop of `summation` there are no leftovers. -/
theorem summation_isLUB : ∃ g s₀ events w e,
    Graph.build summation.registers summation.code = .ok g ∧
    (∀ i ∈ summation.code, i.opcode ∈ Opcode.table) ∧ summation.solve g = (events, .ok w) ∧
    summation.initialState = .ok s₀ ∧ summation.Steady g ∧ w.entryOf 1 = .ok (some e) ∧
    IsLUB (summation.Inflow g s₀ w.Entry 1) e := by
  have table : ∀ i ∈ summation.code, i.opcode ∈ Opcode.table := by decide +kernel
  have steady : summation.Steady (connect summation.code) := by decide +kernel
  obtain ⟨_, events, w, h⟩ := solved_summation
  obtain ⟨s₀, hs₀, hall⟩ := solve_isLUB h.built table h.solve
  obtain ⟨e, he, -, -, hlub⟩ := hall 1 (visited_summation h.solve)
  exact ⟨_, s₀, events, w, e, h.built, table, h.solve, hs₀, steady, he, hlub steady⟩

/-- There are three ways: one writes `v0` and `v1`, one a long over both, and one `v1`.  The last
two meet and write `v1` anew; then all three meet and write `v0`, and `v1` is returned. -/
def leftover : Method where
  name := "leftover"
  registers := ⟨3, [⟨⟨2⟩, .int⟩], Register.File.accepted_three⟩
  returns := .int
  code := #[
    ⟨⟨"if-eqz", .ifZero, [Opcode.reads .int]⟩, [⟨2⟩], [4], 0⟩,
    ⟨⟨"const/4", .const, [Opcode.writes .int]⟩, [⟨0⟩], [], 0⟩,
    ⟨⟨"const/4", .const, [Opcode.writes .int]⟩, [⟨1⟩], [], 0⟩,
    ⟨⟨"goto", .goto, []⟩, [], [9], 0⟩,
    ⟨⟨"if-eqz", .ifZero, [Opcode.reads .int]⟩, [⟨2⟩], [7], 0⟩,
    ⟨⟨"const-wide", .const, [Opcode.writes .long]⟩, [⟨0⟩], [], 0⟩,
    ⟨⟨"goto", .goto, []⟩, [], [8], 0⟩,
    ⟨⟨"const/4", .const, [Opcode.writes .int]⟩, [⟨1⟩], [], 0⟩,
    ⟨⟨"const/4", .const, [Opcode.writes .int]⟩, [⟨1⟩], [], 0⟩,
    ⟨⟨"const/4", .const, [Opcode.writes .int]⟩, [⟨0⟩], [], 0⟩,
    ⟨⟨"goto", .goto, []⟩, [], [11], 0⟩,
    ⟨⟨"return", .returnValue, [Opcode.reads .narrow]⟩, [⟨1⟩], [], 0⟩]

/-- **An entry state may hold a leftover.**  Where all three ways meet `v0` is for a while the low
half of the long, left alone, and the write of `v0` makes `⊤` of `v1`; in the end `v0` is `⊤` there,
and the write leaves `v1` an int. -/
theorem leftover_superseded : ∃ g s₀ events w e u,
    Graph.build leftover.registers leftover.code = .ok g ∧
    (∀ i ∈ leftover.code, i.opcode ∈ Opcode.table) ∧ leftover.initialState = .ok s₀ ∧
    leftover.solve g = (events, .ok w) ∧ w.visited.contains 7 = true ∧
    w.entryOf 7 = .ok (some e) ∧ u ∈ upperBounds (leftover.Inflow g s₀ w.Entry 7) ∧ ¬ e ≤ u := by
  have built : Graph.build leftover.registers leftover.code = .ok (connect leftover.code) := by
    decide +kernel
  have rejected : leftover.verify =
      .ok (.rejected (.ofDefect 11 (.undefinedRead ⟨1⟩ .conflict))) := by decide +kernel
  obtain ⟨s₀, events, w, h⟩ := solved_of_report built rejected
  have settled : (leftover.solve (connect leftover.code)).2.toOption.map
      (fun w => (w.entries[6]?, w.entries[7]?)) = some (some (some ⟨#[.conflict, .int, .int]⟩),
        some (some ⟨#[.int, .conflict, .int]⟩)) := by decide +kernel
  rw [h.solve] at settled
  obtain ⟨hbefore, hafter⟩ : w.Entry 6 ⟨#[.conflict, .int, .int]⟩ ∧
      w.Entry 7 ⟨#[.int, .conflict, .int]⟩ := Prod.mk.inj (Option.some.inj settled)
  refine ⟨_, s₀, events, w, _, ⟨#[.int, .int, .int]⟩, built, by decide +kernel, h.initial, h.solve,
    (h.fits.visited 7).mpr ⟨_, hafter⟩, Worklist.entryOf_of_entry hafter, ?_, ?_⟩
  · -- All that flows in at the end is what the block before leaves.
    intro x hx
    rcases hx with ⟨e, -⟩ | ⟨target, ht, b, hb, block, s, hblock, hs, hx⟩
    · cases e
    · have before : (connect leftover.code).blocks[7]?.map (·.predecessors) = some [6] := by
        decide +kernel
      rw [ht] at before
      rw [show target.predecessors = [6] from Option.some.inj before, List.mem_singleton] at hb
      subst hb
      have positions : (connect leftover.code).blocks[6]?.map (·.positions) = some [9, 10] := by
        decide +kernel
      rw [hblock] at positions
      have leaves : leftover.effectAlong ⟨#[.conflict, .int, .int]⟩ [9, 10] =
          .ok ⟨#[.int, .int, .int]⟩ := by decide +kernel
      rw [show block.positions = [9, 10] from Option.some.inj positions, hs.unique hbefore,
        leaves] at hx
      exact le_of_eq (Except.ok.inj hx).symm
  · intro hle
    have hslot := State.valueAt_le hle 1
    revert hslot
    decide

end Method

end BytecodeVerifier
