import BytecodeVerifier.Proofs.Soundness
import Mathlib.Data.List.Perm.Subperm

/-!
# Termination — how many visits solving makes

Every visit is paid for.  In a frame of `n` registers the entry state of a block rises at most
`2 * n + 1` times: when the block is first reached, and then by one value of one register at least.
A block is put on the stack only when its entry state rises, so what the entry states can still rise
by, together with what is on the stack, bounds the visits to come (`Worklist.budget`).  No join
raises the budget, also not one into a block that waits already (`Sound.budget_join_le`), and a pop
takes one from it (`budget_pop`).

Hence **solving a method of `B` blocks and `N` registers makes at most `B * (2 * N + 1)` visits**
(`solve_ends`).  What the instructions do has no part in this: entry states only rise, whether or
not effects do.

The budget counts no more than it must because the worklist is sound.  `Worklist.potential`, which
makes `settle` a total function, knows nothing of soundness, and is more than twice as large.
-/

namespace BytecodeVerifier

open Dataflow ControlFlow

namespace Dataflow.Worklist

/-! ### The budget -/

/-- What bounds the visits to come: how far the entry states can still rise, and what waits on the
stack. -/
def budget (n : Nat) (w : Worklist) : Nat := w.rise n + w.stack.length

/-- A pop takes one from the budget. -/
theorem budget_pop {n : Nat} {w w' : Worklist} {b : Nat} {s : State}
    (h : w.pop = .ok (b, s, w')) : w'.budget n + 1 = w.budget n := by
  have hpop := popped_of_pop h
  rw [budget, budget, rise, rise, hpop.entries, hpop.stack, List.length_cons, Nat.add_assoc]

/-- **A join does not raise the budget**: it puts a block on the stack only if it makes the entry
state of the block rise. -/
theorem Sound.budget_join_le {n k : Nat} {w w' : Worklist} {b : Nat} {s : State}
    (hw : w.Sound n k) (hs : s.size = n) (h : w.join b s = .ok w') :
    w'.budget n ≤ w.budget n := by
  obtain ⟨entry, t, changed, he, hm, hcases⟩ := join_cases h
  cases changed with
  | true =>
      have hlt := rise_record_lt (Nat.le_of_eq hs) he hm
      rcases hcases with ⟨-, rfl⟩ | rfl
      · show (w.record b t).rise n + (w.stack.length + 1) ≤ w.rise n + w.stack.length
        omega
      · exact Nat.add_le_add_right (Nat.le_of_lt hlt) _
  | false =>
      -- Nothing changes only where there is an entry state, and such a block was visited.
      have hvisited : w.visited.contains b = true := by
        cases entry with
        | none => cases hm
        | some e => exact (hw.visited b).mpr ⟨e, he⟩
      rcases hcases with ⟨hc, -⟩ | rfl
      · simp [hvisited] at hc
      · exact Nat.le_refl _

/-- Nor does flowing into several blocks. -/
theorem Sound.budget_flowInto_le {n k : Nat} {w w' : Worklist} (hw : w.Sound n k) {s : State}
    (hs : s.size = n) {blocks : List Nat} (hb : ∀ c ∈ blocks, c < k)
    (h : w.flowInto s blocks = .ok w') : w'.budget n ≤ w.budget n := by
  induction blocks generalizing w with
  | nil =>
      cases h
      exact Nat.le_refl _
  | cons c blocks ih =>
      obtain ⟨w₁, h₁, hw₁, -⟩ := hw.join (hb c List.mem_cons_self) hs
      unfold Worklist.flowInto at h
      rw [List.foldlM_cons, h₁] at h
      exact Nat.le_trans (ih hw₁ (fun d hd => hb d (List.mem_cons_of_mem _ hd)) h)
        (hw.budget_join_le hs h₁)

/-- Entry states that are known leave less to rise by than blocks not reached. -/
theorem riseOf_add_countP_le {n : Nat} {es : List (Option State)}
    (h : ∀ s, some s ∈ es → s.size = n) :
    riseOf n es + es.countP Option.isSome ≤ es.length * (2 * n + 1) := by
  induction es with
  | nil => simp [riseOf]
  | cons e es ih =>
      have hrest := ih fun s hs => h s (List.mem_cons_of_mem _ hs)
      rw [riseOf, List.countP_cons, List.length_cons, Nat.succ_mul]
      cases e with
      | none =>
          simp only [weight, Option.isSome_none, Bool.false_eq_true, if_false]
          omega
      | some s =>
          have hslack := s.slack_le
          rw [h s List.mem_cons_self] at hslack
          simp only [weight, Option.isSome_some, if_true]
          omega

end Dataflow.Worklist

namespace Method

/-! ### Runs -/

/-- The budget at the start: the first block alone has an entry state, and it alone is on the
stack. -/
theorem Started.budget_le {m : Method} {g : Graph} {s : State} {w : Worklist}
    (h : m.Started g s w) :
    w.budget m.registers.size.toNat ≤ g.size * (2 * m.registers.size.toNat + 1) := by
  have hsizes : ∀ t, some t ∈ w.entries.toList → t.size = m.registers.size.toNat := by
    intro t ht
    obtain ⟨b, hb⟩ := List.mem_iff_getElem?.mp ht
    exact h.fits.sizes b t (by rwa [Array.getElem?_toList] at hb)
  have hknown : 0 < w.entries.toList.countP Option.isSome := by
    refine List.countP_pos_iff.mpr ⟨some s, ?_, rfl⟩
    exact List.mem_of_getElem? (by rw [Array.getElem?_toList]; exact h.entry)
  have hstack : w.stack.length ≤ 1 := by
    have hsub : w.stack ⊆ [0] := by
      intro b hb
      obtain ⟨e, he⟩ := h.fits.scheduled b hb
      exact List.mem_singleton.mpr (h.only b e he).1
    exact (List.Nodup.subperm h.fits.nodup hsub).length_le
  have hrise := Worklist.riseOf_add_countP_le hsizes
  rw [Array.length_toList, h.fits.blocks] at hrise
  unfold Worklist.budget Worklist.rise
  omega

section Built

variable {m : Method} {g : Graph} (hg : Graph.build m.registers m.code = .ok g)
include hg

/-- **Every run is paid for from the budget.** -/
theorem Run.length_add_budget_le {w w' : Worklist} {events : List Event}
    (h : Run m g w events w') (hw : m.Fits g w) :
    events.length + w'.budget m.registers.size.toNat ≤ w.budget m.registers.size.toNat := by
  induction h with
  | refl w => exact Nat.le_of_eq (Nat.zero_add _)
  | step hp hv _ ih =>
      obtain ⟨hw₂, block, exit, hvis⟩ := visited_of_visit hg hw hp hv
      have hrest := ih hw₂
      have hflow := (hw.of_pop hp).budget_flowInto_le hvis.size
        (fun c hc => successor_lt hg hvis.found hc) hvis.flow
      have hpop := Worklist.budget_pop (n := m.registers.size.toNat) hp
      rw [List.length_cons]
      omega

/-- A run from the start and what it leaves on the stack stay within the limit. -/
theorem Started.run_le {s : State} {w₀ w : Worklist} {visits : List Event}
    (h : m.Started g s w₀) (hrun : Run m g w₀ visits w) :
    visits.length + w.stack.length ≤ g.size * (2 * m.registers.size.toNat + 1) := by
  have hle := hrun.length_add_budget_le hg h.fits
  have hstart := h.budget_le
  unfold Worklist.budget at hle
  unfold Worklist.budget at hstart
  omega

theorem started_of_start {w : Worklist} (h : m.start g = .ok w) : ∃ s, m.Started g s w := by
  obtain ⟨s, hs, -⟩ := exists_of_bind_eq_ok h
  obtain ⟨w', hw', hst⟩ := start_of_initialState hg hs
  obtain rfl : w = w' := Except.ok.inj (h.symm.trans hw')
  exact ⟨s, hst⟩

end Built

/-! ### Solving -/

/-- **Solving ends.**  It takes at most `B * (2 * N + 1)` blocks off the worklist, in a method of
`B` blocks and `N` registers; nor could any run from the start take more, those still on the stack
included.  Unless there is no state on entry, solving makes such a run: to an empty worklist, or to
a block in which the effect of an instruction faults. -/
theorem solve_ends {m : Method} {g : Graph} (hg : Graph.build m.registers m.code = .ok g) :
    (m.solve g).1.length ≤ g.size * (2 * m.registers.size.toNat + 1) ∧
    (∀ w₀ visits w, m.start g = .ok w₀ → Run m g w₀ visits w →
      visits.length + w.stack.length ≤ g.size * (2 * m.registers.size.toNat + 1)) ∧
    ((∃ f, m.initialState = .error f ∧ m.solve g = ([], .error f)) ∨
      ∃ w₀ visits w, m.start g = .ok w₀ ∧ Run m g w₀ visits w ∧
        ((w.isEmpty = true ∧ m.solve g = (visits, .ok w)) ∨
          ∃ b s rest pc t i f, w.pop = .ok (b, s, rest) ∧ m.Leads g b s pc t ∧
            m.code[pc]? = some i ∧ i.effect t = .error f ∧
            m.solve g = (visits ++ [.visiting b s], .error f))) := by
  have hruns : ∀ w₀ visits w, m.start g = .ok w₀ → Run m g w₀ visits w →
      visits.length + w.stack.length ≤ g.size * (2 * m.registers.size.toNat + 1) := by
    intro w₀ visits w hstart hrun
    obtain ⟨s, hst⟩ := started_of_start hg hstart
    exact hst.run_le hg hrun
  rcases solve_runs hg with ⟨f, hs, e⟩ | ⟨s₀, w₀, visits, w, hstart, -, hrun, hend⟩
  · refine ⟨?_, hruns, .inl ⟨f, hs, e⟩⟩
    rw [e]
    exact Nat.zero_le _
  · have hle := hruns w₀ visits w hstart hrun
    rcases hend with ⟨hempty, e⟩ | ⟨b, t, rest, block, f, hp, hb, he, e⟩
    · refine ⟨?_, hruns, .inr ⟨w₀, visits, w, hstart, hrun, .inl ⟨hempty, e⟩⟩⟩
      rw [e]
      exact Nat.le_trans (Nat.le_add_right _ _) hle
    · obtain ⟨pc, u, i, hl, hi, hfault⟩ := exists_leads_of_error hg hb he
      refine ⟨?_, hruns, .inr ⟨w₀, visits, w, hstart, hrun,
        .inr ⟨b, t, rest, pc, u, i, f, hp, hl, hi, hfault, e⟩⟩⟩
      -- The block whose effect faults was on the stack, so it is paid for.
      rw [(Worklist.popped_of_pop hp).stack, List.length_cons] at hle
      rw [e, List.length_append, List.length_singleton]
      exact Nat.le_trans (by omega) hle

/-- A loop which `v0` enters as an int and comes back to as a float, so that its blocks are visited
twice. -/
def conversion : Method where
  name := "conversion"
  registers := ⟨2, [⟨⟨1⟩, .int⟩], Register.File.accepted_two⟩
  returns := .void
  code := #[
    ⟨⟨"const/4", .const, [Opcode.writes .int]⟩, [⟨0⟩], [], 0⟩,
    ⟨⟨"if-eqz", .ifZero, [Opcode.reads .int]⟩, [⟨1⟩], [4], 0⟩,
    ⟨⟨"int-to-float", .unary, [Opcode.writes .float, Opcode.reads .int]⟩, [⟨0⟩, ⟨1⟩], [], 0⟩,
    ⟨⟨"goto", .goto, []⟩, [], [1], 0⟩,
    ⟨⟨"return-void", .returnVoid, []⟩, [], [], 0⟩]

theorem conversion_ends : ∃ g w₀ visits w,
    Graph.build conversion.registers conversion.code = .ok g ∧ conversion.start g = .ok w₀ ∧
    Run conversion g w₀ visits w ∧ w.isEmpty = true ∧ conversion.solve g = (visits, .ok w) ∧
    visits.length ≤ g.size * (2 * conversion.registers.size.toNat + 1) := by
  have built : Graph.build conversion.registers conversion.code =
      .ok (connect conversion.code) := by decide +kernel
  have returns : (conversion.solve (connect conversion.code)).2.toOption.isSome = true := by
    decide +kernel
  obtain ⟨hle, -, hend⟩ := solve_ends built
  rcases hend with ⟨f, -, e⟩ | ⟨w₀, visits, w, hstart, hrun, ⟨hempty, e⟩ |
    ⟨_, _, _, _, _, _, _, -, -, -, -, e⟩⟩
  · rw [e] at returns
    cases returns
  · rw [e] at hle
    exact ⟨_, w₀, visits, w, built, hstart, hrun, hempty, e, hle⟩
  · rw [e] at returns
    cases returns

end Method

end BytecodeVerifier
