import BytecodeVerifier.Proofs.Steadiness
import BytecodeVerifier.Proofs.Verdict

/-!
# Confluence — how far settled states depend on the way to them

How code is cut into blocks, and in which order the blocks are visited, is no matter of what the
method does.  Two methods are *alike* where control comes (`Alike`) when they have the same frame,
and there the same instructions but for their targets, and control passes to the same positions.

If effects rise with the states in which they are met, **every state in which the first method is
met lies below the settled state of the second** (`Alike.met_le`): settled states are closed under
passages, and a merge of states below a bound is below it.  Both ways round this makes the settled
states equal, so the same instructions fail their checks, and the reports are the same
(`Alike.report_eq`).  Effects rise where both methods are steady (`Alike.effect_le`).
-/

namespace BytecodeVerifier

open Dataflow ControlFlow

namespace Method

/-! ### Reports -/

/-- The report is a matter of the instructions which fail. -/
theorem report_eq_of_fails_iff {m m' : Method} {g g' : Graph} {s₀ s₀' : State}
    {events events' : List Event} {w w' : Worklist} (h : m.Solved g s₀ events w)
    (h' : m'.Solved g' s₀' events' w')
    (hiff : ∀ pc d, m.Fails g w pc d ↔ m'.Fails g' w' pc d) {report report' : Report}
    (hr : m.verify = .ok report) (hr' : m'.verify = .ok report') : report = report' := by
  rcases h.report_cases hr with ⟨rfl, hnone⟩ | ⟨pc, d, rfl, hf, hfirst⟩
  · rcases h'.report_cases hr' with ⟨rfl, -⟩ | ⟨pc', d', rfl, hf', -⟩
    · rfl
    · exact absurd ((hiff pc' d').mpr hf') ((hnone pc').not_fails d')
  · rcases h'.report_cases hr' with ⟨rfl, hnone'⟩ | ⟨pc', d', rfl, hf', hfirst'⟩
    · exact absurd ((hiff pc d).mp hf) ((hnone' pc).not_fails d)
    · -- Each is the first to fail, so both are the same.
      obtain rfl : pc = pc' := by
        rcases Nat.lt_trichotomy pc pc' with hlt | e | hlt
        · exact absurd ((hiff pc d).mp hf) ((hfirst' pc hlt).not_fails d)
        · exact e
        · exact absurd ((hiff pc' d').mpr hf') ((hfirst pc' hlt).not_fails d')
      obtain rfl := hf.unique h.built ((hiff pc d').mpr hf')
      rfl

/-! ### Methods that are alike -/

/-- Where control comes in the first method, the second does the same and lets control pass to the
same positions.  The targets of an instruction say where control passes, and nothing else. -/
structure Alike (comes : Nat → Prop) (m : Method) (g : Graph) (m' : Method) (g' : Graph) :
    Prop where
  registers : m'.registers = m.registers
  returns : m'.returns = m.returns
  size : m'.code.size = m.code.size
  entry : 0 < m.code.size → comes 0
  instruction : ∀ p i, comes p → m.code[p]? = some i →
    ∃ targets, m'.code[p]? = some { i with targets := targets }
  passes : ∀ p q, comes p → g.Passes p q → g'.Passes p q ∧ comes q

namespace Alike

variable {comes comes' : Nat → Prop} {m m' : Method} {g g' : Graph} {s₀ : State}
  {events events' : List Event} {w w' : Worklist}

theorem refl : Alike (fun _ => True) m g m g :=
  ⟨rfl, rfl, rfl, fun _ => trivial, fun _ i _ hi => ⟨i.targets, hi⟩, fun _ _ _ hq => ⟨hq, trivial⟩⟩

theorem initialState (hA : Alike comes m g m' g') : m'.initialState = m.initialState := by
  unfold Method.initialState
  rw [hA.registers]

section Solved

variable (hA : Alike comes m g m' g') (h : m.Solved g s₀ events w)
  (h' : m'.Solved g' s₀ events' w')
include hA h h'

/-- **What is met in the first method lies below what is settled in the second**, if effects rise
from the one to the other. -/
theorem met_le
    (hrise : ∀ p i s a t u, comes p → m.code[p]? = some i → m.Meets g events p s →
      m'.SettledAt g' w' p a → s ≤ a → i.effect s = .ok t → i.effect a = .ok u → t ≤ u)
    {pc : Nat} {t : State} (hm : m.Meets g events pc t) :
    comes pc ∧ ∃ a, m'.SettledAt g' w' pc a ∧ t ≤ a := by
  have hpos : 0 < m.code.size := by
    obtain ⟨b, s, -, block, hb, -, hhi, -⟩ := hm
    exact Nat.lt_of_le_of_lt (Nat.zero_le pc) (Nat.lt_of_lt_of_le hhi (stop_le h.built hb))
  refine h.states (P := fun pc t => comes pc ∧ ∃ a, m'.SettledAt g' w' pc a ∧ t ≤ a) ?_ ?_ ?_
    pc t hm
  · rintro pc s t - - ⟨hc, a, ha, hs⟩ ⟨-, a', ha', ht⟩
    obtain rfl := ha.unique h'.built ha'
    exact ⟨hc, a, ha, State.merge_le hs ht⟩
  · rintro p q i s t hi hmeets ⟨hc, a, ha, hle⟩ ht hq
    obtain ⟨targets, hi'⟩ := hA.instruction p i hc hi
    obtain ⟨u, hu, hnext⟩ := h'.step ha hi'
    obtain ⟨hq', hc'⟩ := hA.passes p q hc hq
    obtain ⟨b, hb, hub⟩ := hnext q hq'
    exact ⟨hc', b, hb, le_trans (hrise p i s a t u hc hi hmeets ha hle ht hu) hub⟩
  · obtain ⟨a, ha, hle⟩ := h'.entry (hA.size ▸ hpos)
    exact ⟨hA.entry hpos, a, ha, hle⟩

variable (htable : ∀ i ∈ m.code, i.opcode ∈ Opcode.table) (hsteady : m.Steady g)
  (hsteady' : m'.Steady g')
include htable hsteady hsteady'

/-- Effects rise from one steady method to another, where control comes in both. -/
theorem effect_le {p : Nat} {i : Instruction} {s a t u : State} (hc : comes p)
    (hi : m.code[p]? = some i) (hm : m.Meets g events p s) (ha : m'.SettledAt g' w' p a)
    (hle : s ≤ a) (ht : i.effect s = .ok t) (hu : i.effect a = .ok u) : t ≤ u := by
  obtain ⟨targets, hi'⟩ := hA.instruction p i hc hi
  have hsize : a.size = m.registers.size.toNat := by
    rw [h'.size_settledAt ha, hA.registers]
  have hs : ¬ i.Unsettles s := hsteady p s i (by rw [h.solve]; exact hm) hi
  have ha' : ¬ i.Unsettles a := hsteady' p a { i with targets := targets }
    (by rw [h'.solve]; exact h'.meets ha) hi'
  exact Instruction.effect_mono (Opcode.isRegular_of_getElem? htable hi)
    (structured_of_build h.built hi) hsize hle hs ha' ht hu

/-- Where control comes in the first method, the settled states of the second lie above its own. -/
theorem settledAt_le {pc : Nat} {a : State} (ha : m.SettledAt g w pc a) :
    comes pc ∧ ∃ a', m'.SettledAt g' w' pc a' ∧ a ≤ a' :=
  hA.met_le h h' (fun _ _ _ _ _ _ hc => hA.effect_le h h' htable hsteady hsteady' hc) (h.meets ha)

end Solved

section Both

variable (hA : Alike comes m g m' g') (hA' : Alike comes' m' g' m g)
  (htable : ∀ i ∈ m.code, i.opcode ∈ Opcode.table)
  (htable' : ∀ i ∈ m'.code, i.opcode ∈ Opcode.table) (hsteady : m.Steady g)
  (hsteady' : m'.Steady g')
include hA hA' htable htable' hsteady hsteady'

/-- **Steady methods which are alike both ways have the same settled states.** -/
theorem settledAt (h : m.Solved g s₀ events w) (h' : m'.Solved g' s₀ events' w') {pc : Nat}
    {a : State} (ha : m.SettledAt g w pc a) : comes pc ∧ m'.SettledAt g' w' pc a := by
  obtain ⟨hc, a', ha', hle⟩ := hA.settledAt_le h h' htable hsteady hsteady' ha
  obtain ⟨-, a'', ha'', hle'⟩ := hA'.settledAt_le h' h htable' hsteady' hsteady ha'
  obtain rfl := ha.unique h.built ha''
  obtain rfl := le_antisymm hle hle'
  exact ⟨hc, ha'⟩

/-- The same instructions fail: no check looks at targets. -/
theorem fails (h : m.Solved g s₀ events w) (h' : m'.Solved g' s₀ events' w') {pc : Nat}
    {d : Defect} (hf : m.Fails g w pc d) : m'.Fails g' w' pc d := by
  obtain ⟨a, i, ha, hi, hd⟩ := hf
  obtain ⟨hc, ha'⟩ := hA.settledAt hA' htable htable' hsteady hsteady' h h' ha
  obtain ⟨targets, hi'⟩ := hA.instruction pc i hc hi
  refine ⟨a, { i with targets := targets }, ha', hi', ?_⟩
  rw [hA.returns]
  exact hd

/-- **Steady methods which are alike both ways have the same report.** -/
theorem report_eq (hg : Graph.build m.registers m.code = .ok g)
    (hg' : Graph.build m'.registers m'.code = .ok g') {report report' : Report}
    (hr : m.verify = .ok report) (hr' : m'.verify = .ok report') : report = report' := by
  obtain ⟨s₀, events, w, h⟩ := solved_of_report hg hr
  obtain ⟨s₀', events', w', h'⟩ := solved_of_report hg' hr'
  have hinitial := h'.initial
  rw [hA.initialState, h.initial] at hinitial
  obtain rfl := Except.ok.inj hinitial
  refine report_eq_of_fails_iff h h' (fun pc d => ⟨?_, ?_⟩) hr hr'
  · exact hA.fails hA' htable htable' hsteady hsteady' h h'
  · exact hA'.fails hA htable' htable hsteady' hsteady h' h

end Both

end Alike

end Method

end BytecodeVerifier
