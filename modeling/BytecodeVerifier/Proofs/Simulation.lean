import BytecodeVerifier.Proofs.Transfer

/-!
# Simulation — a state of a path and the state the analysis has for it

The state which a path leaves need not lie below the one which the analysis has.  A merge may keep
one half of a pair and lose the other; a write over the lost half then breaks the pair on the path,
where the half that stays becomes `⊤`, but breaks nothing in the analysis, where that half stays a
half.  Such a half is *stranded*: beside it stands a value which it does not go with, and it cannot
be read any more.  So `Sim s a` asks each slot of `s` to lie below that of `a`, or to hold `⊤` where
`a` has a stranded half.

`Sim` passes to larger states of the analysis (`Sim.mono`).  Where an instruction passes its check
in the state of the analysis it passes it on the path too, unless it reads a register never written
there (`Sim.check`), and then both states stay related (`Sim.effect`).
-/

namespace BytecodeVerifier

namespace Dataflow.State

/-- The slot holds a half, beside a value which it does not go with. -/
def Stranded (a : State) (i : Nat) : Prop :=
  ((a.valueAt i).isWideLow = true ∧ a.valueAt (i + 1) ≠ .uninitialized ∧
    (a.valueAt i).high? ≠ some (a.valueAt (i + 1))) ∨
  ((a.valueAt i).isWideHigh = true ∧ ∃ j, i = j + 1 ∧ a.valueAt j ≠ .uninitialized ∧
    (a.valueAt j).high? ≠ some (a.valueAt i))

/-- A stranded half holds a value. -/
theorem Stranded.isDefined {a : State} {i : Nat} (h : a.Stranded i) :
    (a.valueAt i).isDefined = true := by
  rcases h with ⟨h, -⟩ | ⟨h, -⟩
  · exact Value.isDefined_of_isWideLow h
  · exact Value.isDefined_of_isWideHigh h

/-- A stranded half stays stranded, unless it conflicts with another value. -/
theorem Stranded.mono {a a' : State} {i : Nat} (h : a.Stranded i) (hle : a ≤ a')
    (hne : a'.valueAt i ≠ .conflict) : a'.Stranded i := by
  have hdef := Value.ne_uninitialized_of_isDefined h.isDefined
  have hsame : a'.valueAt i = a.valueAt i := by
    rcases Value.eq_or_conflict_of_le (valueAt_le hle i) hdef with e | e
    · exact e
    · exact absurd e hne
  rcases h with ⟨hlow, hnext, hhigh⟩ | ⟨hhigh, j, rfl, hprev, hlow⟩
  · refine .inl ⟨hsame ▸ hlow, ?_⟩
    rcases Value.eq_or_conflict_of_le (valueAt_le hle (i + 1)) hnext with e | e
    · rw [hsame, e]
      exact ⟨hnext, hhigh⟩
    · rw [e]
      refine ⟨by decide, fun hc => ?_⟩
      cases Value.isWideHigh_of_high? hc
  · refine .inr ⟨hsame ▸ hhigh, j, rfl, ?_⟩
    rcases Value.eq_or_conflict_of_le (valueAt_le hle j) hprev with e | e
    · rw [hsame, e]
      exact ⟨hprev, hlow⟩
    · rw [e]
      exact ⟨by decide, fun hc => by cases hc⟩

section Store

variable {a : State} {i j : Nat} {v : Value} (hroom : a.Room i v) (hv : v ≠ .uninitialized)
  (hhigh : ¬ v.isWideHigh = true)
include hroom hv

/-- What a write puts beside a low half strands it. -/
theorem stranded_low_of_store (hlow : ((a.store i v).valueAt j).isWideLow = true)
    (hi : i = j + 1) (hhigh : ¬ v.isWideHigh = true) : (a.store i v).Stranded j := by
  subst hi
  refine .inl ⟨hlow, ?_⟩
  rw [store_at hroom]
  exact ⟨hv, fun hc => hhigh (Value.isWideHigh_of_high? hc)⟩

/-- What a write puts beside a high half strands it. -/
theorem stranded_high_of_store (hhigh : ((a.store i v).valueAt j).isWideHigh = true)
    (hj : (j = i + 1 ∧ ¬ v.isWideLow = true) ∨ (j = i + 2 ∧ v.isWideLow = true)) :
    (a.store i v).Stranded j := by
  rcases hj with ⟨rfl, hlow⟩ | ⟨rfl, hlow⟩
  · refine .inr ⟨hhigh, i, rfl, ?_⟩
    rw [store_at hroom, Value.high?_eq_none hlow]
    exact ⟨hv, fun hc => by cases hc⟩
  · obtain ⟨high, hh⟩ := Value.isWideLow_iff.mp hlow
    have hw := Value.isWideHigh_of_high? hh
    refine .inr ⟨hhigh, i + 1, rfl, ?_⟩
    rw [store_next hroom hh, Value.high?_eq_none (Value.not_isWideLow_of_isWideHigh hw)]
    exact ⟨Value.ne_uninitialized_of_isDefined (Value.isDefined_of_isWideHigh hw),
      fun hc => by cases hc⟩

include hhigh

/-- A stranded half which a write leaves alone stays stranded. -/
theorem Stranded.store (h : a.Stranded j) (hj : j ≠ i)
    (hnext : v.isWideLow = true → j ≠ i + 1)
    (hsame : (a.store i v).valueAt j = a.valueAt j) : (a.store i v).Stranded j := by
  rcases h with ⟨hlow, hne, hmis⟩ | ⟨hhi, k, rfl, hne, hmis⟩
  -- Whatever the write does to the slot beside the half, it puts no half there which goes with it.
  · rcases store_cases hroom (j + 1) with ⟨e, -⟩ | ⟨e, -⟩ | ⟨-, -, -, e⟩ | ⟨-, -, -, e⟩
    · exact stranded_low_of_store hroom hv (hsame ▸ hlow) e.symm hhigh
    · exact absurd (Nat.succ.inj e) hj
    · refine .inl ⟨hsame ▸ hlow, ?_⟩
      rw [e]
      refine ⟨by decide, fun hc => ?_⟩
      cases Value.isWideHigh_of_high? hc
    · refine .inl ⟨hsame ▸ hlow, ?_⟩
      rw [e, hsame]
      exact ⟨hne, hmis⟩
  · rcases store_cases hroom k with ⟨rfl, -⟩ | ⟨rfl, e⟩ | ⟨-, -, -, e⟩ | ⟨-, -, -, e⟩
    · exact stranded_high_of_store hroom hv (hsame ▸ hhi) (.inl ⟨rfl, fun hl => hnext hl rfl⟩)
    · exact stranded_high_of_store hroom hv (hsame ▸ hhi)
        (.inr ⟨rfl, Value.isWideLow_of_high? e⟩)
    · refine .inr ⟨hsame ▸ hhi, k, rfl, ?_⟩
      rw [e]
      exact ⟨by decide, fun hc => by cases hc⟩
    · refine .inr ⟨hsame ▸ hhi, k, rfl, ?_⟩
      rw [e, hsame]
      exact ⟨hne, hmis⟩

/-- Where a write breaks a pair of a paired state and leaves a slot of another state alone, the slot
holds what it held in the first, and is stranded. -/
theorem stranded_of_spoils {s : State} (hpaired : s.Paired) (hsp : s.Spoils i v j)
    (hnext : v.isWideLow = true → j ≠ i + 1) (hsame : (a.store i v).valueAt j = a.valueAt j)
    (heq : a.valueAt j = s.valueAt j) : (a.store i v).Stranded j := by
  have hval : (a.store i v).valueAt j = s.valueAt j := hsame.trans heq
  rcases hsp with ⟨hh, hi⟩ | ⟨hl, rfl⟩ | ⟨hl, -, hl', rfl⟩
  · subst hi
    exact stranded_low_of_store hroom hv (hval ▸ hpaired.low_of_high_succ hh) rfl hhigh
  · exact stranded_high_of_store hroom hv
      (hval ▸ Value.isWideHigh_of_high? (hpaired.continued i hl))
      (.inl ⟨rfl, fun hl' => hnext hl' rfl⟩)
  · exact stranded_high_of_store hroom hv
      (hval ▸ Value.isWideHigh_of_high? (hpaired.continued (i + 1) hl')) (.inr ⟨rfl, hl⟩)

end Store

/-! ### The simulation -/

/-- A state of a path, and the one which the analysis has. -/
structure Sim (s a : State) : Prop where
  size : s.size = a.size
  paired : s.Paired
  slot : ∀ i, s.valueAt i ≤ a.valueAt i ∨ (s.valueAt i = .conflict ∧ a.Stranded i)

namespace Sim

theorem of_le {s a : State} (h : s ≤ a) (hp : s.Paired) : Sim s a :=
  ⟨size_eq_of_le h, hp, fun i => .inl (valueAt_le h i)⟩

/-- The analysis may know less. -/
theorem mono {s a a' : State} (h : Sim s a) (hle : a ≤ a') : Sim s a' := by
  refine ⟨h.size.trans (size_eq_of_le hle), h.paired, fun i => ?_⟩
  rcases h.slot i with hi | ⟨hi, hst⟩
  · exact .inl (le_trans hi (valueAt_le hle i))
  · by_cases hc : a'.valueAt i = .conflict
    · rw [hc]
      exact .inl (Value.le_conflict _)
    · exact .inr ⟨hi, hst.mono hle hc⟩

/-- What a path holds other than `⊥` and `⊤`, the analysis has too, or it has `⊤`. -/
theorem eq_or_conflict {s a : State} (h : Sim s a) {i : Nat}
    (hi : (s.valueAt i).isDefined = true) :
    a.valueAt i = s.valueAt i ∨ a.valueAt i = .conflict := by
  rcases h.slot i with hle | ⟨e, -⟩
  · exact Value.eq_or_conflict_of_le hle (Value.ne_uninitialized_of_isDefined hi)
  · exact absurd e (Value.ne_conflict_of_isDefined hi)

/-- **Writing the same value** into both states keeps them related. -/
theorem store {s a : State} (h : Sim s a) {i : Nat} {v : Value} (hs : s.Room i v)
    (ha : a.Room i v) (hv : v ≠ .uninitialized) (hhigh : ¬ v.isWideHigh = true) :
    Sim (s.store i v) (a.store i v) := by
  refine ⟨by rw [size_store, size_store, h.size], h.paired.store hs hhigh, fun j => ?_⟩
  rcases store_cases ha j with ⟨rfl, e⟩ | ⟨rfl, e⟩ | ⟨-, -, -, e⟩ | ⟨hj, hnext, -, e⟩
  · rw [e, store_at hs]
    exact .inl (le_refl v)
  · rw [store_next hs e]
    exact .inl (le_refl _)
  · rw [e]
    exact .inl (Value.le_conflict _)
  · by_cases hsp : s.Spoils i v j
    · -- The path breaks a pair of which the analysis has at most one half.
      rw [store_spoiled hs hsp hj hnext]
      rcases h.eq_or_conflict (h.paired.isDefined_of_spoils hsp) with heq | hc
      · exact .inr ⟨rfl, stranded_of_spoils ha hv hhigh h.paired hsp hnext e heq⟩
      · rw [e, hc]
        exact .inl (le_refl _)
    · rw [store_other hs hsp hj hnext, e]
      rcases h.slot j with hle | ⟨hc, hst⟩
      · exact .inl hle
      · exact .inr ⟨hc, hst.store ha hv hhigh hj hnext e⟩

/-- **Writing the same values** into both states, one after the other. -/
theorem writeEach {s a a' : State} (h : Sim s a) (hsize : s.size < UInt64.size)
    {ws : List (Register × Value)} (hws : ∀ w ∈ ws, w.2 ≠ .uninitialized ∧ ¬ w.2.isWideHigh = true)
    (ha : a.writeEach ws = .ok a') : ∃ s', s.writeEach ws = .ok s' ∧ Sim s' a' := by
  induction ws generalizing s a with
  | nil =>
      cases ha
      exact ⟨s, rfl, h⟩
  | cons w ws ih =>
      obtain ⟨a₁, h₁, ha⟩ := writeEach_cons_eq_ok ha
      obtain ⟨hroom, rfl⟩ := (write_eq_ok_iff (h.size ▸ hsize)).mp h₁
      obtain ⟨hv, hhigh⟩ := hws w List.mem_cons_self
      have hs : s.Room w.1.toNat w.2 := h.paired.room (h.size ▸ hroom.1)
        fun hl => h.size ▸ (hroom.2.2 hl).1
      obtain ⟨s', hs', hsim⟩ := ih (h.store hs hroom hv hhigh) (by rwa [size_store])
        (fun w' hw' => hws w' (List.mem_cons_of_mem _ hw')) ha
      refine ⟨s', ?_, hsim⟩
      rw [writeEach_cons, (write_eq_ok_iff hsize).mpr ⟨hs, rfl⟩]
      exact hs'

/-- What an operand accepts in the analysis it accepts on the path, unless nothing was written
there. -/
theorem checkUse {s a : State} (h : Sim s a) (hsize : s.size < UInt64.size) {r : Register}
    {c : Constraint} (ha : a.checkUse r c = .ok none) :
    (s.checkUse r c = .ok none ∧ s.valueAt r.toNat = a.valueAt r.toNat) ∨
      s.get r = .ok .uninitialized := by
  obtain ⟨hr, hacc, hwide⟩ := (checkUse_eq_none_iff (h.size ▸ hsize)).mp ha
  have hdef := Constraint.isDefined_of_accepts hacc
  rw [← h.size] at hr
  have hcases : s.valueAt r.toNat = a.valueAt r.toNat ∨ s.valueAt r.toNat = .uninitialized := by
    rcases h.slot r.toNat with hle | ⟨-, ⟨hlow, -, hmis⟩ | ⟨hhigh, -⟩⟩
    · exact Value.eq_or_uninitialized_of_le hle (Value.ne_conflict_of_isDefined hdef)
    · exact absurd (hwide ((Constraint.isWideLow_of_accepts hacc).symm.trans hlow)) hmis
    · exact absurd hhigh (Constraint.not_isWideHigh_of_accepts hacc)
  rcases hcases with e | e
  · refine .inl ⟨(checkUse_eq_none_iff hsize).mpr ⟨hr, by rwa [e], fun hc => ?_⟩, e⟩
    refine h.paired.continued _ ?_
    rw [e, Constraint.isWideLow_of_accepts hacc, hc]
  · exact .inr (get_eq_ok_iff.mpr ⟨hr, e⟩)

end Sim

end Dataflow.State

namespace Instruction

open Dataflow

/-- The source of a move is checked. -/
theorem checkUse_of_check_move {i : Instruction} {returns : DeclaredType} {s : State}
    (hm : i.opcode.family = .move) (h : i.check returns s = .ok none) :
    ∃ o₀ o os r₀ r rs, i.opcode.operands = o₀ :: o :: os ∧ i.registers = r₀ :: r :: rs ∧
      s.checkUse r o.constraint = .ok none := by
  simp only [check, hm] at h
  split at h
  · next o₀ o os r₀ r rs ho hr => exact ⟨o₀, o, os, r₀, r, rs, ho, hr, h⟩
  · cases h

/-- What an instruction writes in a state in which it passes its check is a value, and no high
half. -/
theorem writable_of_check {i : Instruction} {returns : DeclaredType} {s : State}
    {ws : List (Register × Value)} (hc : i.check returns s = .ok none)
    (h : i.outputs s = .ok ws) (hs : s.size < UInt64.size) :
    ∀ w ∈ ws, ∃ c : Constraint, c.accepts w.2 = true := by
  by_cases hm : i.opcode.family = .move
  · obtain ⟨o₀, o, os, r₀, r, rs, -, hr, huse⟩ := checkUse_of_check_move hm hc
    obtain ⟨target, source, rest, hr', -, rfl⟩ := outputs_of_move hm h
    obtain ⟨rfl, rfl, rfl⟩ : target = r₀ ∧ source = r ∧ rest = rs := by
      simpa using hr'.symm.trans hr
    intro w hw
    obtain rfl : w = _ := List.mem_singleton.mp hw
    exact ⟨o.constraint, ((State.checkUse_eq_none_iff hs).mp huse).2.1⟩
  · unfold outputs at h
    rw [if_neg hm] at h
    intro w hw
    obtain ⟨o, -, -, hacc⟩ := accepts_of_mem_determined h hw
    exact ⟨o.constraint, hacc⟩

end Instruction

namespace Dataflow.State.Sim

variable {s a : State} (h : Sim s a) (hsize : s.size < UInt64.size) {i : Instruction}
  {returns : DeclaredType}
include h hsize

/-- **A check which the analysis passes, a path passes too**, unless it reads a register never
written there. -/
theorem check (ha : i.check returns a = .ok none) :
    i.check returns s = .ok none ∨ ∃ r, s.get r = .ok .uninitialized ∧
      i.check returns s = .ok (some (.undefinedRead r .uninitialized)) := by
  refine Instruction.check_of_checkUse (fun r hr => hr) (fun r c _ huse => ?_) ha
  rcases h.checkUse hsize huse with ⟨hs, -⟩ | hs
  · exact .inl hs
  · exact .inr hs

/-- Where both states pass the check, both write the same. -/
theorem outputs (hs : i.check returns s = .ok none) (ha : i.check returns a = .ok none)
    {ws : List (Register × Value)} (hws : i.outputs a = .ok ws) : i.outputs s = .ok ws := by
  by_cases hm : i.opcode.family = .move
  · obtain ⟨o₀, o, os, r₀, r, rs, ho, hr, hua⟩ := Instruction.checkUse_of_check_move hm ha
    obtain ⟨_, o', _, _, r', _, ho', hr', hus⟩ := Instruction.checkUse_of_check_move hm hs
    obtain ⟨rfl, rfl⟩ : o = o' ∧ r = r' := by
      have ho := ho.symm.trans ho'
      have hr := hr.symm.trans hr'
      simp only [List.cons.injEq] at ho hr
      exact ⟨ho.2.1, hr.2.1⟩
    obtain ⟨hlt, hacc, -⟩ := (checkUse_eq_none_iff hsize).mp hus
    rcases h.checkUse hsize hua with ⟨-, e⟩ | e
    · have hget : s.get r = a.get r := by
        rw [get_of_lt hlt, get_of_lt (h.size ▸ hlt), e]
      unfold Instruction.outputs at hws ⊢
      rw [if_pos hm, hr] at hws ⊢
      simp only [hget]
      exact hws
    · rw [(get_eq_ok_iff.mp e).2] at hacc
      cases Constraint.isDefined_of_accepts hacc
  · unfold Instruction.outputs at hws ⊢
    rw [if_neg hm] at hws ⊢
    exact hws

/-- **An effect keeps both states related**, where both pass the check. -/
theorem effect (hs : i.check returns s = .ok none) (ha : i.check returns a = .ok none) {a' : State}
    (he : i.effect a = .ok a') : ∃ s', i.effect s = .ok s' ∧ Sim s' a' := by
  obtain ⟨ws, hws, hwrite⟩ := Instruction.effect_eq_ok_iff.mp he
  have hval := Instruction.writable_of_check ha hws (h.size ▸ hsize)
  obtain ⟨s', hs', hsim⟩ := h.writeEach hsize (fun w hw => by
    obtain ⟨c, hc⟩ := hval w hw
    exact ⟨Value.ne_uninitialized_of_isDefined (Constraint.isDefined_of_accepts hc),
      Constraint.not_isWideHigh_of_accepts hc⟩) hwrite
  exact ⟨s', Instruction.effect_eq_ok_iff.mpr ⟨ws, h.outputs hsize hs ha hws, hs'⟩, hsim⟩

end Dataflow.State.Sim

end BytecodeVerifier
