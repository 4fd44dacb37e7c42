import BytecodeVerifier.Proofs.Entry

/-!
# Shapes — which parameters make a register file

The slots of the parameters are marked one parameter after the other, and a slot that is marked
already is refused.  So the order of the parameters does not count (`objection?_eq_none_iff`): what
counts is each parameter alone, and each two of them.

A parameter is refused if its end, taken modulo 2⁶⁴, lies outside the file.  It is accepted not only
if it *fits*, but also if it *wraps*: its slots run past the largest register number, and its end
comes to lie within the file again.  A parameter that wraps marks no slot, so nothing overlaps it.
This is the whole of what is accepted, and it is too much: **a method has a state on entry just when
every parameter fits** (`exists_new_iff`).  Each parameter is then in its slots (`State.Holds`), and
no other slot is written.
-/

namespace BytecodeVerifier

open Dataflow

namespace DeclaredType

theorem width_eq_zero_iff {t : DeclaredType} : t.width = 0 ↔ t = .void := by
  cases t <;> decide

theorem width_le_two (t : DeclaredType) : t.width.toNat ≤ 2 := by
  cases t <;> decide

end DeclaredType

namespace Register

/-! ### One parameter, and two -/

namespace Parameter

variable {p q : Parameter} {size : UInt64}

/-- The slots of the parameter run past the largest register number, and its end comes to lie within
a frame of `n` registers. -/
def Wraps (p : Parameter) (n : Nat) : Prop :=
  UInt64.size ≤ p.slot.toNat + p.type.width.toNat ∧
    p.slot.toNat + p.type.width.toNat ≤ UInt64.size + n

instance (p : Parameter) (n : Nat) : Decidable (p.Wraps n) :=
  inferInstanceAs (Decidable (_ ∧ _))

/-- Two parameters that end within a frame of `n` registers share no slot. -/
def Apart (n : Nat) (p q : Parameter) : Prop :=
  p.Fits n → q.Fits n → ∀ k, p.Occupies k → ¬ q.Occupies k

theorem toNat_stop (p : Parameter) :
    p.stop.toNat = (p.slot.toNat + p.type.width.toNat) % UInt64.size := by
  rw [stop, UInt64.toNat_add]
  rfl

/-- **A parameter ends within a file just when it fits or wraps.** -/
theorem stop_le_iff : p.stop ≤ size ↔ p.Fits size.toNat ∨ p.Wraps size.toNat := by
  have hslot : p.slot.toNat < UInt64.size := p.slot.index.toNat_lt_size
  have hwidth := p.type.width_le_two
  have hsize := size.toNat_lt_size
  rw [UInt64.le_iff_toNat_le, toNat_stop]
  simp only [Fits, Wraps, UInt64.size] at *
  omega

/-- A parameter that wraps takes no slot. -/
theorem slots_of_wraps (h : p.Wraps size.toNat) : p.slots = [] := by
  have hslot : p.slot.toNat < UInt64.size := p.slot.index.toNat_lt_size
  have hwidth := p.type.width_le_two
  have hstop := p.toNat_stop
  refine if_neg fun hlt => ?_
  rw [UInt64.lt_iff_toNat_lt] at hlt
  simp only [Wraps, UInt64.size, toNat] at *
  omega

/-- Two parameters that end within a file have no slot in common just when they are apart. -/
theorem slots_disjoint_iff (hp : p.stop ≤ size) (hq : q.stop ≤ size) :
    (∀ k ∈ p.slots, k ∉ q.slots) ↔ Apart size.toNat p q := by
  have hn := size.toNat_lt_size
  constructor
  · intro h hpfit hqfit k hpk hqk
    have hk : (UInt64.ofNat k).toNat = k := by
      refine UInt64.toNat_ofNat_of_lt' ?_
      unfold Fits at hpfit
      unfold Occupies at hpk
      omega
    refine h (UInt64.ofNat k) ((mem_slots_iff hpfit hn).mpr ?_) ((mem_slots_iff hqfit hn).mpr ?_)
    · rwa [hk]
    · rwa [hk]
  · intro h k hpk hqk
    rcases stop_le_iff.mp hp with hpfit | hpwraps
    · rcases stop_le_iff.mp hq with hqfit | hqwraps
      · exact h hpfit hqfit k.toNat ((mem_slots_iff hpfit hn).mp hpk)
          ((mem_slots_iff hqfit hn).mp hqk)
      · rw [slots_of_wraps hqwraps] at hqk
        exact List.not_mem_nil hqk
    · rw [slots_of_wraps hpwraps] at hpk
      exact List.not_mem_nil hpk

end Parameter

/-! ### All parameters -/

namespace File

variable {size : UInt64}

theorem accepted_iff {ps : List Parameter} :
    objection? size [] ps = none ↔
      (∀ p ∈ ps, p.type ≠ .void ∧ (p.Fits size.toNat ∨ p.Wraps size.toNat)) ∧
        ps.Pairwise (Parameter.Apart size.toNat) := by
  have hone : ∀ p ∈ ps, (p.type.width ≠ 0 ∧ p.stop ≤ size ∧ ∀ k ∈ p.slots, k ∉ ([] : List UInt64)) ↔
      p.type ≠ .void ∧ (p.Fits size.toNat ∨ p.Wraps size.toNat) := by
    intro p _
    rw [Ne, DeclaredType.width_eq_zero_iff, Parameter.stop_le_iff]
    simp
  rw [objection?_eq_none_iff, forall₂_congr hone]
  refine and_congr_right fun hall => List.Pairwise.iff_of_mem fun {p q} hp hq => ?_
  exact Parameter.slots_disjoint_iff (Parameter.stop_le_iff.mpr (hall p hp).2)
    (Parameter.stop_le_iff.mpr (hall q hq).2)

theorem new_eq_ok_iff {ps : List Parameter} {file : File} :
    new size ps = .ok file ↔ file.size = size ∧ file.parameters = ps := by
  unfold new
  split
  · next e he =>
      constructor
      · intro h
        cases h
      · rintro ⟨rfl, rfl⟩
        rw [file.accepted] at he
        cases he
  · next he =>
      constructor
      · intro h
        cases h
        exact ⟨rfl, rfl⟩
      · rintro ⟨rfl, rfl⟩
        rfl

theorem exists_new_of_accepted {ps : List Parameter} :
    (∃ file, new size ps = .ok file) ↔ objection? size [] ps = none := by
  constructor
  · rintro ⟨file, h⟩
    obtain ⟨rfl, rfl⟩ := new_eq_ok_iff.mp h
    exact file.accepted
  · intro h
    exact ⟨⟨size, ps, h⟩, new_eq_ok_iff.mpr ⟨rfl, rfl⟩⟩

end File

end Register

/-! ### The state on entry -/

namespace Dataflow.State

open Register

/-- The parameter is in its slots: its value, and after a low half the half which continues it. -/
def Holds (s : State) (p : Parameter) : Prop :=
  ∃ v, p.type.value = .ok v ∧ s.valueAt p.slot.toNat = v ∧
    ∀ high, v.high? = some high → s.valueAt (p.slot.toNat + 1) = high

/-- A parameter stays where it is as long as its slots are left alone. -/
theorem Holds.of_eq {s t : State} {p : Parameter} (h : s.Holds p) (hwidth : p.type.width ≠ 0)
    (heq : ∀ k, p.Occupies k → t.valueAt k = s.valueAt k) : t.Holds p := by
  obtain ⟨v, hv, hslot, hnext⟩ := h
  obtain ⟨v', hv', -, -, hw⟩ := DeclaredType.exists_value hwidth
  obtain rfl : v = v' := Except.ok.inj (hv.symm.trans hv')
  refine ⟨v, hv, ?_, fun high hhigh => ?_⟩
  · rw [heq _ ⟨Nat.le_refl _, ?_⟩, hslot]
    split at hw <;> omega
  · rw [if_pos (Value.isWideLow_of_high? hhigh)] at hw
    rw [heq _ ⟨Nat.le_succ _, ?_⟩, hnext high hhigh]
    omega

end Dataflow.State

namespace Method

open Register

/-- **One parameter is received**: it fits, is then in its slots, and no other slot is written. -/
theorem receive_spec {s t : State} {p : Parameter} (hs : s.size < UInt64.size)
    (hwidth : p.type.width ≠ 0) (h : receive s p = .ok t) :
    p.Fits s.size ∧ t.Holds p ∧ ∀ k, ¬ p.Occupies k → t.valueAt k = s.valueAt k := by
  obtain ⟨v, hv, -, hfit, hcases⟩ := receive_cases hs hwidth h
  refine ⟨hfit, ?_⟩
  unfold Parameter.Fits at hfit
  unfold Parameter.Occupies
  rcases hcases with ⟨hh, hw, rfl⟩ | ⟨high, hh, hw, rfl⟩
  · refine ⟨⟨v, hv, State.valueAt_put_same (by omega) v, fun high e => ?_⟩, fun k hk => ?_⟩
    · rw [hh] at e
      cases e
    · exact State.valueAt_put_other s (by omega) v
  · refine ⟨⟨v, hv, ?_, fun high' e => ?_⟩, fun k hk => ?_⟩
    · rw [State.valueAt_put_other _ (by omega), State.valueAt_put_same (by omega)]
    · obtain rfl : high = high' := Option.some.inj (hh.symm.trans e)
      exact State.valueAt_put_same (by rw [State.size_put]; omega) high
    · rw [State.valueAt_put_other _ (by omega), State.valueAt_put_other _ (by omega)]

/-- **All parameters are received**: each fits and stays in its slots, since the others are apart
from it, and no other slot is written. -/
theorem receiveAll_spec {n : Nat} {ps : List Parameter} {s t : State} (hn : n < UInt64.size)
    (hsize : s.size = n) (hwidth : ∀ p ∈ ps, p.type.width ≠ 0)
    (hapart : ps.Pairwise (Parameter.Apart n)) (h : ps.foldlM receive s = .ok t) :
    (∀ p ∈ ps, p.Fits n ∧ t.Holds p) ∧
      ∀ k, (∀ p ∈ ps, ¬ p.Occupies k) → t.valueAt k = s.valueAt k := by
  induction ps generalizing s with
  | nil =>
      cases h
      simp
  | cons p ps ih =>
      rw [List.foldlM_cons] at h
      obtain ⟨s₁, h₁, h⟩ := exists_of_bind_eq_ok h
      rw [List.forall_mem_cons] at hwidth
      obtain ⟨hp, hps⟩ := List.pairwise_cons.mp hapart
      obtain ⟨hfit, hholds, hframe⟩ := receive_spec (hsize ▸ hn) hwidth.1 h₁
      rw [hsize] at hfit
      obtain ⟨hrest, hframe'⟩ := ih ((size_receive h₁).trans hsize) hwidth.2 hps h
      refine ⟨List.forall_mem_cons.mpr ⟨⟨hfit, ?_⟩, hrest⟩, fun k hk => ?_⟩
      · exact hholds.of_eq hwidth.1 fun k hk =>
          hframe' k fun q hq => hp q hq hfit (hrest q hq).1 k hk
      · rw [List.forall_mem_cons] at hk
        rw [hframe' k hk.2, hframe k hk.1]

end Method

namespace Register.File

/-- **Which shapes are accepted, and which of them a method can begin with.**  A shape is a register
file just when no parameter is void, each fits or wraps, and those that fit are apart from each
other.  A method has a state on entry just when each parameter of its file fits; each is then in its
slots, and no other slot is written. -/
theorem exists_new_iff (size : UInt64) (ps : List Parameter) :
    ((∃ file, new size ps = .ok file) ↔
      (∀ p ∈ ps, p.type ≠ .void ∧ (p.Fits size.toNat ∨ p.Wraps size.toNat)) ∧
        ps.Pairwise (Parameter.Apart size.toNat)) ∧
    ∀ m : Method, new size ps = .ok m.registers →
      ((∃ s, m.initialState = .ok s) ↔ ∀ p ∈ ps, p.Fits size.toNat) ∧
      ∀ s, m.initialState = .ok s → s.size = size.toNat ∧ (∀ p ∈ ps, s.Holds p) ∧
        ∀ k, (∀ p ∈ ps, ¬ p.Occupies k) → s.valueAt k = .uninitialized := by
  refine ⟨exists_new_of_accepted.trans accepted_iff, fun m hm => ?_⟩
  obtain ⟨rfl, rfl⟩ := new_eq_ok_iff.mp hm
  have hreceived : ∀ s, m.initialState = .ok s → _ := fun s hs =>
    Method.receiveAll_spec m.registers.size.toNat_lt_size (State.size_blank _)
      (Method.width_ne_zero_of_accepted m.registers.accepted)
      (accepted_iff.mp m.registers.accepted).2 hs
  refine ⟨⟨?_, Method.exists_initialState⟩, fun s hs => ?_⟩
  · rintro ⟨s, hs⟩ p hp
    exact ((hreceived s hs).1 p hp).1
  · obtain ⟨hholds, hframe⟩ := hreceived s hs
    refine ⟨Method.size_initialState hs, fun p hp => (hholds p hp).2, fun k hk => ?_⟩
    rw [hframe k hk, State.valueAt_blank]

/-- An int in the last of four registers, and a long before it. -/
def mixed : List Parameter := [⟨⟨3⟩, .int⟩, ⟨⟨1⟩, .long⟩]

theorem mixed_received : ∃ m : Method, new 4 mixed = .ok m.registers ∧
    ∃ s, m.initialState = .ok s ∧ s.size = 4 ∧ (∀ p ∈ mixed, s.Holds p) ∧
      s.valueAt 0 = .uninitialized := by
  have hnew : new 4 mixed = .ok ⟨4, mixed, by decide⟩ := new_eq_ok_iff.mpr ⟨rfl, rfl⟩
  obtain ⟨hbegins, hholds⟩ := (exists_new_iff 4 mixed).2 ⟨"mixed", _, .void, #[]⟩ hnew
  obtain ⟨s, hs⟩ := hbegins.mpr (by decide)
  obtain ⟨hsize, hmixed, hempty⟩ := hholds s hs
  refine ⟨_, hnew, s, hs, hsize, hmixed, hempty 0 ?_⟩
  simp [mixed, Parameter.Occupies, toNat]

/-- An int in the register with the largest number. -/
def beyond : Parameter := ⟨⟨0xFFFFFFFFFFFFFFFF⟩, .int⟩

/-- A file of one register accepts a parameter which does not fit it, and a method of that file has
no state on entry. -/
theorem beyond_accepted : ¬ beyond.Fits 1 ∧ ∃ file, new 1 [beyond] = .ok file ∧
    ∀ m : Method, m.registers = file → m.initialState = .error .outOfBounds := by
  refine ⟨by decide, ⟨1, [beyond], by decide⟩, new_eq_ok_iff.mpr ⟨rfl, rfl⟩, fun m hm => ?_⟩
  rw [Method.initialState, hm]
  rfl

end Register.File

end BytecodeVerifier
