import BytecodeVerifier.Dataflow.State
import Mathlib.Order.Lattice

/-!
# The order of values and of states

`v ≤ w` when joining `v` into `w` changes nothing: `⊥` lies below every value, `⊤` above every
value, and two defined values are comparable only if they are equal (`Value.le_iff`).  `Value.join`
is the least upper bound of this order, so the values are a semilattice.

States of one size are ordered slot by slot, and `State.merge` is their least upper bound
(`le_merge_left`, `le_merge_right`, `merge_le`).  Everything is said through `State.valueAt`, which
is `⊥` beyond the frame.
-/

namespace BytecodeVerifier

namespace Value

/-- The values under `join`: `v ≤ w` says that `w` absorbs `v`. -/
instance : SemilatticeSup Value where
  sup := join
  le v w := v.join w = w
  le_refl := join_self
  le_trans u v w huv hvw := by
    revert huv hvw
    cases u <;> cases v <;> cases w <;> decide
  le_antisymm v w hvw hwv := by
    revert hvw hwv
    cases v <;> cases w <;> decide
  le_sup_left v w := by cases v <;> cases w <;> rfl
  le_sup_right v w := by cases v <;> cases w <;> rfl
  sup_le u v w huw hvw := by
    revert huw hvw
    cases u <;> cases v <;> cases w <;> decide

instance (v w : Value) : Decidable (v ≤ w) := inferInstanceAs (Decidable (v.join w = w))

/-- Two values are comparable when one is `⊥`, they are equal, or one is `⊤`. -/
theorem le_iff {v w : Value} : v ≤ w ↔ v = uninitialized ∨ v = w ∨ w = conflict := by
  cases v <;> cases w <;> decide

theorem uninitialized_le (v : Value) : uninitialized ≤ v := rfl

theorem le_conflict (v : Value) : v ≤ conflict := le_iff.mpr (.inr (.inr rfl))

theorem le_join_left (v w : Value) : v ≤ v.join w := le_sup_left

theorem le_join_right (v w : Value) : w ≤ v.join w := le_sup_right

theorem join_le {u v w : Value} (hu : u ≤ w) (hv : v ≤ w) : u.join v ≤ w := sup_le hu hv

/-- A defined join is one of the values joined. -/
theorem join_cases {v w : Value} (h : v.join w ≠ conflict) : v.join w = v ∨ v.join w = w := by
  revert h
  cases v <;> cases w <;> decide

/-- What lies above a defined value is that value or `⊤`. -/
theorem eq_or_conflict_of_le {v w : Value} (h : v ≤ w) (hv : v ≠ uninitialized) :
    w = v ∨ w = conflict := by
  rcases le_iff.mp h with rfl | rfl | rfl
  · exact absurd rfl hv
  · exact .inl rfl
  · exact .inr rfl

/-- What lies below a value other than `⊤` is that value or `⊥`. -/
theorem eq_or_uninitialized_of_le {v w : Value} (h : v ≤ w) (hw : w ≠ conflict) :
    v = w ∨ v = uninitialized := by
  rcases le_iff.mp h with rfl | rfl | rfl
  · exact .inr rfl
  · exact .inl rfl
  · exact absurd rfl hw

end Value

namespace Dataflow.State

/-! ### Slots -/

theorem valueAt_of_le {s : State} {i : Nat} (h : s.size ≤ i) : s.valueAt i = .uninitialized := by
  have hi : s.slots.size ≤ i := h
  simp [valueAt, Array.getD, Nat.not_lt.mpr hi]

/-- A slot that holds anything lies within the frame. -/
theorem lt_size_of_valueAt {s : State} {i : Nat} (h : s.valueAt i ≠ .uninitialized) :
    i < s.size := by
  by_contra hi
  exact h (valueAt_of_le (Nat.not_lt.mp hi))

/-- States of one size are equal when their slots are. -/
theorem eq_of_valueAt {s t : State} (hsize : s.size = t.size)
    (h : ∀ i, s.valueAt i = t.valueAt i) : s = t := by
  rw [State.mk.injEq]
  refine Array.ext hsize fun i hi hi' => ?_
  have := h i
  simpa [valueAt, Array.getD, hi, hi'] using this

@[simp] theorem valueAt_blank (n i : Nat) : (blank n).valueAt i = .uninitialized := by
  simp [blank, valueAt, Array.getElem?_replicate, Array.getD_eq_getD_getElem?]
  split <;> rfl

theorem valueAt_merge {s t : State} (h : t.size ≤ s.size) (i : Nat) :
    (s.merge t).valueAt i = (s.valueAt i).join (t.valueAt i) := by
  by_cases hi : i < s.size
  · have hi' : i < s.slots.size := hi
    simp [merge, valueAt, Array.getD, hi']
  · have hs : s.size ≤ i := Nat.not_lt.mp hi
    rw [valueAt_of_le (by simpa using hs), valueAt_of_le hs, valueAt_of_le (Nat.le_trans h hs)]
    rfl

/-! ### The order of states -/

/-- States of one size, slot by slot. -/
instance : PartialOrder State where
  le s t := s.size = t.size ∧ ∀ i, s.valueAt i ≤ t.valueAt i
  le_refl s := ⟨rfl, fun i => le_refl (s.valueAt i)⟩
  le_trans s t u hst htu := ⟨hst.1.trans htu.1, fun i => le_trans (hst.2 i) (htu.2 i)⟩
  le_antisymm s t hst hts := eq_of_valueAt hst.1 fun i => le_antisymm (hst.2 i) (hts.2 i)

theorem size_eq_of_le {s t : State} (h : s ≤ t) : s.size = t.size := h.1

theorem valueAt_le {s t : State} (h : s ≤ t) (i : Nat) : s.valueAt i ≤ t.valueAt i := h.2 i

theorem le_merge_left {s t : State} (h : t.size ≤ s.size) : s ≤ s.merge t := by
  refine ⟨(size_merge s t).symm, fun i => ?_⟩
  rw [valueAt_merge h]
  exact Value.le_join_left _ _

theorem le_merge_right {s t : State} (h : t.size = s.size) : t ≤ s.merge t := by
  refine ⟨by rw [size_merge, h], fun i => ?_⟩
  rw [valueAt_merge (Nat.le_of_eq h)]
  exact Value.le_join_right _ _

/-- A bound of two states bounds their merge. -/
theorem merge_le {s t u : State} (hs : s ≤ u) (ht : t ≤ u) : s.merge t ≤ u := by
  refine ⟨by rw [size_merge, size_eq_of_le hs], fun i => ?_⟩
  rw [valueAt_merge (Nat.le_of_eq (ht.1.trans hs.1.symm))]
  exact Value.join_le (hs.2 i) (ht.2 i)

@[simp] theorem merge_self (s : State) : s.merge s = s :=
  le_antisymm (merge_le (le_refl s) (le_refl s)) (le_merge_left (Nat.le_refl _))

end Dataflow.State

end BytecodeVerifier
