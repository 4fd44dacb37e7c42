import BytecodeVerifier.Proofs.Order
import BytecodeVerifier.Verify.Effect

/-!
# Writing — what a write does to each slot

`State.write` goes through the frame's registers, whose numbers wrap, and may fault.  Here it is
taken apart once: `State.store` is the state that a write leaves, as a function of slots alone, and
`State.Room` says when there is room for it.  A write succeeds just when there is room, and leaves
that state (`write_eq_ok_iff`).  After it (`store_at`, `store_next`, `store_spoiled`, `store_other`)
the slot written holds the value, the slot after a low half its high half, a slot that held the
other half of an overwritten one holds `⊤`, and every other slot is as before.

A state is *paired* when its halves come in whole pairs only.  Writing a value that is no high half
keeps a state paired (`Paired.store`), and a paired state has room for every value that fits the
frame (`Paired.room`).
-/

namespace BytecodeVerifier

namespace Dataflow.State

/-! ### Reading and writing one slot -/

/-- The state with another value in a slot of the frame. -/
def put (s : State) (i : Nat) (v : Value) : State := ⟨s.slots.setIfInBounds i v⟩

@[simp] theorem size_put (s : State) (i : Nat) (v : Value) : (s.put i v).size = s.size := by
  simp [put, size]

@[simp] theorem valueAt_put_same {s : State} {i : Nat} (hi : i < s.size) (v : Value) :
    (s.put i v).valueAt i = v := by
  have hi' : i < s.slots.size := hi
  simp [put, valueAt, Array.getD, hi']

@[simp] theorem valueAt_put_other (s : State) {i j : Nat} (h : j ≠ i) (v : Value) :
    (s.put i v).valueAt j = s.valueAt j := by
  simp [put, valueAt, Array.getD_eq_getD_getElem?, h.symm]

theorem get_eq_ok_iff {s : State} {r : Register} {v : Value} :
    s.get r = .ok v ↔ r.toNat < s.size ∧ s.valueAt r.toNat = v := by
  by_cases h : r.toNat < s.size
  · have h' : r.toNat < s.slots.size := h
    simp [get, valueAt, Array.getD, h, h']
  · have h' : ¬ r.toNat < s.slots.size := h
    simp [get, h, h']

theorem get_of_lt {s : State} {r : Register} (h : r.toNat < s.size) :
    s.get r = .ok (s.valueAt r.toNat) :=
  get_eq_ok_iff.mpr ⟨h, rfl⟩

theorem get_of_le {s : State} {r : Register} (h : s.size ≤ r.toNat) :
    s.get r = .error .outOfBounds := by
  have h' : ¬ r.toNat < s.slots.size := Nat.not_lt.mpr h
  simp [get, h']

theorem set_eq_ok_iff {s t : State} {r : Register} {v : Value} :
    s.set r v = .ok t ↔ r.toNat < s.size ∧ t = s.put r.toNat v := by
  by_cases h : r.toNat < s.size
  · simp [set, put, h, eq_comm]
  · simp [set, h]

/-! ### Breaking a pair -/

/-- The state once the pair, if any, of which a slot is half is broken. -/
def breakPair (s : State) (i : Nat) : State :=
  if (s.valueAt i).isWideLow then s.put (i + 1) .conflict
  else if (s.valueAt i).isWideHigh then s.put (i - 1) .conflict
  else s

@[simp] theorem size_breakPair (s : State) (i : Nat) : (s.breakPair i).size = s.size := by
  unfold breakPair
  split
  · simp
  · split <;> simp

/-- Both slots of the pair that a slot is half of lie within the frame. -/
def Breakable (s : State) (i : Nat) : Prop :=
  ((s.valueAt i).isWideLow = true → i + 1 < s.size) ∧ ((s.valueAt i).isWideHigh = true → 0 < i)

theorem clobber_eq_ok_iff {s t : State} {r : Register} (hs : s.size < UInt64.size) :
    s.clobber r = .ok t ↔
      r.toNat < s.size ∧ s.Breakable r.toNat ∧ t = s.breakPair r.toNat := by
  by_cases hr : r.toNat < s.size
  · have hnext := Register.toNat_next hr hs
    rw [clobber, get_of_lt hr]
    simp only [bind, Except.bind, hr, true_and]
    by_cases hlow : (s.valueAt r.toNat).isWideLow = true
    · have hhigh : ¬ (s.valueAt r.toNat).isWideHigh = true := fun h =>
        Value.not_isWideLow_of_isWideHigh h hlow
      rw [if_pos hlow, set_eq_ok_iff, hnext]
      simp [Breakable, breakPair, hlow, hhigh]
    · rw [if_neg hlow]
      by_cases hhigh : (s.valueAt r.toNat).isWideHigh = true
      · rw [if_pos hhigh, set_eq_ok_iff]
        by_cases hzero : r.toNat = 0
        · rw [Register.toNat_previous_zero hzero]
          constructor
          · rintro ⟨h, -⟩
            omega
          · rintro ⟨⟨-, h⟩, -⟩
            exact absurd (h hhigh) (by omega)
        · rw [Register.toNat_previous (Nat.pos_of_ne_zero hzero)]
          have hlt : r.toNat - 1 < s.size := by omega
          simp [Breakable, breakPair, hlow, hhigh, hlt, Nat.pos_of_ne_zero hzero]
      · rw [if_neg hhigh]
        simp [Breakable, breakPair, hlow, hhigh, pure, Except.pure, eq_comm]
  · rw [clobber, get_of_le (Nat.not_lt.mp hr)]
    simp [hr, bind, Except.bind]

/-! ### Writing a value -/

/-- The state after a value is written into a slot, and after a low half its high half. -/
def store (s : State) (i : Nat) (v : Value) : State :=
  match v.high? with
  | some h => (((s.breakPair i).breakPair (i + 1)).put i v).put (i + 1) h
  | none => (s.breakPair i).put i v

@[simp] theorem size_store (s : State) (i : Nat) (v : Value) : (s.store i v).size = s.size := by
  unfold store
  split <;> simp

/-- The frame has every slot that writing a value into a slot touches. -/
def Room (s : State) (i : Nat) (v : Value) : Prop :=
  i < s.size ∧ s.Breakable i ∧
    (v.isWideLow = true → i + 1 < s.size ∧ (s.breakPair i).Breakable (i + 1))

/-- **What a write does.**  It succeeds just when there is room, and leaves `store`. -/
theorem write_eq_ok_iff {s t : State} {r : Register} {v : Value} (hs : s.size < UInt64.size) :
    s.write r v = .ok t ↔ s.Room r.toNat v ∧ t = s.store r.toNat v := by
  constructor
  · intro h
    obtain ⟨s₁, h₁, h⟩ := exists_of_bind_eq_ok h
    obtain ⟨hr, hb, rfl⟩ := (clobber_eq_ok_iff hs).mp h₁
    have hnext := Register.toNat_next hr hs
    cases hv : v.high? with
    | none =>
        rw [hv] at h
        obtain ⟨-, rfl⟩ := set_eq_ok_iff.mp h
        refine ⟨⟨hr, hb, fun hlow => ?_⟩, by rw [store, hv]⟩
        obtain ⟨_, e⟩ := Value.isWideLow_iff.mp hlow
        rw [hv] at e
        cases e
    | some high =>
        rw [hv] at h
        obtain ⟨s₂, h₂, h⟩ := exists_of_bind_eq_ok h
        obtain ⟨hr₂, hb₂, rfl⟩ := (clobber_eq_ok_iff (by simpa using hs)).mp h₂
        obtain ⟨s₃, h₃, h⟩ := exists_of_bind_eq_ok h
        obtain ⟨-, rfl⟩ := set_eq_ok_iff.mp h₃
        obtain ⟨-, rfl⟩ := set_eq_ok_iff.mp h
        rw [hnext] at hr₂ hb₂ ⊢
        exact ⟨⟨hr, hb, fun _ => ⟨by simpa using hr₂, hb₂⟩⟩, by rw [store, hv]⟩
  · rintro ⟨⟨hr, hb, hlow⟩, rfl⟩
    have hnext := Register.toNat_next hr hs
    have h₁ : s.clobber r = .ok (s.breakPair r.toNat) := (clobber_eq_ok_iff hs).mpr ⟨hr, hb, rfl⟩
    rw [write, h₁, store]
    simp only [bind, Except.bind]
    cases hv : v.high? with
    | none => exact set_eq_ok_iff.mpr ⟨by simpa using hr, rfl⟩
    | some high =>
        obtain ⟨hr₂, hb₂⟩ := hlow (Value.isWideLow_of_high? hv)
        have h₂ : (s.breakPair r.toNat).clobber r.next =
            .ok ((s.breakPair r.toNat).breakPair (r.toNat + 1)) :=
          (clobber_eq_ok_iff (by simpa using hs)).mpr
            ⟨by simpa [hnext] using hr₂, by rwa [hnext], by rw [hnext]⟩
        have h₃ : ((s.breakPair r.toNat).breakPair (r.toNat + 1)).set r v =
            .ok (((s.breakPair r.toNat).breakPair (r.toNat + 1)).put r.toNat v) :=
          set_eq_ok_iff.mpr ⟨by simpa using hr, rfl⟩
        simp only [h₂, h₃]
        exact set_eq_ok_iff.mpr ⟨by simpa [hnext] using hr₂, by rw [hnext]⟩

/-- A write faults at a register outside the frame only. -/
theorem write_eq_error {s : State} {r : Register} {v : Value} {f : Fault}
    (h : s.write r v = .error f) : f = .outOfBounds := by
  have hset {s : State} {r : Register} {v : Value} (e : s.set r v = .error f) :
      f = .outOfBounds := by
    unfold set at e
    split at e
    · cases e
    · cases e; rfl
  have hclobber {s : State} {r : Register} (e : s.clobber r = .error f) : f = .outOfBounds := by
    rcases exists_of_bind_eq_error e with e | ⟨u, -, e⟩
    · unfold get at e
      split at e
      · cases e
      · cases e; rfl
    · split at e
      · exact hset e
      · split at e
        · exact hset e
        · cases e
  rcases exists_of_bind_eq_error h with h | ⟨s₁, -, h⟩
  · exact hclobber h
  · split at h
    · rcases exists_of_bind_eq_error h with h | ⟨s₂, -, h⟩
      · exact hclobber h
      · rcases exists_of_bind_eq_error h with h | ⟨s₃, -, h⟩
        · exact hset h
        · exact hset h
    · exact hset h

/-- A write into a slot makes `⊤` of another: the rest of a pair that it overwrites half of. -/
def Spoils (s : State) (i : Nat) (v : Value) (j : Nat) : Prop :=
  ((s.valueAt i).isWideHigh = true ∧ j + 1 = i) ∨
  ((s.valueAt i).isWideLow = true ∧ j = i + 1) ∨
  (v.isWideLow = true ∧ ¬ (s.valueAt i).isWideLow = true ∧
    (s.valueAt (i + 1)).isWideLow = true ∧ j = i + 2)

theorem valueAt_breakPair_of_low {s : State} {i : Nat} (hb : s.Breakable i)
    (h : (s.valueAt i).isWideLow = true) : (s.breakPair i).valueAt (i + 1) = .conflict := by
  rw [breakPair, if_pos h, valueAt_put_same (hb.1 h)]

theorem valueAt_breakPair_of_high {s : State} {j : Nat} (hj : j < s.size)
    (h : (s.valueAt (j + 1)).isWideHigh = true) : (s.breakPair (j + 1)).valueAt j = .conflict := by
  rw [breakPair, if_neg (Value.not_isWideLow_of_isWideHigh h), if_pos h]
  exact valueAt_put_same hj _

/-- Breaking a pair touches the other half only. -/
theorem valueAt_breakPair_other {s : State} {i j : Nat}
    (hlow : (s.valueAt i).isWideLow = true → j ≠ i + 1)
    (hhigh : (s.valueAt i).isWideHigh = true → j + 1 ≠ i) (hb : s.Breakable i) :
    (s.breakPair i).valueAt j = s.valueAt j := by
  unfold breakPair
  split
  · next h => exact valueAt_put_other s (hlow h) _
  · split
    · next h =>
        have := hb.2 h
        have := hhigh h
        exact valueAt_put_other s (by omega) _
    · rfl

section Store

variable {s : State} {i : Nat} {v : Value} (hroom : s.Room i v)
include hroom

theorem store_at : (s.store i v).valueAt i = v := by
  obtain ⟨hi, -, -⟩ := hroom
  unfold store
  split
  · rw [valueAt_put_other _ (by omega), valueAt_put_same (by simpa using hi)]
  · exact valueAt_put_same (by simpa using hi) _

theorem store_next {h : Value} (hv : v.high? = some h) : (s.store i v).valueAt (i + 1) = h := by
  have hi := (hroom.2.2 (Value.isWideLow_of_high? hv)).1
  rw [store, hv]
  exact valueAt_put_same (by simpa using hi) _

omit hroom in
/-- Past the slots written, a write does what breaking the old pairs does. -/
theorem store_beside {j : Nat} (hj : j ≠ i) (hnext : v.isWideLow = true → j ≠ i + 1) :
    (s.store i v).valueAt j =
      if v.isWideLow = true then ((s.breakPair i).breakPair (i + 1)).valueAt j
      else (s.breakPair i).valueAt j := by
  unfold store
  split
  · next h hv =>
      have hlow := Value.isWideLow_of_high? hv
      rw [if_pos hlow, valueAt_put_other _ (hnext hlow), valueAt_put_other _ hj]
  · next hv =>
      have hlow : ¬ v.isWideLow = true := fun e => by
        obtain ⟨_, e⟩ := Value.isWideLow_iff.mp e
        rw [hv] at e
        cases e
      rw [if_neg hlow, valueAt_put_other _ hj]

theorem store_spoiled {j : Nat} (h : s.Spoils i v j) (hj : j ≠ i)
    (hnext : v.isWideLow = true → j ≠ i + 1) : (s.store i v).valueAt j = .conflict := by
  obtain ⟨hi, hb, hwide⟩ := hroom
  rw [store_beside hj hnext]
  rcases h with ⟨hhigh, rfl⟩ | ⟨hlow, rfl⟩ | ⟨hv, hlow, hlow', rfl⟩
  · have hfirst : (s.breakPair (j + 1)).valueAt j = .conflict :=
      valueAt_breakPair_of_high (by omega) hhigh
    split
    · next hv =>
        rw [valueAt_breakPair_other (fun _ => by omega) (fun _ => by omega) (hwide hv).2, hfirst]
    · exact hfirst
  · rw [if_neg fun hv => hnext hv rfl]
    exact valueAt_breakPair_of_low hb hlow
  · have hfirst : (s.breakPair i).valueAt (i + 1) = s.valueAt (i + 1) :=
      valueAt_breakPair_other (fun h => absurd h hlow) (fun _ => by omega) hb
    rw [if_pos hv]
    exact valueAt_breakPair_of_low (hwide hv).2 (by rwa [hfirst])

theorem store_other {j : Nat} (h : ¬ s.Spoils i v j) (hj : j ≠ i)
    (hnext : v.isWideLow = true → j ≠ i + 1) : (s.store i v).valueAt j = s.valueAt j := by
  obtain ⟨hi, hb, hwide⟩ := hroom
  have hfirst : (s.breakPair i).valueAt j = s.valueAt j :=
    valueAt_breakPair_other (fun hl e => h (.inr (.inl ⟨hl, e⟩))) (fun hh e => h (.inl ⟨hh, e⟩)) hb
  rw [store_beside hj hnext]
  split
  · next hv =>
      rw [valueAt_breakPair_other (fun hl e => ?_) (fun _ => by omega) (hwide hv).2, hfirst]
      -- A low half is left after the slot only if the slot itself held none.
      have hnot : ¬ (s.valueAt i).isWideLow = true := fun hlow => by
        rw [valueAt_breakPair_of_low hb hlow] at hl
        cases hl
      rw [valueAt_breakPair_other (fun h => absurd h hnot) (fun _ => by omega) hb] at hl
      exact h (.inr (.inr ⟨hv, hnot, hl, e⟩))
  · exact hfirst

/-- The cases of a slot after a write: it is the one written, the one after it, one that the write
spoils, or one that it leaves alone. -/
theorem store_cases (j : Nat) :
    (j = i ∧ (s.store i v).valueAt j = v) ∨
    (j = i + 1 ∧ v.high? = some ((s.store i v).valueAt j)) ∨
    (j ≠ i ∧ (v.isWideLow = true → j ≠ i + 1) ∧ s.Spoils i v j ∧
      (s.store i v).valueAt j = .conflict) ∨
    (j ≠ i ∧ (v.isWideLow = true → j ≠ i + 1) ∧ ¬ s.Spoils i v j ∧
      (s.store i v).valueAt j = s.valueAt j) := by
  by_cases hj : j = i
  · subst hj
    exact .inl ⟨rfl, store_at hroom⟩
  by_cases hnext : v.isWideLow = true ∧ j = i + 1
  · obtain ⟨hv, rfl⟩ := hnext
    obtain ⟨h, hh⟩ := Value.isWideLow_iff.mp hv
    exact .inr (.inl ⟨rfl, by rw [store_next hroom hh, hh]⟩)
  have hnext' : v.isWideLow = true → j ≠ i + 1 := fun hv e => hnext ⟨hv, e⟩
  by_cases hsp : s.Spoils i v j
  · exact .inr (.inr (.inl ⟨hj, hnext', hsp, store_spoiled hroom hsp hj hnext'⟩))
  · exact .inr (.inr (.inr ⟨hj, hnext', hsp, store_other hroom hsp hj hnext'⟩))

end Store

/-! ### Paired states -/

/-- Halves come in whole pairs: a low half is followed by the high half which continues it, and a
high half follows the low half which it continues. -/
structure Paired (s : State) : Prop where
  continued : ∀ i, (s.valueAt i).isWideLow = true → (s.valueAt i).high? = some (s.valueAt (i + 1))
  preceded : ∀ i, (s.valueAt i).isWideHigh = true →
    ∃ j, i = j + 1 ∧ (s.valueAt j).high? = some (s.valueAt i)

namespace Paired

theorem lt_of_low {s : State} (h : s.Paired) {i : Nat} (hlow : (s.valueAt i).isWideLow = true) :
    i + 1 < s.size := by
  have := Value.isWideHigh_of_high? (h.continued i hlow)
  exact lt_size_of_valueAt
    (Value.ne_uninitialized_of_isDefined (Value.isDefined_of_isWideHigh this))

theorem breakable {s : State} (h : s.Paired) (i : Nat) : s.Breakable i := by
  refine ⟨h.lt_of_low, fun hhigh => ?_⟩
  obtain ⟨j, rfl, -⟩ := h.preceded i hhigh
  exact Nat.succ_pos j

/-- A paired state has room for every value that fits the frame. -/
theorem room {s : State} (h : s.Paired) {i : Nat} {v : Value} (hi : i < s.size)
    (hv : v.isWideLow = true → i + 1 < s.size) : s.Room i v := by
  refine ⟨hi, h.breakable i, fun hlow => ⟨hv hlow, fun hl => ?_, fun _ => Nat.succ_pos i⟩⟩
  have hnot : ¬ (s.valueAt i).isWideLow = true := fun e => by
    rw [valueAt_breakPair_of_low (h.breakable i) e] at hl
    cases hl
  rw [valueAt_breakPair_other (fun e => absurd e hnot) (fun _ => by omega) (h.breakable i)] at hl
  simpa using h.lt_of_low hl

/-- In a paired state a write spoils a slot only if that slot held a half. -/
theorem isDefined_of_spoils {s : State} (h : s.Paired) {i j : Nat} {v : Value}
    (hsp : s.Spoils i v j) : (s.valueAt j).isDefined = true := by
  rcases hsp with ⟨hhigh, rfl⟩ | ⟨hlow, rfl⟩ | ⟨-, -, hlow, rfl⟩
  · obtain ⟨k, hk, he⟩ := h.preceded _ hhigh
    obtain rfl : j = k := by omega
    exact Value.isDefined_of_isWideLow (Value.isWideLow_of_high? he)
  · exact Value.isDefined_of_isWideHigh (Value.isWideHigh_of_high? (h.continued i hlow))
  · exact Value.isDefined_of_isWideHigh (Value.isWideHigh_of_high? (h.continued (i + 1) hlow))

/-- A low half follows no low half. -/
theorem not_low_succ {s : State} (h : s.Paired) {i : Nat} (hlow : (s.valueAt i).isWideLow = true) :
    ¬ (s.valueAt (i + 1)).isWideLow = true :=
  Value.not_isWideLow_of_isWideHigh (Value.isWideHigh_of_high? (h.continued i hlow))

/-- Before a high half stands a low half. -/
theorem low_of_high_succ {s : State} (h : s.Paired) {i : Nat}
    (hhigh : (s.valueAt (i + 1)).isWideHigh = true) : (s.valueAt i).isWideLow = true := by
  obtain ⟨j, hj, he⟩ := h.preceded _ hhigh
  obtain rfl : i = j := by omega
  exact Value.isWideLow_of_high? he

/-- **Writing keeps pairs whole**, unless it writes a high half. -/
theorem store {s : State} (h : s.Paired) {i : Nat} {v : Value} (hroom : s.Room i v)
    (hv : ¬ v.isWideHigh = true) : (s.store i v).Paired := by
  constructor
  · intro j hlow
    rcases store_cases hroom j with ⟨rfl, e⟩ | ⟨rfl, e⟩ | ⟨-, -, -, e⟩ | ⟨hj, hnext, hsp, e⟩
    · rw [e] at hlow ⊢
      obtain ⟨high, hh⟩ := Value.isWideLow_iff.mp hlow
      rw [store_next hroom hh, hh]
    · exact absurd hlow (Value.not_isWideLow_of_isWideHigh (Value.isWideHigh_of_high? e))
    · rw [e] at hlow
      cases hlow
    · -- The slot after it is left alone too: writing or spoiling that would spoil this one.
      rw [e] at hlow ⊢
      have hpair := h.continued j hlow
      have hhigh := Value.isWideHigh_of_high? hpair
      rcases store_cases hroom (j + 1) with ⟨hi, -⟩ | ⟨hi, -⟩ | ⟨-, -, hsp', -⟩ | ⟨-, -, -, e'⟩
      · exact absurd (.inl ⟨hi ▸ hhigh, hi⟩) hsp
      · exact absurd (by omega) hj
      · rcases hsp' with ⟨hh, hi⟩ | ⟨hl, hi⟩ | ⟨hl, -, -, hi⟩
        · obtain rfl : i = j + 1 + 1 := hi.symm
          exact absurd (h.low_of_high_succ hh) (h.not_low_succ hlow)
        · exact absurd (by omega) hj
        · exact absurd (by omega) (hnext hl)
      · rw [e', hpair]
  · intro j hhigh
    rcases store_cases hroom j with ⟨rfl, e⟩ | ⟨rfl, e⟩ | ⟨-, -, -, e⟩ | ⟨hj, hnext, hsp, e⟩
    · exact absurd (e ▸ hhigh) hv
    · exact ⟨i, rfl, by rw [store_at hroom, e]⟩
    · rw [e] at hhigh
      cases hhigh
    · -- So is the slot before it.
      rw [e] at hhigh ⊢
      obtain ⟨k, rfl, hpair⟩ := h.preceded j hhigh
      have hlow := Value.isWideLow_of_high? hpair
      refine ⟨k, rfl, ?_⟩
      rcases store_cases hroom k with ⟨rfl, -⟩ | ⟨rfl, hh⟩ | ⟨-, -, hsp', -⟩ | ⟨-, -, -, e'⟩
      · exact absurd (.inr (.inl ⟨hlow, rfl⟩)) hsp
      · exact absurd (.inr (.inr ⟨Value.isWideLow_of_high? hh,
          fun hl => h.not_low_succ hl hlow, hlow, rfl⟩)) hsp
      · rcases hsp' with ⟨-, hi⟩ | ⟨hl, rfl⟩ | ⟨-, -, hl, rfl⟩
        · exact absurd hi hj
        · exact absurd hlow (h.not_low_succ hl)
        · exact absurd hlow (h.not_low_succ hl)
      · rw [e', hpair]

end Paired

end Dataflow.State

end BytecodeVerifier
