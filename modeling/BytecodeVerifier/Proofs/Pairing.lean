import BytecodeVerifier.Proofs.Writing

/-!
# Pairing — a write keeps wide pairs whole

A state is *strictly paired* when a slot holds a low half just if the slot after it is there and
holds the high half which continues it, and the first slot holds no high half.  This is the same as
to say that halves come in whole pairs only (`strictlyPaired_iff`).

A write may overlap two old pairs at once, or coincide with one.  Whichever it is, a slot which is
not written to is spoiled just when it holds the other half of a pair one half of which is written
over (`Paired.spoils_iff`).  Hence **writing keeps a state strictly paired**, and changes nothing
but the slots it writes to and the mates of these (`write_strictlyPaired`).
-/

namespace BytecodeVerifier.Dataflow.State

variable {s : State} {i j k : Nat} {v : Value}

/-! ### Strict pairing -/

/-- A slot holds a low half just if the slot after it is there and holds the high half which
continues it, and the first slot holds no high half. -/
structure StrictlyPaired (s : State) : Prop where
  continues : ∀ i < s.size, ∀ low high : Value, low.high? = some high →
    (s.valueAt i = low ↔ i + 1 < s.size ∧ s.valueAt (i + 1) = high)
  first : ¬ (s.valueAt 0).isWideHigh = true

theorem StrictlyPaired.paired (h : s.StrictlyPaired) : s.Paired where
  continued i hlow := by
    obtain ⟨high, hhigh⟩ := Value.isWideLow_iff.mp hlow
    have hi : i < s.size := lt_size_of_valueAt
      (Value.ne_uninitialized_of_isDefined (Value.isDefined_of_isWideLow hlow))
    obtain ⟨-, hnext⟩ := (h.continues i hi _ _ hhigh).mp rfl
    rw [hnext, hhigh]
  preceded i hhigh := by
    obtain ⟨low, hlow⟩ := Value.isWideHigh_iff.mp hhigh
    have hpair : low.high? = some (s.valueAt i) := Value.low?_eq_some_iff.mp hlow
    have hi : i < s.size := lt_size_of_valueAt
      (Value.ne_uninitialized_of_isDefined (Value.isDefined_of_isWideHigh hhigh))
    cases i with
    | zero => exact absurd hhigh h.first
    | succ j =>
        have hj : s.valueAt j = low :=
          (h.continues j (Nat.lt_of_succ_lt hi) _ _ hpair).mpr ⟨hi, rfl⟩
        exact ⟨j, rfl, by rw [hj, hpair]⟩

theorem Paired.strictlyPaired (h : s.Paired) : s.StrictlyPaired where
  continues i _ low high hpair := by
    constructor
    · rintro rfl
      have hlow := Value.isWideLow_of_high? hpair
      exact ⟨h.lt_of_low hlow, Option.some.inj ((h.continued i hlow).symm.trans hpair)⟩
    · rintro ⟨-, rfl⟩
      obtain ⟨j, hj, he⟩ := h.preceded (i + 1) (Value.isWideHigh_of_high? hpair)
      obtain rfl : i = j := by omega
      have hlow := Value.low?_eq_some_iff.mpr hpair
      exact Option.some.inj ((Value.low?_eq_some_iff.mpr he).symm.trans hlow)
  first hhigh := by
    obtain ⟨j, hj, -⟩ := h.preceded 0 hhigh
    cases hj

theorem strictlyPaired_iff : s.StrictlyPaired ↔ s.Paired :=
  ⟨StrictlyPaired.paired, Paired.strictlyPaired⟩

/-! ### What a write touches -/

/-- Writing a value into slot `i` writes to slot `j`. -/
def Overwrites (i : Nat) (v : Value) (j : Nat) : Prop :=
  j = i ∨ v.isWideLow = true ∧ j = i + 1

/-- Two slots hold the two halves of one pair. -/
def Mates (s : State) (j k : Nat) : Prop :=
  (k = j + 1 ∧ (s.valueAt j).high? = some (s.valueAt k)) ∨
    (j = k + 1 ∧ (s.valueAt k).high? = some (s.valueAt j))

/-- **A write spoils the other halves of the pairs it overwrites half of**, and nothing else. -/
theorem Paired.spoils_iff (h : s.Paired) (hj : ¬ Overwrites i v j) :
    s.Spoils i v j ↔ ∃ k, Overwrites i v k ∧ s.Mates j k := by
  constructor
  · rintro (⟨hhigh, rfl⟩ | ⟨hlow, rfl⟩ | ⟨hv, -, hlow, rfl⟩)
    · obtain ⟨k, hk, hpair⟩ := h.preceded _ hhigh
      obtain rfl : j = k := by omega
      exact ⟨j + 1, .inl rfl, .inl ⟨rfl, hpair⟩⟩
    · exact ⟨i, .inl rfl, .inr ⟨rfl, h.continued i hlow⟩⟩
    · exact ⟨i + 1, .inr ⟨hv, rfl⟩, .inr ⟨rfl, h.continued (i + 1) hlow⟩⟩
  · rintro ⟨k, rfl | ⟨hv, rfl⟩, ⟨hk, hpair⟩ | ⟨rfl, hpair⟩⟩
    · subst hk
      exact .inl ⟨Value.isWideHigh_of_high? hpair, rfl⟩
    · exact .inr (.inl ⟨Value.isWideLow_of_high? hpair, rfl⟩)
    · -- The slot before the second one written is the first one.
      exact absurd (.inl (by omega)) hj
    · have hlow := Value.isWideLow_of_high? hpair
      exact .inr (.inr ⟨hv, fun hi => h.not_low_succ hi hlow, hlow, rfl⟩)

/-! ### Writing -/

/-- **Writing keeps wide pairs whole.**  In a strictly paired state of any size, a value which is no
high half can be written wherever it fits.  The state is then strictly paired again and holds the
value there, and after a low half the half which continues it.  Every other slot is as it was, but
for a slot which held the other half of a pair one half of which was written over: it holds `⊤`. -/
theorem write_strictlyPaired {n : UInt64} {r : Register} (hs : s.size = n.toNat)
    (h : s.StrictlyPaired) (hr : r.toNat < s.size) (hv : ¬ v.isWideHigh = true)
    (hfits : v.isWideLow = true → r.toNat + 1 < s.size) :
    ∃ t, s.write r v = .ok t ∧ t.size = s.size ∧ t.StrictlyPaired ∧ t.valueAt r.toNat = v ∧
      (v.isWideLow = true → v.high = .ok (t.valueAt (r.toNat + 1))) ∧
      ∀ j, ¬ Overwrites r.toNat v j →
        ((∃ k, Overwrites r.toNat v k ∧ s.Mates j k) → t.valueAt j = .conflict) ∧
        ((¬ ∃ k, Overwrites r.toNat v k ∧ s.Mates j k) → t.valueAt j = s.valueAt j) := by
  have hroom : s.Room r.toNat v := h.paired.room hr hfits
  refine ⟨s.store r.toNat v, (write_eq_ok_iff (hs ▸ n.toNat_lt_size)).mpr ⟨hroom, rfl⟩,
    size_store s _ v, (h.paired.store hroom hv).strictlyPaired, store_at hroom, fun hlow => ?_,
    fun j hj => ?_⟩
  · obtain ⟨high, hhigh⟩ := Value.isWideLow_iff.mp hlow
    rw [store_next hroom hhigh, Value.high, hhigh]
  · have hne : j ≠ r.toNat := fun e => hj (.inl e)
    have hnext : v.isWideLow = true → j ≠ r.toNat + 1 := fun hlow e => hj (.inr ⟨hlow, e⟩)
    rw [← h.paired.spoils_iff hj]
    exact ⟨fun hsp => store_spoiled hroom hsp hne hnext, fun hsp => store_other hroom hsp hne hnext⟩

/-- A long and after it a double. -/
def twoPairs : State := ⟨#[.longLow, .longHigh, .doubleLow, .doubleHigh]⟩

theorem twoPairs_strictlyPaired : twoPairs.StrictlyPaired where
  continues i hi low high hpair := by
    have hi' : i < 4 := hi
    obtain rfl | rfl | rfl | rfl : i = 0 ∨ i = 1 ∨ i = 2 ∨ i = 3 := by omega
    all_goals
      revert hpair
      cases low <;> cases high <;> decide
  first := by decide

/-- A long written across both pairs spoils what is left of them on either side. -/
theorem twoPairs_overlapped :
    ∃ t, twoPairs.write ⟨1⟩ .longLow = .ok t ∧ t.StrictlyPaired ∧ t.valueAt 0 = .conflict ∧
      t.valueAt 1 = .longLow ∧ Value.longLow.high = .ok (t.valueAt 2) ∧
      t.valueAt 3 = .conflict := by
  obtain ⟨t, hwrite, -, hpaired, hat, hnext, hframe⟩ :=
    write_strictlyPaired (s := twoPairs) (v := .longLow) (n := 4) (r := ⟨1⟩) rfl
      twoPairs_strictlyPaired (by decide) (by decide) (fun _ => by decide)
  refine ⟨t, hwrite, hpaired, (hframe 0 ?_).1 ⟨1, .inl rfl, .inl ⟨rfl, rfl⟩⟩, hat, hnext rfl,
    (hframe 3 ?_).1 ⟨2, .inr ⟨rfl, rfl⟩, .inr ⟨rfl, rfl⟩⟩⟩
  · rintro (h | ⟨-, h⟩) <;> cases h
  · rintro (h | ⟨-, h⟩) <;> cases h

end BytecodeVerifier.Dataflow.State
