import BytecodeVerifier.Proofs.Writing

/-!
# Entry — the state in which a method begins

The parameters are put into their slots one after the other.  A register file lets no two of them
share a slot, so each finds its slots empty and is put there as by a write (`receive_eq_store`).
Hence the state on entry is paired, and only slots of parameters hold anything
(`paired_initialState`, `occupied_of_initialState`).  There is such a state if every parameter ends
within the frame (`exists_initialState`): that its end, taken modulo 2⁶⁴, does is not enough.
-/

namespace BytecodeVerifier

open Dataflow

namespace DeclaredType

/-- What a type other than `void` puts into its registers. -/
theorem exists_value {t : DeclaredType} (h : t.width ≠ 0) :
    ∃ v, t.value = .ok v ∧ v.isDefined = true ∧ ¬ v.isWideHigh = true ∧
      t.width.toNat = if v.isWideLow = true then 2 else 1 := by
  revert h
  cases t <;>
    simp [width, value, Value.isDefined, Value.isWideHigh, Value.isWideLow, Value.category]

end DeclaredType

namespace Register.Parameter

/-- The parameter takes the slot. -/
def Occupies (p : Parameter) (k : Nat) : Prop :=
  p.slot.toNat ≤ k ∧ k < p.slot.toNat + p.type.width.toNat

/-- The parameter ends within a frame of `n` registers. -/
def Fits (p : Parameter) (n : Nat) : Prop := p.slot.toNat + p.type.width.toNat ≤ n

instance (p : Parameter) (n : Nat) : Decidable (p.Fits n) :=
  inferInstanceAs (Decidable (_ ≤ _))

/-- The slots of a parameter that ends within a frame are those it takes. -/
theorem mem_slots_iff {p : Parameter} {n : Nat} (hfit : p.Fits n) (hn : n < UInt64.size)
    {k : UInt64} : k ∈ p.slots ↔ p.Occupies k.toNat := by
  have hstop : p.stop.toNat = p.slot.toNat + p.type.width.toNat := by
    simp only [Fits, stop, toNat, UInt64.toNat_add, UInt64.size] at *
    omega
  unfold slots Occupies
  by_cases hlt : p.slot.index < p.stop
  · rw [if_pos hlt]
    simp only [List.mem_map, List.mem_range]
    constructor
    · rintro ⟨j, hj, rfl⟩
      simp only [Fits, toNat, UInt64.toNat_add, UInt64.toNat_ofNat', UInt64.size] at *
      omega
    · rintro ⟨hlo, hhi⟩
      refine ⟨k.toNat - p.slot.toNat, by omega, ?_⟩
      apply UInt64.toNat.inj
      simp only [Fits, toNat, UInt64.toNat_add, UInt64.toNat_ofNat', UInt64.size] at *
      omega
  · rw [if_neg hlt]
    rw [UInt64.lt_iff_toNat_lt, hstop] at hlt
    simp only [List.not_mem_nil, false_iff]
    simp only [toNat] at *
    omega

end Register.Parameter

namespace Register.File

variable {size : UInt64}

theorem objection?_cons_eq_none_iff {taken : List UInt64} {p : Parameter} {ps : List Parameter} :
    objection? size taken (p :: ps) = none ↔
      (p.type.width ≠ 0 ∧ p.stop ≤ size ∧ ∀ k ∈ p.slots, k ∉ taken) ∧
        objection? size (p.slots ++ taken) ps = none := by
  have hle : p.stop ≤ size ↔ ¬ size < p.stop := UInt64.not_lt.symm
  have hfree : (∀ k ∈ p.slots, k ∉ taken) ↔ ¬ p.slots.any (taken.contains ·) = true := by
    simp
  rw [objection?, hle, hfree]
  by_cases hwidth : p.type.width = 0
  · simp [hwidth]
  by_cases hrange : size < p.stop
  · simp [hwidth, hrange]
  rw [if_neg hwidth, if_neg hrange]
  by_cases hany : p.slots.any (taken.contains ·) = true
  · rw [if_pos hany]
    exact ⟨(nomatch ·), fun h => absurd hany h.1.2.2⟩
  · rw [if_neg hany]
    exact ⟨fun h => ⟨⟨hwidth, hrange, hany⟩, h⟩, And.right⟩

/-- **Nothing is objected to parameters just when none is void, each ends within the file and leaves
the slots in use alone, and no two have a slot in common.** -/
theorem objection?_eq_none_iff {taken : List UInt64} {ps : List Parameter} :
    objection? size taken ps = none ↔
      (∀ p ∈ ps, p.type.width ≠ 0 ∧ p.stop ≤ size ∧ ∀ k ∈ p.slots, k ∉ taken) ∧
        ps.Pairwise fun p q => ∀ k ∈ p.slots, k ∉ q.slots := by
  induction ps generalizing taken with
  | nil => simp [objection?]
  | cons p ps ih =>
      rw [objection?_cons_eq_none_iff, ih, List.forall_mem_cons, List.pairwise_cons]
      constructor
      · rintro ⟨hp, hps, hpairs⟩
        refine ⟨⟨hp, fun q hq => ?_⟩, fun q hq k hpk hqk => ?_, hpairs⟩
        · obtain ⟨hwidth, hstop, hfree⟩ := hps q hq
          exact ⟨hwidth, hstop, fun k hk htaken =>
            hfree k hk (List.mem_append_right _ htaken)⟩
        · exact (hps q hq).2.2 k hqk (List.mem_append_left _ hpk)
      · rintro ⟨⟨hp, hps⟩, hapart, hpairs⟩
        refine ⟨hp, fun q hq => ?_, hpairs⟩
        obtain ⟨hwidth, hstop, hfree⟩ := hps q hq
        refine ⟨hwidth, hstop, fun k hk hmem => ?_⟩
        rcases List.mem_append.mp hmem with hpk | htaken
        · exact hapart q hq k hpk hk
        · exact hfree k hk htaken

end Register.File

namespace Dataflow.State

/-- A write into an empty slot, and after a low half into an empty slot after it, breaks no pair. -/
theorem store_of_empty {s : State} {i : Nat} {v : Value} (hi : s.valueAt i = .uninitialized)
    (hnext : v.isWideLow = true → s.valueAt (i + 1) = .uninitialized) :
    s.store i v = match v.high? with
      | some h => (s.put i v).put (i + 1) h
      | none => s.put i v := by
  have hfirst : s.breakPair i = s := by
    unfold breakPair
    rw [hi]
    rfl
  unfold store
  rw [hfirst]
  cases hv : v.high? with
  | none => rfl
  | some h =>
      have hsecond : s.breakPair (i + 1) = s := by
        unfold breakPair
        rw [hnext (Value.isWideLow_of_high? hv)]
        rfl
      rw [hsecond]

theorem room_of_empty {s : State} {i : Nat} {v : Value} (hlt : i < s.size)
    (hlow : v.isWideLow = true → i + 1 < s.size) (hi : s.valueAt i = .uninitialized)
    (hnext : v.isWideLow = true → s.valueAt (i + 1) = .uninitialized) : s.Room i v := by
  have hfirst : s.breakPair i = s := by
    unfold breakPair
    rw [hi]
    rfl
  refine ⟨hlt, ⟨fun h => ?_, fun h => ?_⟩, fun h => ⟨hlow h, ?_, ?_⟩⟩
  · rw [hi] at h; cases h
  · rw [hi] at h; cases h
  · rw [hfirst, hnext h]; intro h; cases h
  · rw [hfirst, hnext h]; intro h; cases h

/-- Writing into empty slots spoils none. -/
theorem not_spoils_of_empty {s : State} {i j : Nat} {v : Value}
    (hi : s.valueAt i = .uninitialized)
    (hnext : v.isWideLow = true → s.valueAt (i + 1) = .uninitialized) : ¬ s.Spoils i v j := by
  rintro (⟨h, -⟩ | ⟨h, -⟩ | ⟨hv, -, h, -⟩)
  · rw [hi] at h; cases h
  · rw [hi] at h; cases h
  · rw [hnext hv] at h; cases h

end Dataflow.State

namespace Method

open Register

/-- A parameter that ends within the frame can be put into its slots. -/
theorem exists_receive {s : State} {p : Parameter} (hs : s.size < UInt64.size)
    (hwidth : p.type.width ≠ 0) (hfit : p.Fits s.size) : ∃ t, receive s p = .ok t := by
  obtain ⟨v, hv, -, -, hw⟩ := DeclaredType.exists_value hwidth
  unfold Parameter.Fits at hfit
  have hslot : p.slot.toNat < s.size := by
    split at hw <;> omega
  have hset : s.set p.slot v = .ok (s.put p.slot.toNat v) := State.set_eq_ok_iff.mpr ⟨hslot, rfl⟩
  unfold receive
  rw [hv]
  simp only [hset, bind, Except.bind]
  cases hh : v.high? with
  | none => exact ⟨_, rfl⟩
  | some high =>
      rw [if_pos (Value.isWideLow_of_high? hh)] at hw
      refine ⟨_, State.set_eq_ok_iff.mpr ⟨?_, rfl⟩⟩
      rw [Register.toNat_next hslot hs, State.size_put]
      omega

/-- **What a parameter does to a state**: it fits, and puts its value into its slot, and after a low
half the half which continues it. -/
theorem receive_cases {s t : State} {p : Parameter} (hs : s.size < UInt64.size)
    (hwidth : p.type.width ≠ 0) (h : receive s p = .ok t) :
    ∃ v, p.type.value = .ok v ∧ ¬ v.isWideHigh = true ∧ p.Fits s.size ∧
      (v.high? = none ∧ p.type.width.toNat = 1 ∧ t = s.put p.slot.toNat v ∨
        ∃ high, v.high? = some high ∧ p.type.width.toNat = 2 ∧
          t = (s.put p.slot.toNat v).put (p.slot.toNat + 1) high) := by
  obtain ⟨v, hv, -, hhigh, hw⟩ := DeclaredType.exists_value hwidth
  obtain ⟨v', hv', h⟩ := exists_of_bind_eq_ok h
  obtain rfl : v = v' := Except.ok.inj (hv.symm.trans hv')
  obtain ⟨s₁, h₁, h⟩ := exists_of_bind_eq_ok h
  obtain ⟨hslot, rfl⟩ := State.set_eq_ok_iff.mp h₁
  unfold Parameter.Fits
  cases hh : v.high? with
  | none =>
      rw [hh] at h
      cases h
      rw [if_neg fun hlow => by simp [Value.isWideLow_iff, hh] at hlow] at hw
      exact ⟨v, hv, hhigh, by omega, .inl ⟨hh, hw, rfl⟩⟩
  | some high =>
      rw [hh] at h
      obtain ⟨hlt, rfl⟩ := State.set_eq_ok_iff.mp h
      rw [Register.toNat_next hslot hs, State.size_put] at hlt
      rw [if_pos (Value.isWideLow_of_high? hh)] at hw
      rw [Register.toNat_next hslot hs]
      exact ⟨v, hv, hhigh, by omega, .inr ⟨high, hh, hw, rfl⟩⟩

/-- **A parameter is put into empty slots as by a write.** -/
theorem receive_eq_store {s t : State} {p : Parameter} (hs : s.size < UInt64.size)
    (hwidth : p.type.width ≠ 0) (h : receive s p = .ok t)
    (hempty : ∀ k, p.Fits s.size → p.Occupies k → s.valueAt k = .uninitialized) :
    ∃ v, ¬ v.isWideHigh = true ∧ p.Fits s.size ∧ s.Room p.slot.toNat v ∧
      t = s.store p.slot.toNat v ∧ (∀ j, ¬ s.Spoils p.slot.toNat v j) ∧
      (v.isWideLow = true → p.Occupies (p.slot.toNat + 1)) ∧ p.Occupies p.slot.toNat := by
  obtain ⟨v, -, hhigh, hfit, hcases⟩ := receive_cases hs hwidth h
  have hocc : p.Occupies p.slot.toNat := by
    unfold Parameter.Occupies
    rcases hcases with ⟨-, hw, -⟩ | ⟨high, -, hw, -⟩ <;> omega
  have hocc' : v.isWideLow = true → p.Occupies (p.slot.toNat + 1) := by
    intro hlow
    obtain ⟨high, hh⟩ := Value.isWideLow_iff.mp hlow
    unfold Parameter.Occupies
    rcases hcases with ⟨hnone, -⟩ | ⟨-, -, hw, -⟩
    · rw [hh] at hnone
      cases hnone
    · omega
  have hwithin : ∀ k, p.Occupies k → k < s.size := fun k hk => Nat.lt_of_lt_of_le hk.2 hfit
  have hi := hempty _ hfit hocc
  have hi' := fun hlow => hempty _ hfit (hocc' hlow)
  refine ⟨v, hhigh, hfit,
    State.room_of_empty (hwithin _ hocc) (fun hlow => hwithin _ (hocc' hlow)) hi hi', ?_,
    fun j => State.not_spoils_of_empty hi hi', hocc', hocc⟩
  rw [State.store_of_empty hi hi']
  rcases hcases with ⟨hh, -, rfl⟩ | ⟨high, hh, -, rfl⟩
  · rw [hh]
  · rw [hh]

/-- Parameters to which nothing is objected are put into a paired state, whose slots in use are all
taken, and leave a paired one. -/
theorem paired_receive {size : UInt64} {taken : List UInt64} {ps : List Parameter} {s t : State}
    (hacc : File.objection? size taken ps = none) (h : ps.foldlM receive s = .ok t)
    (hsize : s.size = size.toNat) (hpaired : s.Paired)
    (htaken : ∀ k, s.valueAt k ≠ .uninitialized → UInt64.ofNat k ∈ taken) :
    t.Paired ∧ ∀ k, t.valueAt k ≠ .uninitialized →
      s.valueAt k ≠ .uninitialized ∨ ∃ p ∈ ps, p.Occupies k := by
  induction ps generalizing s taken with
  | nil =>
      cases h
      exact ⟨hpaired, fun k hk => .inl hk⟩
  | cons p ps ih =>
      obtain ⟨⟨hwidth, -, hfree⟩, hacc⟩ := File.objection?_cons_eq_none_iff.mp hacc
      rw [List.foldlM_cons] at h
      obtain ⟨s₁, h₁, h⟩ := exists_of_bind_eq_ok h
      have hs : s.size < UInt64.size := by
        rw [hsize]
        exact size.toNat_lt_size
      have hempty : ∀ k, p.Fits s.size → p.Occupies k → s.valueAt k = .uninitialized := by
        intro k hfit hk
        by_contra hne
        have hlt : k < UInt64.size := Nat.lt_trans (State.lt_size_of_valueAt hne) hs
        have hmem : UInt64.ofNat k ∈ p.slots :=
          (Parameter.mem_slots_iff hfit hs).mpr (by rwa [UInt64.toNat_ofNat_of_lt' hlt])
        exact hfree _ hmem (htaken k hne)
      obtain ⟨v, hhigh, hfit, hroom, rfl, hsp, hocc', hocc⟩ :=
        receive_eq_store hs hwidth h₁ hempty
      -- A slot in use after the write is one of the parameter's or was in use.
      have hused : ∀ k, (s.store p.slot.toNat v).valueAt k ≠ .uninitialized →
          p.Occupies k ∨ s.valueAt k ≠ .uninitialized := by
        intro k hk
        rcases State.store_cases hroom k with ⟨rfl, -⟩ | ⟨rfl, e⟩ | ⟨-, -, h', -⟩ | ⟨-, -, -, e⟩
        · exact .inl hocc
        · exact .inl (hocc' (Value.isWideLow_of_high? e))
        · exact absurd h' (hsp k)
        · exact .inr (e ▸ hk)
      obtain ⟨hp, hslots⟩ := ih hacc h (by rw [State.size_store, hsize])
        (hpaired.store hroom hhigh) fun k hk => by
          have hlt : k < UInt64.size := by
            have := State.lt_size_of_valueAt hk
            rw [State.size_store] at this
            exact Nat.lt_trans this hs
          rcases hused k hk with hk | hk
          · exact List.mem_append_left _
              ((Parameter.mem_slots_iff hfit hs).mpr (by rwa [UInt64.toNat_ofNat_of_lt' hlt]))
          · exact List.mem_append_right _ (htaken k hk)
      refine ⟨hp, fun k hk => ?_⟩
      rcases hslots k hk with hk | ⟨q, hq, hk⟩
      · rcases hused k hk with hk | hk
        · exact .inr ⟨p, List.mem_cons_self, hk⟩
        · exact .inl hk
      · exact .inr ⟨q, List.mem_cons_of_mem _ hq, hk⟩

theorem initialState_spec {m : Method} {s : State} (h : m.initialState = .ok s) :
    s.Paired ∧ ∀ k, s.valueAt k ≠ .uninitialized → ∃ p ∈ m.registers.parameters, p.Occupies k := by
  have hblank : (State.blank m.registers.size.toNat).Paired := by
    constructor <;> intro i hi <;> simp [Value.isWideLow, Value.isWideHigh, Value.category] at hi
  obtain ⟨hp, hslots⟩ := paired_receive m.registers.accepted h (State.size_blank _) hblank
    fun k hk => absurd (State.valueAt_blank _ k) hk
  refine ⟨hp, fun k hk => ?_⟩
  rcases hslots k hk with hk | hk
  · exact absurd (State.valueAt_blank _ k) hk
  · exact hk

/-- **The state on entry is paired.** -/
theorem paired_initialState {m : Method} {s : State} (h : m.initialState = .ok s) : s.Paired :=
  (initialState_spec h).1

/-- On entry only slots of parameters hold anything. -/
theorem occupied_of_initialState {m : Method} {s : State} (h : m.initialState = .ok s) {k : Nat}
    (hk : s.valueAt k ≠ .uninitialized) : ∃ p ∈ m.registers.parameters, p.Occupies k :=
  (initialState_spec h).2 k hk

theorem width_ne_zero_of_accepted {size : UInt64} {taken : List UInt64} {ps : List Parameter}
    (hacc : File.objection? size taken ps = none) : ∀ p ∈ ps, p.type.width ≠ 0 :=
  fun p hp => ((File.objection?_eq_none_iff.mp hacc).1 p hp).1

/-- **There is a state on entry** if every parameter ends within the frame. -/
theorem exists_initialState {m : Method}
    (hfit : ∀ p ∈ m.registers.parameters, p.Fits m.registers.size.toNat) :
    ∃ s, m.initialState = .ok s := by
  have hwidth := width_ne_zero_of_accepted m.registers.accepted
  have hlt := m.registers.size.toNat_lt_size
  unfold initialState
  have hsize := State.size_blank m.registers.size.toNat
  generalize State.blank m.registers.size.toNat = s at hsize
  generalize m.registers.parameters = ps at hfit hwidth
  induction ps generalizing s with
  | nil => exact ⟨s, rfl⟩
  | cons p ps ih =>
      obtain ⟨t, ht⟩ := exists_receive (s := s) (by rw [hsize]; exact hlt)
        (hwidth p List.mem_cons_self) (by rw [hsize]; exact hfit p List.mem_cons_self)
      rw [List.foldlM_cons, ht]
      exact ih t (by rw [size_receive ht, hsize]) (fun q hq => hfit q (List.mem_cons_of_mem _ hq))
        fun q hq => hwidth q (List.mem_cons_of_mem _ hq)

end Method

/-- Two registers of which the last holds an int on entry are accepted. -/
theorem Register.File.accepted_two : objection? 2 [] [⟨⟨1⟩, .int⟩] = none := by decide

/-- So are three. -/
theorem Register.File.accepted_three : objection? 3 [] [⟨⟨2⟩, .int⟩] = none := by decide

end BytecodeVerifier
