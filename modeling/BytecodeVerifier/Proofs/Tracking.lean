import BytecodeVerifier.Proofs.Safety
import BytecodeVerifier.Proofs.Simulation

/-!
# Tracking — a state of the analysis and the states for which it stands

`Sim` bounds a state of the analysis from below, by one state which a path leaves.  `Tracks A a`
bounds it from above too, by the states `A` which the paths leave: what bounds a slot in each of
them bounds it in `a`, and a value that `a` holds is one that some state of `A` holds there, or a
stranded half.

A write of one value into all of them keeps this, if it does not overwrite a stranded half
(`Tracks.store`).  Over a stranded half it need not: the analysis breaks a pair there and makes `⊤`
of the register beside it, but no state of `A` has a pair there to break.
-/

namespace BytecodeVerifier

namespace Dataflow.State

/-- A state of the analysis stands for the states which paths leave. -/
structure Tracks (A : State → Prop) (a : State) : Prop where
  near : ∃ t, A t ∧ Sim t a
  bounded : ∀ k u, (∀ t, A t → t.valueAt k ≤ u) → a.valueAt k ≤ u
  source : ∀ k, (a.valueAt k).isDefined = true →
    (∃ t, A t ∧ t.valueAt k = a.valueAt k) ∨ a.Stranded k

namespace Tracks

theorem of_mem {A : State → Prop} {a : State} (ha : A a) (hp : a.Paired) : Tracks A a :=
  ⟨⟨a, ha, .of_le (le_refl a) hp⟩, fun _ _ h => h a ha, fun _ _ => .inl ⟨a, ha, rfl⟩⟩

/-- More paths may leave more states. -/
theorem mono {A B : State → Prop} {a : State} (h : Tracks A a) (hAB : ∀ t, A t → B t) :
    Tracks B a := by
  refine ⟨?_, fun k u hu => h.bounded k u fun t ht => hu t (hAB t ht), fun k hk => ?_⟩
  · obtain ⟨t, ht, hsim⟩ := h.near
    exact ⟨t, hAB t ht, hsim⟩
  · rcases h.source k hk with ⟨t, ht, e⟩ | hst
    · exact .inl ⟨t, hAB t ht, e⟩
    · exact .inr hst

theorem merge {A : State → Prop} {a b : State} (ha : Tracks A a) (hb : Tracks A b)
    (hsize : b.size = a.size) : Tracks A (a.merge b) := by
  have hle := Nat.le_of_eq hsize
  refine ⟨?_, fun k u hu => ?_, fun k hk => ?_⟩
  · obtain ⟨t, ht, hsim⟩ := ha.near
    exact ⟨t, ht, hsim.mono (le_merge_left hle)⟩
  · rw [valueAt_merge hle]
    exact Value.join_le (ha.bounded k u hu) (hb.bounded k u hu)
  · have hne := Value.ne_conflict_of_isDefined hk
    rw [valueAt_merge hle] at hk ⊢
    -- A value that two states merge to is that of one of them, and stays stranded if it was.
    rcases Value.join_cases (Value.ne_conflict_of_isDefined hk) with e | e
    · rw [e] at hk ⊢
      rcases ha.source k hk with hmem | hst
      · exact .inl hmem
      · exact .inr (hst.mono (le_merge_left hle) hne)
    · rw [e] at hk ⊢
      rcases hb.source k hk with hmem | hst
      · exact .inl hmem
      · exact .inr (hst.mono (le_merge_right hsize) hne)

/-- What every path leaves in a slot, if it is a value, the analysis has too. -/
theorem valueAt_eq {A : State → Prop} {a : State} (h : Tracks A a) {k : Nat} {v : Value}
    (hv : v.isDefined = true) (hall : ∀ t, A t → t.valueAt k = v) : a.valueAt k = v := by
  obtain ⟨t, ht, hsim⟩ := h.near
  have e := hall t ht
  have hbound : a.valueAt k ≤ v := h.bounded k v fun t ht => le_of_eq (hall t ht)
  rcases hsim.eq_or_conflict (i := k) (by rwa [e]) with e' | e'
  · exact e'.trans e
  · rw [e'] at hbound
    rcases Value.le_iff.mp hbound with hc | hc | hc
    · cases hc
    · exact e'.trans hc
    · exact e'.trans hc.symm

section Paired

variable {A : State → Prop} {a : State} (h : Tracks A a) (hA : ∀ t, A t → t.Paired)
  (hsize : ∀ t, A t → t.size = a.size)
include h hA

/-- No high half is in the first register: a path would have no low half for it. -/
theorem not_isWideHigh_zero : ¬ (a.valueAt 0).isWideHigh = true := by
  intro hhigh
  rcases h.source 0 (Value.isDefined_of_isWideHigh hhigh) with
    ⟨t, ht, e⟩ | ⟨hlow, -⟩ | ⟨-, j, hj, -⟩
  · obtain ⟨j, hj, -⟩ := (hA t ht).preceded 0 (e ▸ hhigh)
    exact absurd hj (Nat.succ_ne_zero j).symm
  · exact Value.not_isWideLow_of_isWideHigh hhigh hlow
  · exact absurd hj (Nat.succ_ne_zero j).symm

include hsize

/-- Nor is a low half in the last one. -/
theorem framed : a.Framed := by
  intro k hlow
  rcases h.source k (Value.isDefined_of_isWideLow hlow) with
    ⟨t, ht, e⟩ | ⟨-, hne, -⟩ | ⟨hhigh, -⟩
  · rw [← hsize t ht]
    exact (hA t ht).lt_of_low (e ▸ hlow)
  · exact lt_size_of_valueAt hne
  · exact absurd hlow (Value.not_isWideLow_of_isWideHigh hhigh)

/-- So there is room for every value that fits the frame. -/
theorem room {i : Nat} {v : Value} (hi : i < a.size) (hv : v.isWideLow = true → i + 1 < a.size) :
    a.Room i v := by
  refine ((h.framed hA hsize).room_iff hi).mpr ⟨?_, ?_⟩
  · rintro ⟨-, hhigh⟩
    exact h.not_isWideHigh_zero hA hhigh
  · rintro ⟨hlast, hlow⟩
    exact absurd (hv hlow) (hlast ▸ Nat.lt_irrefl _)

end Paired

section Store

variable {A B : State → Prop} {a : State} {i : Nat} {v : Value} (h : Tracks A a)
  (hA : ∀ t, A t → t.Paired ∧ t.Room i v ∧ B (t.store i v))
include h hA

/-- Where the analysis breaks a pair by a write, and overwrites no stranded half, some state for
which it stands has a pair there too. -/
theorem exists_spoils (hfree : ¬ a.Stranded i) (hnext : v.isWideLow = true → ¬ a.Stranded (i + 1))
    {k : Nat} (hsp : a.Spoils i v k) : ∃ t, A t ∧ t.Spoils i v k := by
  rcases hsp with ⟨hhigh, hk⟩ | ⟨hlow, hk⟩ | ⟨hv, -, hlow, hk⟩
  · rcases h.source i (Value.isDefined_of_isWideHigh hhigh) with ⟨t, ht, e⟩ | hst
    · exact ⟨t, ht, .inl ⟨e ▸ hhigh, hk⟩⟩
    · exact absurd hst hfree
  · rcases h.source i (Value.isDefined_of_isWideLow hlow) with ⟨t, ht, e⟩ | hst
    · exact ⟨t, ht, .inr (.inl ⟨e ▸ hlow, hk⟩)⟩
    · exact absurd hst hfree
  · rcases h.source (i + 1) (Value.isDefined_of_isWideLow hlow) with ⟨t, ht, e⟩ | hst
    · have hlow' : (t.valueAt (i + 1)).isWideLow = true := e ▸ hlow
      exact ⟨t, ht, .inr (.inr ⟨hv, fun hl => (hA t ht).1.not_low_succ hl hlow', hlow', hk⟩)⟩
    · exact absurd hst (hnext hv)

/-- **Writing a value keeps track**, unless it overwrites a stranded half. -/
theorem store (ha : a.Room i v) (hv : v ≠ .uninitialized) (hhigh : ¬ v.isWideHigh = true)
    (hfree : ¬ a.Stranded i) (hnext : v.isWideLow = true → ¬ a.Stranded (i + 1)) :
    Tracks B (a.store i v) := by
  obtain ⟨t₀, ht₀, hsim⟩ := h.near
  obtain ⟨-, hroom₀, hB₀⟩ := hA t₀ ht₀
  refine ⟨⟨t₀.store i v, hB₀, hsim.store hroom₀ ha hv hhigh⟩, ?_, ?_⟩
  · intro k u hu
    rcases store_cases ha k with ⟨rfl, e⟩ | ⟨rfl, e⟩ | ⟨hk, hk', hsp, e⟩ | ⟨hk, hk', -, e⟩
    · rw [e, ← store_at hroom₀]
      exact hu _ hB₀
    · rw [← store_next hroom₀ e]
      exact hu _ hB₀
    · -- Some path breaks the pair as well, so the bound is `⊤`.
      obtain ⟨t, ht, hsp'⟩ := h.exists_spoils hA hfree hnext hsp
      obtain ⟨-, hroom, hB⟩ := hA t ht
      rw [e, ← store_spoiled hroom hsp' hk hk']
      exact hu _ hB
    · rw [e]
      refine h.bounded k u ?_
      intro t ht
      obtain ⟨-, hroom, hB⟩ := hA t ht
      have hle := hu _ hB
      by_cases hsp : t.Spoils i v k
      · rw [store_spoiled hroom hsp hk hk'] at hle
        exact le_trans (Value.le_conflict _) hle
      · rwa [store_other hroom hsp hk hk'] at hle
  · intro k hdef
    rcases store_cases ha k with ⟨rfl, e⟩ | ⟨rfl, e⟩ | ⟨-, -, -, e⟩ | ⟨hk, hk', -, e⟩
    · exact .inl ⟨_, hB₀, by rw [e, store_at hroom₀]⟩
    · exact .inl ⟨_, hB₀, store_next hroom₀ e⟩
    · rw [e] at hdef
      cases hdef
    · rcases h.source k (e ▸ hdef) with ⟨t, ht, he⟩ | hst
      · obtain ⟨hp, hroom, hB⟩ := hA t ht
        by_cases hsp : t.Spoils i v k
        · exact .inr (stranded_of_spoils ha hv hhigh hp hsp hk' e he.symm)
        · exact .inl ⟨_, hB, by rw [store_other hroom hsp hk hk', e, he]⟩
      · exact .inr (hst.store ha hv hhigh hk hk' e)

end Store

end Tracks

end Dataflow.State

end BytecodeVerifier
