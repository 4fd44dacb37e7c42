import BytecodeVerifier.BitSet
import Mathlib.Data.List.Basic

/-!
# Bit sets as sets

`BitSet.elements` lists exactly the members of a set (`mem_elements`), in ascending order
(`pairwise_elements`), and removing an element removes just that one (`contains_remove`).
-/

namespace BytecodeVerifier.BitSet

theorem word_remove (s : BitSet) (v i : Nat) :
    (s.remove v).word i =
      if i = v / 64 then s.word i &&& ~~~ BitVec.twoPow 64 (v % 64) else s.word i := by
  unfold remove word
  simp only [Array.getD_eq_getD_getElem?, Array.getElem?_modify]
  by_cases h : i = v / 64
  · subst h
    rw [if_pos rfl, if_pos rfl]
    cases s.words[v / 64]? <;> simp
  · rw [if_neg (Ne.symm h), if_neg h]

/-- Removing takes just that element out. -/
@[simp] theorem contains_remove (s : BitSet) (v w : Nat) :
    (s.remove v).contains w = (s.contains w && w != v) := by
  unfold contains
  rw [word_remove]
  by_cases h : w / 64 = v / 64
  · rw [if_pos h, BitVec.getLsbD_and, BitVec.getLsbD_not, BitVec.getLsbD_twoPow]
    have hlt : w % 64 < 64 := Nat.mod_lt _ (by decide)
    congr 1
    rw [Bool.eq_iff_iff]
    simp only [hlt, decide_true, Bool.true_and, Bool.not_eq_true', decide_eq_false_iff_not,
      bne_iff_ne, ne_eq, Bool.and_eq_false_imp, decide_eq_true_eq]
    omega
  · rw [if_neg h]
    have : (w != v) = true := by
      rw [bne_iff_ne]
      rintro rfl
      exact h rfl
    rw [this, Bool.and_true]

/-- What a set holds in the end, to which elements are added step by step. -/
theorem contains_foldl_iff {α : Type} {f : BitSet → α → BitSet} {x : Nat} {P : α → Prop}
    (hf : ∀ s a, (f s a).contains x = true ↔ s.contains x = true ∨ P a) (l : List α)
    (s : BitSet) :
    (l.foldl f s).contains x = true ↔ s.contains x = true ∨ ∃ a ∈ l, P a := by
  induction l generalizing s with
  | nil => simp
  | cons a l ih => simp [ih, hf, or_assoc]

/-- Inserting numbers that are missing, none of them twice, leaves so many less missing. -/
theorem missing_insertAll_add_length_le {s : BitSet} {vs : List Nat} {n : Nat} (hnd : vs.Nodup)
    (h : ∀ v ∈ vs, v < n ∧ s.contains v = false) :
    (s.insertAll vs).missing n + vs.length ≤ s.missing n := by
  induction vs generalizing s with
  | nil => exact Nat.le_refl _
  | cons v vs ih =>
      obtain ⟨hv, hvs⟩ := List.nodup_cons.mp hnd
      obtain ⟨hlt, hmissing⟩ := h v List.mem_cons_self
      have hone : (s.insertAll [v]).missing n < s.missing n :=
        missing_insertAll_lt List.mem_cons_self hlt hmissing
      have hrest : ((s.insertAll [v]).insertAll vs).missing n + vs.length ≤
          (s.insertAll [v]).missing n := by
        refine ih hvs fun w hw => ⟨(h w (List.mem_cons_of_mem _ hw)).1, ?_⟩
        have hne : w ≠ v := fun e => hv (e ▸ hw)
        rw [contains_insertAll, (h w (List.mem_cons_of_mem _ hw)).2]
        simpa using hne
      have hsplit : s.insertAll (v :: vs) = (s.insertAll [v]).insertAll vs := rfl
      rw [hsplit, List.length_cons]
      omega

theorem mem_bits {w : BitVec 64} {j : Nat} : j ∈ bits w ↔ j < 64 ∧ w.getLsbD j = true := by
  rw [bits_eq, List.mem_filter, List.mem_range]

/-- The elements of a set are its members. -/
theorem mem_elements {s : BitSet} {v : Nat} : v ∈ s.elements ↔ s.contains v = true := by
  unfold elements contains word
  rw [List.mem_flatMap]
  constructor
  · rintro ⟨⟨w, i⟩, hw, hv⟩
    obtain ⟨j, hj, rfl⟩ := List.mem_map.mp hv
    obtain ⟨hlt, hbit⟩ := mem_bits.mp hj
    have hget : s.words[i]? = some w := by
      rw [← Array.getElem?_toList]
      exact List.mem_zipIdx_iff_getElem?.mp hw
    have hdiv : (64 * i + j) / 64 = i := by omega
    have hmod : (64 * i + j) % 64 = j := by omega
    rw [hdiv, hmod, Array.getD_eq_getD_getElem?, hget]
    exact hbit
  · intro h
    cases hget : s.words[v / 64]? with
    | none =>
        rw [Array.getD_eq_getD_getElem?, hget] at h
        simp at h
    | some w =>
        rw [Array.getD_eq_getD_getElem?, hget] at h
        have hlt : v % 64 < 64 := Nat.mod_lt _ (by decide)
        refine ⟨(w, v / 64), ?_, List.mem_map.mpr ⟨v % 64, mem_bits.mpr ⟨hlt, h⟩, by omega⟩⟩
        rw [List.mem_zipIdx_iff_getElem?, Array.getElem?_toList]
        exact hget

/-- The elements of a set ascend. -/
theorem pairwise_elements (s : BitSet) : s.elements.Pairwise (· < ·) := by
  unfold elements
  rw [List.pairwise_flatMap]
  constructor
  · rintro ⟨w, i⟩ -
    show ((bits w).map (64 * i + ·)).Pairwise (· < ·)
    rw [bits_eq, List.pairwise_map]
    refine List.Pairwise.imp (fun h => ?_) (List.pairwise_lt_range.filter _)
    omega
  · have hidx : (s.words.toList.zipIdx.map Prod.snd).Pairwise (· < ·) := by
      rw [List.zipIdx_map_snd]
      exact List.pairwise_lt_range'
    refine List.Pairwise.imp (fun {a b} h x hx y hy => ?_) (List.pairwise_map.mp hidx)
    obtain ⟨j, hj, rfl⟩ := List.mem_map.mp hx
    obtain ⟨k, hk, rfl⟩ := List.mem_map.mp hy
    have := (mem_bits.mp hj).1
    omega

end BytecodeVerifier.BitSet
