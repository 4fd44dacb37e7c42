/-!
# Tiles — parts which follow one another

A part goes from one position up to, and not including, another.  `Tiles n a parts` says that the
parts follow one another from `a` up to `n` and that none is empty: the blocks of a method tile its
code, the incoming values the last registers of a frame, the tokens of a text what has been read of
it.  Every position between `a` and `n` is then in a part (`exists_part`), and in one only, since a
part ends before a later one begins (`le_of_lt`).
-/

namespace BytecodeVerifier

/-- Parts which follow one another from a position up to `n`, none of them empty. -/
def Tiles (n : Nat) : Nat → List (Nat × Nat) → Prop
  | a, [] => a = n
  | a, (lo, hi) :: parts => lo = a ∧ lo < hi ∧ Tiles n hi parts

namespace Tiles

variable {n a : Nat} {parts : List (Nat × Nat)}

theorem le (h : Tiles n a parts) : a ≤ n := by
  induction parts generalizing a with
  | nil => exact Nat.le_of_eq h
  | cons p parts ih =>
      obtain ⟨rfl, hlt, h⟩ := h
      exact Nat.le_trans (Nat.le_of_lt hlt) (ih h)

/-- A part lies within what is tiled, and is not empty. -/
theorem bounds (h : Tiles n a parts) {d lo hi : Nat} (hd : parts[d]? = some (lo, hi)) :
    a ≤ lo ∧ lo < hi ∧ hi ≤ n := by
  induction parts generalizing a d with
  | nil => simp at hd
  | cons p parts ih =>
      obtain ⟨rfl, hlt, h⟩ := h
      cases d with
      | zero =>
          obtain rfl : p = (lo, hi) := by simpa using hd
          exact ⟨Nat.le_refl _, hlt, h.le⟩
      | succ d =>
          obtain ⟨h₁, h₂, h₃⟩ := ih h (by simpa using hd)
          exact ⟨Nat.le_trans (Nat.le_of_lt hlt) h₁, h₂, h₃⟩

/-- A part ends before a later one begins. -/
theorem le_of_lt (h : Tiles n a parts) {d d' lo hi lo' hi' : Nat} (hd : parts[d]? = some (lo, hi))
    (hd' : parts[d']? = some (lo', hi')) (hlt : d < d') : hi ≤ lo' := by
  induction parts generalizing a d d' with
  | nil => simp at hd
  | cons p parts ih =>
      obtain ⟨rfl, -, h⟩ := h
      obtain ⟨d', rfl⟩ := Nat.exists_eq_add_one_of_ne_zero (Nat.ne_of_gt (Nat.zero_lt_of_lt hlt))
      rw [List.getElem?_cons_succ] at hd'
      cases d with
      | zero =>
          obtain rfl : p = (lo, hi) := by simpa using hd
          exact (h.bounds hd').1
      | succ d => exact ih h (by simpa using hd) hd' (Nat.lt_of_succ_lt_succ hlt)

/-- Every position is in a part. -/
theorem exists_part (h : Tiles n a parts) {pc : Nat} (ha : a ≤ pc) (hn : pc < n) :
    ∃ d lo hi : Nat, parts[d]? = some (lo, hi) ∧ lo ≤ pc ∧ pc < hi := by
  induction parts generalizing a with
  | nil =>
      obtain rfl : a = n := h
      omega
  | cons p parts ih =>
      obtain ⟨rfl, hlt, h⟩ := h
      by_cases hp : pc < p.2
      · exact ⟨0, p.1, p.2, rfl, ha, hp⟩
      · obtain ⟨d, lo, hi, hd, hpc⟩ := ih h (Nat.not_lt.mp hp)
        exact ⟨d + 1, lo, hi, by simpa using hd, hpc⟩

end Tiles

end BytecodeVerifier
