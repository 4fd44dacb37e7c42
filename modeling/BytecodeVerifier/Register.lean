/-!
# Registers — the slots of a method's frame

A register is named by a 64-bit number.  The arithmetic of register numbers wraps: the register
after the last is `v0`, and the one before `v0` is the last.
-/

namespace BytecodeVerifier

/-- A register, by its number. -/
structure Register where
  index : UInt64
  deriving DecidableEq, Repr, Inhabited

namespace Register

/-- The register holding the high half of a pair whose low half is here. -/
def next (r : Register) : Register := ⟨r.index + 1⟩

/-- The register holding the low half of a pair whose high half is here. -/
def previous (r : Register) : Register := ⟨r.index - 1⟩

/-- The position of the register in a frame. -/
def toNat (r : Register) : Nat := r.index.toNat

/-- How a register is written. -/
def name (r : Register) : String := s!"v{r.index.toNat}"

/-! ### Neighbours -/

theorem toNat_next {r : Register} {n : Nat} (h : r.toNat < n) (hn : n < UInt64.size) :
    r.next.toNat = r.toNat + 1 := by
  have hr : r.index.toNat < n := h
  simp only [next, toNat, UInt64.toNat_add, UInt64.size] at *
  simp only [show (1 : UInt64).toNat = 1 from rfl]
  omega

theorem toNat_previous {r : Register} (h : 0 < r.toNat) :
    r.previous.toNat = r.toNat - 1 := by
  have hr : r.index.toNat < UInt64.size := r.index.toNat_lt_size
  simp only [previous, toNat, UInt64.toNat_sub, UInt64.size] at *
  simp only [show (1 : UInt64).toNat = 1 from rfl]
  omega

/-- The register before `v0` lies outside every frame. -/
theorem toNat_previous_zero {r : Register} (h : r.toNat = 0) :
    r.previous.toNat = UInt64.size - 1 := by
  simp only [previous, toNat, UInt64.toNat_sub, UInt64.size] at *
  simp only [show (1 : UInt64).toNat = 1 from rfl]
  omega

end Register

end BytecodeVerifier
