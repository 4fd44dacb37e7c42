import BytecodeVerifier.Numeral
import Mathlib.Data.List.Basic

/-!
# Numerals — reading undoes writing

A number is written as its decimal digits.  **Every reading of a number takes these digits back to
it**, as far as it fits the bits asked for (`decimal?_toDigits`, `natural?_toDigits`,
`signed?_toDigits`, `signed?_negative`).  What could go wrong is a first digit `0`, which makes a
numeral octal: only zero starts so, and it is zero in octal too.
-/

namespace BytecodeVerifier.Numeral

/-! ### Digits -/

theorem digit?_digitChar {d : Nat} (h : d < 10) : digit? d.digitChar = some d := by
  have hall : ∀ d < 10, digit? d.digitChar = some d := by decide
  exact hall d h

theorem digits?_concat (base n : Nat) (cs : List Char) (c : Char) :
    digits? base n (cs ++ [c]) = (digits? base n cs).bind (digits? base · [c]) := by
  induction cs generalizing n with
  | nil => rfl
  | cons c' cs ih =>
      simp only [List.cons_append, digits?]
      cases digit? c' with
      | none => rfl
      | some d =>
          dsimp only
          split
          · exact ih _
          · rfl

/-- The decimal digits of a number spell it. -/
theorem digits?_toDigits (n : Nat) : digits? 10 0 (Nat.toDigits 10 n) = some n := by
  induction n using Nat.strongRecOn with
  | ind n ih =>
      rcases Nat.lt_or_ge n 10 with hlt | hge
      · rw [Nat.toDigits_of_lt_base hlt]
        simp [digits?, digit?_digitChar hlt, hlt]
      · have hmod : n % 10 < 10 := Nat.mod_lt n (by decide)
        rw [Nat.toDigits_of_base_le (by decide) hge, digits?_concat, ih (n / 10) (by omega)]
        simp only [Option.bind_some, digits?, digit?_digitChar hmod, if_pos hmod]
        congr 1
        omega

theorem decimal?_toDigits {bits n : Nat} (h : n < Nat.pow 2 bits) :
    decimal? bits (Nat.toDigits 10 n) = some n := by
  have hne : (Nat.toDigits 10 n).isEmpty = false :=
    List.isEmpty_eq_false_iff.mpr Nat.toDigits_ne_nil
  rw [decimal?, hne, if_neg Bool.false_ne_true, digits?_toDigits]
  simpa using h

/-- A mark and a number are written as the mark and the digits. -/
theorem toList_numbered (mark : String) (n : Nat) :
    (mark ++ toString n).toList = mark.toList ++ Nat.toDigits 10 n := by
  rw [String.toList_append, Nat.toString_eq_repr, Nat.toList_repr]

/-! ### Numerals -/

/-- Only zero is written with a leading zero. -/
theorem head_toDigits {n : Nat} (h : 0 < n) : (Nat.toDigits 10 n).head? ≠ some '0' := by
  induction n using Nat.strongRecOn with
  | ind n ih =>
      rcases Nat.lt_or_ge n 10 with hlt | hge
      · have hall : ∀ d < 10, 0 < d → d.digitChar ≠ '0' := by decide
        rw [Nat.toDigits_of_lt_base hlt]
        simpa using hall n hlt h
      · have hhead := ih (n / 10) (by omega) (by omega)
        rw [Nat.toDigits_of_base_le (by decide) hge,
          List.head?_append_of_ne_nil _ Nat.toDigits_ne_nil]
        exact hhead

theorem base_of_head {text : List Char} (h : text.head? ≠ some '0') : base text = (10, text) := by
  unfold base
  split
  · exact absurd rfl h
  · exact absurd rfl h
  · rfl

theorem natural?_toDigits {bits n : Nat} (h : n < Nat.pow 2 bits) :
    natural? bits (Nat.toDigits 10 n) = some n := by
  rcases Nat.eq_zero_or_pos n with rfl | hpos
  · have hbase : base ['0'] = (8, []) := rfl
    simp only [show Nat.toDigits 10 0 = ['0'] from rfl, natural?, hbase]
    simp [digits?]
  · have hne : (Nat.toDigits 10 n).isEmpty = false :=
      List.isEmpty_eq_false_iff.mpr Nat.toDigits_ne_nil
    have hdigit : ∀ c ∈ Nat.toDigits 10 n, c ≠ '_' := by
      rintro c hc rfl
      exact absurd (Nat.isDigit_of_mem_toDigits (by decide) (by decide) hc) (by decide)
    have hfilter : (Nat.toDigits 10 n).filter (· != '_') = Nat.toDigits 10 n :=
      List.filter_eq_self.mpr fun c hc => by simpa using hdigit c hc
    have hcontains : (Nat.toDigits 10 n).contains '_' = false := by
      simp
    rw [natural?, hne, if_neg Bool.false_ne_true, base_of_head (head_toDigits hpos)]
    dsimp only
    rw [hfilter, digits?_toDigits, hcontains]
    exact if_pos ⟨h, fun hc => absurd hc Bool.false_ne_true⟩

theorem signed?_toDigits {n : Nat} (h : n < Nat.pow 2 63) :
    signed? (Nat.toDigits 10 n) = some (n : Int) := by
  have hn : natural? 64 (Nat.toDigits 10 n) = some n :=
    natural?_toDigits (Nat.lt_of_lt_of_le h (by decide))
  have hdigit : ∀ c ∈ Nat.toDigits 10 n, c.isDigit = true :=
    fun c => Nat.isDigit_of_mem_toDigits (by decide) (by decide)
  unfold signed?
  split
  · next heq => exact absurd (hdigit '-' (by rw [heq]; exact List.mem_cons_self)) (by decide)
  · next heq => exact absurd (hdigit '+' (by rw [heq]; exact List.mem_cons_self)) (by decide)
  · rw [hn, Option.filter_some, if_pos (decide_eq_true h)]
    rfl

theorem signed?_negative {n : Nat} (h : n ≤ Nat.pow 2 63) :
    signed? ('-' :: Nat.toDigits 10 n) = some (-(n : Int)) := by
  have hn : natural? 64 (Nat.toDigits 10 n) = some n :=
    natural?_toDigits (Nat.lt_of_le_of_lt h (by decide))
  rw [signed?, hn, Option.filter_some, if_pos (decide_eq_true h)]
  rfl

end BytecodeVerifier.Numeral
