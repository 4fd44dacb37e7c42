/-!
# Bit sets — finite sets of numbers

A set is an array of 64-bit words, the number `v` being bit `v % 64` of word `v / 64`.  Words beyond
the array count as zero, so trailing zero words are never seen.
-/

namespace BytecodeVerifier

/-- A finite set of numbers. -/
structure BitSet where
  words : Array (BitVec 64)
  deriving Repr, Inhabited

namespace BitSet

/-- The set with no elements. -/
def empty : BitSet := ⟨#[]⟩

/-- A word of the set, zero beyond the array. -/
def word (s : BitSet) (i : Nat) : BitVec 64 := s.words.getD i 0#64

/-- Membership. -/
def contains (s : BitSet) (v : Nat) : Bool := (s.word (v / 64)).getLsbD (v % 64)

/-- The set with as many words, and at least `n`. -/
def padded (s : BitSet) (n : Nat) : BitSet :=
  ⟨s.words ++ Array.replicate (n - s.words.size) 0#64⟩

/-- The set with one more element. -/
def insert (s : BitSet) (v : Nat) : BitSet :=
  ⟨(s.padded (v / 64 + 1)).words.modify (v / 64) (· ||| BitVec.twoPow 64 (v % 64))⟩

/-- The set with more elements. -/
def insertAll (s : BitSet) (vs : List Nat) : BitSet := vs.foldl insert s

/-- The set without an element. -/
def remove (s : BitSet) (v : Nat) : BitSet :=
  ⟨s.words.modify (v / 64) (· &&& ~~~ BitVec.twoPow 64 (v % 64))⟩

/-- The union of two sets. -/
def union (s t : BitSet) : BitSet :=
  ⟨(Array.range (max s.words.size t.words.size)).map fun i => s.word i ||| t.word i⟩

/-- The second set has an element which the first has not. -/
def gains (s t : BitSet) : Bool :=
  (List.range t.words.size).any fun i => (s.word i ||| t.word i) != s.word i

/-- The bits of a word, in ascending order, the first of them counted as `bit`: the word is shifted
until nothing is left of it. -/
def bitsFrom (bit : Nat) (w : BitVec 64) : List Nat :=
  if w = 0#64 then []
  else
    let rest := bitsFrom (bit + 1) (w >>> 1)
    if w.getLsbD 0 then bit :: rest else rest
termination_by w.toNat
decreasing_by
  rename_i hne
  have hpos : w.toNat ≠ 0 := fun hzero => hne (BitVec.eq_of_toNat_eq hzero)
  rw [BitVec.toNat_ushiftRight, Nat.shiftRight_eq_div_pow]
  omega

/-- The bits of a word, in ascending order. -/
def bits (w : BitVec 64) : List Nat := bitsFrom 0 w

/-- **Shifting gives the bits which are set**, of a word of which only the last `n` may be. -/
theorem bitsFrom_eq {n : Nat} {w : BitVec 64} (hw : ∀ j, n ≤ j → w.getLsbD j = false)
    (bit : Nat) :
    bitsFrom bit w = (List.range' bit n).filter fun v => w.getLsbD (v - bit) := by
  induction n generalizing w bit with
  | zero =>
      have hzero : w = 0#64 := BitVec.eq_of_getLsbD_eq fun j _ => by simp [hw j]
      rw [bitsFrom, if_pos hzero]
      rfl
  | succ n ih =>
      rw [bitsFrom]
      split
      · next hzero => simp [hzero]
      · have hshift (j : Nat) : (w >>> 1).getLsbD j = w.getLsbD (j + 1) := by
          rw [BitVec.getLsbD_ushiftRight, Nat.add_comm]
        have hrest : bitsFrom (bit + 1) (w >>> 1) =
            (List.range' (bit + 1) n).filter fun v => w.getLsbD (v - bit) := by
          rw [ih (fun j hj => (hshift j).trans (hw (j + 1) (Nat.succ_le_succ hj)))]
          refine List.filter_congr fun v hv => ?_
          have hlt := (List.mem_range'_1.mp hv).1
          rw [hshift]
          congr 1
          omega
        rw [List.range'_succ, List.filter_cons, Nat.sub_self, hrest]

theorem bits_eq (w : BitVec 64) : bits w = (List.range 64).filter w.getLsbD := by
  rw [bits, bitsFrom_eq (fun j hj => BitVec.getLsbD_of_ge w j hj), List.range_eq_range']
  rfl

/-- The number of elements. -/
def count (s : BitSet) : Nat := s.words.foldl (fun n w => n + (bits w).length) 0

/-- The elements, in ascending order. -/
def elements (s : BitSet) : List Nat :=
  s.words.toList.zipIdx.flatMap fun (w, i) => (bits w).map (64 * i + ·)

/-- How a set is written. -/
def text (s : BitSet) : String := "[" ++ ", ".intercalate (s.elements.map toString) ++ "]"

/-! ### Membership -/

@[simp] theorem contains_empty (v : Nat) : empty.contains v = false := by
  simp [empty, contains, word]

@[simp] theorem word_padded (s : BitSet) (n i : Nat) : (s.padded n).word i = s.word i := by
  unfold padded word
  simp only [Array.getD_eq_getD_getElem?, Array.getElem?_append, Array.getElem?_replicate]
  split
  · rfl
  · next h =>
      rw [Array.getElem?_eq_none (Nat.le_of_not_lt h)]
      split <;> rfl

theorem word_insert (s : BitSet) (v i : Nat) :
    (s.insert v).word i =
      if i = v / 64 then s.word i ||| BitVec.twoPow 64 (v % 64) else s.word i := by
  have hsize : v / 64 < (s.padded (v / 64 + 1)).words.size := by
    simp [padded]; omega
  rw [← word_padded s (v / 64 + 1) i]
  unfold insert word
  simp only [Array.getD_eq_getD_getElem?, Array.getElem?_modify]
  by_cases h : i = v / 64
  · subst h; simp [hsize]
  · rw [if_neg (Ne.symm h), if_neg h]

/-- Inserting adds just that element. -/
@[simp] theorem contains_insert (s : BitSet) (v w : Nat) :
    (s.insert v).contains w = (s.contains w || w == v) := by
  unfold contains
  rw [word_insert]
  by_cases h : w / 64 = v / 64
  · rw [if_pos h, BitVec.getLsbD_or, BitVec.getLsbD_twoPow]
    congr 1
    rw [Bool.eq_iff_iff]
    simp only [Bool.and_eq_true, decide_eq_true_eq, beq_iff_eq]
    omega
  · rw [if_neg h]
    have : (w == v) = false := by
      rw [beq_eq_false_iff_ne]
      rintro rfl
      exact h rfl
    rw [this, Bool.or_false]

theorem contains_insertAll (vs : List Nat) (s : BitSet) (w : Nat) :
    (s.insertAll vs).contains w = (s.contains w || vs.contains w) := by
  induction vs generalizing s with
  | nil => simp [insertAll]
  | cons v vs ih =>
      have := ih (s.insert v)
      rw [insertAll] at this ⊢
      rw [List.foldl_cons, this, contains_insert, List.contains_cons, Bool.or_assoc]

/-! ### What is missing -/

/-- How many of the numbers below `n` are not in the set. -/
def missing (s : BitSet) (n : Nat) : Nat := (List.range n).countP fun v => !s.contains v

theorem countP_insertAll_le (s : BitSet) (vs l : List Nat) :
    l.countP (fun v => !(s.insertAll vs).contains v) ≤ l.countP (fun v => !s.contains v) := by
  refine List.countP_mono_left fun v _ h => ?_
  rw [contains_insertAll] at h
  simp only [Bool.not_or, Bool.and_eq_true] at h
  exact h.1

theorem countP_insertAll_lt {s : BitSet} {vs l : List Nat} {v : Nat} (hl : v ∈ l) (hv : v ∈ vs)
    (hs : s.contains v = false) :
    l.countP (fun w => !(s.insertAll vs).contains w) < l.countP (fun w => !s.contains w) := by
  induction l with
  | nil => cases hl
  | cons w l ih =>
      rw [List.countP_cons, List.countP_cons]
      rcases List.mem_cons.mp hl with rfl | htail
      · have hle := countP_insertAll_le s vs l
        have hin : (s.insertAll vs).contains v = true := by
          rw [contains_insertAll, List.contains_iff_mem.mpr hv, Bool.or_true]
        rw [hin, hs]
        simp only [Bool.not_true, Bool.not_false, if_true, Bool.false_eq_true, if_false]
        omega
      · have hlt := ih htail
        rw [contains_insertAll vs s w]
        cases s.contains w <;> cases vs.contains w <;>
          simp only [Bool.or_false, Bool.or_true, Bool.not_true, Bool.not_false, if_true,
            Bool.false_eq_true, if_false] <;> omega

/-- Inserting never leaves more missing. -/
theorem missing_insertAll_le (s : BitSet) (vs : List Nat) (n : Nat) :
    (s.insertAll vs).missing n ≤ s.missing n :=
  countP_insertAll_le s vs _

/-- Inserting something missing leaves less missing. -/
theorem missing_insertAll_lt {s : BitSet} {vs : List Nat} {v n : Nat} (hv : v ∈ vs) (hn : v < n)
    (hs : s.contains v = false) : (s.insertAll vs).missing n < s.missing n :=
  countP_insertAll_lt (List.mem_range.mpr hn) hv hs

end BitSet

end BytecodeVerifier
