import BytecodeVerifier.Proofs.BitSet
import Mathlib.Data.Finset.Sort

/-!
# Bit sets as finite sets of numbers

The *members* of a bit set are a finite set, and each operation on bit sets is one on their members
(`members_insert`, `members_remove`, `members_union`).  What can be asked of a bit set depends on
the members alone: the elements are the members in ascending order (`elements_eq_sort`), the count
is their number (`count_eq_card`), and a union reports a change just when there are more of them
(`gains_iff_ssubset`).

So **any session on any number of bit sets goes as it goes on finite sets** (`session_models`): the
sets hold the same members and give the same answers.  Zero words at the end of a set make no
difference to any answer, now or later.
-/

namespace BytecodeVerifier

namespace BitSet

variable {s t : BitSet} {v w : Nat}

/-! ### Words -/

theorem word_of_le {i : Nat} (h : s.words.size ≤ i) : s.word i = 0#64 := by
  simp [word, Array.getD_eq_getD_getElem?, Array.getElem?_eq_none h]

/-- A set has words for all its elements. -/
theorem lt_size_of_contains (h : s.contains v = true) : v / 64 < s.words.size := by
  by_contra hle
  rw [contains, word_of_le (Nat.not_lt.mp hle)] at h
  simp at h

theorem word_union (s t : BitSet) (i : Nat) : (s.union t).word i = s.word i ||| t.word i := by
  by_cases hi : i < max s.words.size t.words.size
  · have hget : (Array.range (max s.words.size t.words.size))[i]? = some i := by
      rw [Array.getElem?_range, if_pos hi]
    simp only [union, word, Array.getD_eq_getD_getElem?, Array.getElem?_map, hget, Option.map_some,
      Option.getD_some]
  · have hs : s.word i = 0#64 := word_of_le (by omega)
    have ht : t.word i = 0#64 := word_of_le (by omega)
    rw [hs, ht, word_of_le (by simp [union]; omega)]
    rfl

@[simp] theorem contains_union (s t : BitSet) (v : Nat) :
    (s.union t).contains v = (s.contains v || t.contains v) := by
  rw [contains, word_union, BitVec.getLsbD_or]
  rfl

@[simp] theorem contains_padded (s : BitSet) (n v : Nat) :
    (s.padded n).contains v = s.contains v := by
  rw [contains, word_padded]
  rfl

/-- A union reports a change just when the other set has an element more. -/
theorem gains_iff : s.gains t = true ↔ ∃ v, t.contains v = true ∧ s.contains v = false := by
  unfold gains
  rw [List.any_eq_true]
  constructor
  · rintro ⟨i, -, hne⟩
    -- Two words which differ do so in some bit.
    obtain ⟨j, hj, hbit⟩ : ∃ j, j < 64 ∧
        (s.word i ||| t.word i).getLsbD j ≠ (s.word i).getLsbD j := by
      by_contra hall
      push Not at hall
      exact bne_iff_ne.mp hne (BitVec.eq_of_getLsbD_eq hall)
    have hdiv : (64 * i + j) / 64 = i := by omega
    have hmod : (64 * i + j) % 64 = j := by omega
    refine ⟨64 * i + j, ?_⟩
    rw [contains, contains, hdiv, hmod]
    rw [BitVec.getLsbD_or] at hbit
    cases hs : (s.word i).getLsbD j <;> simp_all
  · rintro ⟨v, ht, hs⟩
    refine ⟨v / 64, List.mem_range.mpr (lt_size_of_contains ht), bne_iff_ne.mpr fun he => ?_⟩
    have hbit := congrArg (·.getLsbD (v % 64)) he
    rw [contains] at ht hs
    simp [BitVec.getLsbD_or, ht, hs] at hbit

/-! ### Members -/

/-- The elements of a set, as a finite set. -/
def members (s : BitSet) : Finset Nat := s.elements.toFinset

@[simp] theorem mem_members : v ∈ s.members ↔ s.contains v = true := by
  rw [members, List.mem_toFinset, mem_elements]

@[simp] theorem members_empty : empty.members = ∅ := by
  ext v
  simp

@[simp] theorem members_insert (s : BitSet) (v : Nat) :
    (s.insert v).members = Insert.insert v s.members := by
  ext w
  simp [or_comm]

@[simp] theorem members_insertAll (s : BitSet) (vs : List Nat) :
    (s.insertAll vs).members = s.members ∪ vs.toFinset := by
  ext w
  simp [contains_insertAll]

@[simp] theorem members_remove (s : BitSet) (v : Nat) :
    (s.remove v).members = s.members.erase v := by
  ext w
  simp [and_comm]

@[simp] theorem members_union (s t : BitSet) :
    (s.union t).members = s.members ∪ t.members := by
  ext v
  simp

@[simp] theorem members_padded (s : BitSet) (n : Nat) : (s.padded n).members = s.members := by
  ext v
  simp

theorem nodup_elements (s : BitSet) : s.elements.Nodup :=
  s.pairwise_elements.imp Nat.ne_of_lt

/-- **The elements are the members, in ascending order.** -/
theorem elements_eq_sort (s : BitSet) : s.elements = s.members.sort := by
  have hsorted : s.elements.Pairwise (· ≤ ·) := s.pairwise_elements.imp Nat.le_of_lt
  exact ((List.toFinset_sort (· ≤ ·) s.nodup_elements).mpr hsorted).symm

theorem foldl_bits_length (ws : List (BitVec 64)) (n k : Nat) :
    ws.foldl (fun n w => n + (bits w).length) n =
      n + ((ws.zipIdx k).flatMap fun (w, i) => (bits w).map (64 * i + ·)).length := by
  induction ws generalizing n k with
  | nil => rfl
  | cons w ws ih =>
      rw [List.foldl_cons, ih _ (k + 1), List.zipIdx_cons, List.flatMap_cons, List.length_append,
        List.length_map, Nat.add_assoc]

/-- **The count is the number of members.** -/
theorem count_eq_card (s : BitSet) : s.count = s.members.card := by
  have hcount : s.count = s.elements.length := by
    rw [count, ← Array.foldl_toList, foldl_bits_length, Nat.zero_add, elements]
  rw [hcount, members, List.toFinset_card_of_nodup s.nodup_elements]

/-- **A union reports a change just when there are more members.** -/
theorem gains_iff_ssubset : s.gains t = true ↔ s.members ⊂ s.members ∪ t.members := by
  rw [gains_iff, Finset.ssubset_iff_of_subset Finset.subset_union_left]
  simp only [Finset.mem_union, mem_members, Bool.not_eq_true]
  constructor
  · rintro ⟨v, ht, hs⟩
    exact ⟨v, .inr ht, hs⟩
  · rintro ⟨v, hv | ht, hs⟩
    · rw [hs] at hv
      cases hv
    · exact ⟨v, ht, hs⟩

/-! ### Sessions -/

/-- What can be done with sets that have names. -/
inductive Op (ν : Type) where
  /-- Inserts a number. -/
  | insert (i : ν) (v : Nat)
  /-- Inserts numbers one after the other. -/
  | insertAll (i : ν) (vs : List Nat)
  /-- Removes a number. -/
  | remove (i : ν) (v : Nat)
  /-- Inserts the elements of the second set into the first, and tells whether that changes it. -/
  | union (i j : ν)
  /-- Makes the first set a copy of the second. -/
  | clone (i j : ν)
  /-- Asks whether a number is in a set. -/
  | contains (i : ν) (v : Nat)
  /-- Asks for the elements. -/
  | elements (i : ν)
  /-- Asks for the number of elements. -/
  | count (i : ν)

/-- What an operation answers. -/
inductive Answer where
  | none
  | truth (b : Bool)
  | number (n : Nat)
  | numbers (vs : List Nat)
  deriving DecidableEq, Repr

namespace Op

variable {ν : Type} [DecidableEq ν]

/-- An operation on bit sets: the answer, and the sets then. -/
def run (sets : ν → BitSet) : Op ν → Answer × (ν → BitSet)
  | insert i v => (.none, Function.update sets i ((sets i).insert v))
  | insertAll i vs => (.none, Function.update sets i ((sets i).insertAll vs))
  | remove i v => (.none, Function.update sets i ((sets i).remove v))
  | union i j => (.truth ((sets i).gains (sets j)),
      Function.update sets i ((sets i).union (sets j)))
  | clone i j => (.none, Function.update sets i (sets j))
  | contains i v => (.truth ((sets i).contains v), sets)
  | elements i => (.numbers (sets i).elements, sets)
  | count i => (.number (sets i).count, sets)

/-- The same operation on finite sets. -/
def model (sets : ν → Finset Nat) : Op ν → Answer × (ν → Finset Nat)
  | insert i v => (.none, Function.update sets i (Insert.insert v (sets i)))
  | insertAll i vs => (.none, Function.update sets i (sets i ∪ vs.toFinset))
  | remove i v => (.none, Function.update sets i ((sets i).erase v))
  | union i j => (.truth (decide (sets i ⊂ sets i ∪ sets j)),
      Function.update sets i (sets i ∪ sets j))
  | clone i j => (.none, Function.update sets i (sets j))
  | contains i v => (.truth (decide (v ∈ sets i)), sets)
  | elements i => (.numbers (sets i).sort, sets)
  | count i => (.number (sets i).card, sets)

/-- Does operations one after the other: their answers, and the sets in the end. -/
def session {σ : Type} (step : σ → Op ν → Answer × σ) : σ → List (Op ν) → List Answer × σ
  | sets, [] => ([], sets)
  | sets, op :: ops =>
    let rest := session step (step sets op).2 ops
    ((step sets op).1 :: rest.1, rest.2)

theorem members_update (sets : ν → BitSet) (i : ν) (s : BitSet) :
    (fun k => (Function.update sets i s k).members) =
      Function.update (fun k => (sets k).members) i s.members := by
  funext k
  exact Function.apply_update (fun _ => members) sets i s k

/-- **One operation on bit sets is that operation on their members.** -/
theorem run_models (sets : ν → BitSet) (op : Op ν) :
    op.model (fun i => (sets i).members) =
      ((op.run sets).1, fun i => ((op.run sets).2 i).members) := by
  cases op with
  | insert i v => simp only [model, run, members_update, members_insert]
  | insertAll i vs => simp only [model, run, members_update, members_insertAll]
  | remove i v => simp only [model, run, members_update, members_remove]
  | union i j =>
      have hgains : (sets i).gains (sets j) =
          decide ((sets i).members ⊂ (sets i).members ∪ (sets j).members) := by
        rw [Bool.eq_iff_iff, decide_eq_true_iff, gains_iff_ssubset]
      simp only [model, run, members_update, members_union, hgains]
  | clone i j => simp only [model, run, members_update]
  | contains i v => simp only [model, run, mem_members, Bool.decide_eq_true]
  | elements i => simp only [model, run, elements_eq_sort]
  | count i => simp only [model, run, count_eq_card]

/-- **A session on bit sets is that session on their members.** -/
theorem session_run_models (sets : ν → BitSet) (ops : List (Op ν)) :
    session model (fun i => (sets i).members) ops =
      ((session run sets ops).1, fun i => ((session run sets ops).2 i).members) := by
  induction ops generalizing sets with
  | nil => rfl
  | cons op ops ih => simp only [session, run_models, ih]

/-- **Bit sets behave as finite sets of numbers.**  Let any operations be done on any number of bit
sets, all of them empty in the beginning, and the same ones on finite sets.  The answers are the
same; in the end a bit set holds a number just when the finite set does, its elements are those of
the finite set in ascending order, and its count is their number.  A union then makes its first set
the union of the two, leaves all others as they are, and tells whether the first has grown.  Zero
words at the end of sets are never seen, whatever is done with the sets from there on. -/
theorem session_models (ops : List (Op ν)) :
    ∃ (answers : List Answer) (sets : ν → BitSet) (models : ν → Finset Nat),
      session run (fun _ => empty) ops = (answers, sets) ∧
      session model (fun _ => ∅) ops = (answers, models) ∧
      (∀ i v, (sets i).contains v = true ↔ v ∈ models i) ∧
      (∀ i, (sets i).elements.Pairwise (· < ·) ∧ ∀ v, v ∈ (sets i).elements ↔ v ∈ models i) ∧
      (∀ i, (sets i).count = (models i).card) ∧
      (∀ i j, ∃ grown sets', run sets (union i j) = (.truth grown, sets') ∧
        (∀ v, (sets' i).contains v = true ↔ v ∈ models i ∪ models j) ∧
        (∀ k ≠ i, sets' k = sets k) ∧ (grown = true ↔ models i ⊂ models i ∪ models j)) ∧
      ∀ (zeros : ν → Nat) (more : List (Op ν)),
        (session run (fun i => (sets i).padded (zeros i)) more).1 = (session run sets more).1 := by
  have hstart := session_run_models (fun _ : ν => empty) ops
  simp only [members_empty] at hstart
  refine ⟨_, (session run (fun _ => empty) ops).2, _, rfl, hstart, fun i v => mem_members.symm,
    fun i => ⟨pairwise_elements _, fun v => by rw [mem_elements, mem_members]⟩,
    fun i => count_eq_card _, fun i j => ?_, fun zeros more => ?_⟩
  · refine ⟨_, _, rfl, fun v => ?_, fun k hk => Function.update_of_ne hk _ _, gains_iff_ssubset⟩
    rw [Function.update_self, ← members_union, mem_members]
  · -- The members are the same, and decide all answers.
    have hpadded := session_run_models
      (fun i => ((session run (fun _ => empty) ops).2 i).padded (zeros i)) more
    have hplain := session_run_models (session run (fun _ => empty) ops).2 more
    simp only [members_padded] at hpadded
    exact (Prod.mk.inj (hpadded.symm.trans hplain)).1

end Op

end BitSet

end BytecodeVerifier
