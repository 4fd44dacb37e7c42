import BytecodeVerifier.ControlFlow.Build
import BytecodeVerifier.Proofs.BitSet
import BytecodeVerifier.Proofs.Tiles

/-!
# Flow — the graph of a method and the flow of its instructions

`Flow code p q` says that control may pass from the instruction at `p` to the one at `q`: by falling
through, or by a branch to a target.  The graph which `connect` builds represents this flow.  Its
blocks tile the code (`blockOf_eq_some_iff`, `exists_block`); within a block control passes from
each instruction to the next; and where control leaves the last instruction of a block it comes to
the first instruction of a successor (`flow_cases`).

The predecessors of the blocks are recorded edge by edge.  As no successor of a block is repeated,
each block comes to be among the predecessors of each of its successors, once and in order
(`getD_predecessorsOf`).

Conversely an edge of the graph is a step of the flow, provided that only branching instructions
have targets (`flow_of_mem_successors`): a target of any other instruction gives an edge along which
control never passes.
-/

namespace BytecodeVerifier

/-! ### Structure -/

/-- The structure of an instruction is sound, in code of `length` instructions. -/
structure Instruction.Structured (file : Register.File) (length : Nat) (i : Instruction) :
    Prop where
  arity : i.registers.length = i.opcode.operands.length
  register : ∀ o r, (o, r) ∈ i.opcode.operands.zip i.registers → r.toNat < file.size.toNat
  pair : ∀ o r, (o, r) ∈ i.opcode.operands.zip i.registers → o.constraint.isWide = true →
    r.toNat + 1 < file.size.toNat
  target : ∀ t ∈ i.targets, t.toNat < length

theorem Register.File.inRange_iff {file : Register.File} {r : Register} :
    file.inRange r = true ↔ r.toNat < file.size.toNat := by
  simp [Register.File.inRange, Register.toNat, UInt64.lt_iff_toNat_lt]

theorem Instruction.operandDefect?_eq_none_iff {file : Register.File} {o : Operand}
    {r : Register} : operandDefect? file o r = none ↔ r.toNat < file.size.toNat ∧
      (o.constraint.isWide = true → r.toNat + 1 < file.size.toNat) := by
  unfold operandDefect?
  by_cases hr : r.toNat < file.size.toNat
  · have hnext := Register.toNat_next hr file.size.toNat_lt_size
    by_cases hp : r.toNat + 1 < file.size.toNat
    · simp [Register.File.inRange_iff.mpr hr, hr, hp,
        Register.File.inRange_iff.mpr (show r.next.toNat < _ by rwa [hnext])]
    · have hout : file.inRange r.next = false := by
        rw [← Bool.not_eq_true, Register.File.inRange_iff, hnext]
        exact hp
      simp [Register.File.inRange_iff.mpr hr, hr, hp, hout]
  · have hout : file.inRange r = false := by
      rw [← Bool.not_eq_true, Register.File.inRange_iff]
      exact hr
    simp [hout, hr]

theorem Instruction.structuralDefect?_eq_none_iff {file : Register.File} {length : Nat}
    {i : Instruction} : i.structuralDefect? file length = none ↔ i.Structured file length := by
  have htargets : (i.targets.find? fun t => length ≤ t.toNat).map (Defect.targetRange · length) =
      none ↔ ∀ t ∈ i.targets, t.toNat < length := by
    simp
  unfold structuralDefect?
  simp only
  constructor
  · intro h
    split at h
    · cases h
    · next harity =>
        split at h
        · cases h
        · next hnone =>
            rw [List.findSome?_eq_none_iff] at hnone
            have hreg : ∀ o r, (o, r) ∈ i.opcode.operands.zip i.registers → _ := fun o r hm =>
              operandDefect?_eq_none_iff.mp (hnone (o, r) hm)
            exact ⟨not_not.mp harity, fun o r hm => (hreg o r hm).1,
              fun o r hm => (hreg o r hm).2, htargets.mp h⟩
  · intro h
    rw [if_neg (not_not.mpr h.arity)]
    split
    · next d hd =>
        obtain ⟨⟨o, r⟩, hm, hd⟩ := List.exists_of_findSome?_eq_some hd
        rw [operandDefect?_eq_none_iff.mpr ⟨h.register o r hm, h.pair o r hm⟩] at hd
        cases hd
    · exact htargets.mpr h.target

namespace ControlFlow

/-- **When a graph is built**: every instruction is structured. -/
theorem build_eq_ok_iff {file : Register.File} {code : Array Instruction} {g : Graph} :
    Graph.build file code = .ok g ↔
      (∀ (pc : Nat) i, code[pc]? = some i → i.Structured file code.size) ∧ g = connect code := by
  have hnone : structuralViolation? file code = none ↔
      ∀ (pc : Nat) i, code[pc]? = some i → i.Structured file code.size := by
    unfold structuralViolation?
    simp only [List.findSome?_eq_none_iff, Option.map_eq_none_iff,
      Instruction.structuralDefect?_eq_none_iff, Prod.forall, List.mem_zipIdx_iff_getElem?,
      Array.getElem?_toList]
    exact forall_comm
  rw [← hnone]
  unfold Graph.build
  cases structuralViolation? file code with
  | some v => simp
  | none => simp [eq_comm]

theorem structured_of_build {file : Register.File} {code : Array Instruction} {g : Graph}
    (h : Graph.build file code = .ok g) {pc : Nat} {i : Instruction} (hi : code[pc]? = some i) :
    i.Structured file code.size :=
  (build_eq_ok_iff.mp h).1 pc i hi

theorem eq_connect_of_build {file : Register.File} {code : Array Instruction} {g : Graph}
    (h : Graph.build file code = .ok g) : g = connect code :=
  (build_eq_ok_iff.mp h).2

/-! ### Flow -/

/-- Control may pass from one position to another. -/
inductive Flow (code : Array Instruction) (p : Nat) : Nat → Prop where
  /-- The instruction falls through to the next. -/
  | next {i : Instruction} : code[p]? = some i → i.falls = true → p + 1 < code.size →
      Flow code p (p + 1)
  /-- The instruction branches to a target. -/
  | jump {i : Instruction} {t : UInt64} : code[p]? = some i → i.opcode.branches = true →
      t ∈ i.targets → Flow code p t.toNat

theorem Flow.exists_instruction {code : Array Instruction} {p q : Nat} (h : Flow code p q) :
    ∃ i, code[p]? = some i := by
  cases h with
  | next hi _ _ => exact ⟨_, hi⟩
  | jump hi _ _ => exact ⟨_, hi⟩

/-- Control stays within code from which a graph is built. -/
theorem Flow.lt_size {file : Register.File} {code : Array Instruction} {g : Graph}
    (hg : Graph.build file code = .ok g) {p q : Nat} (h : Flow code p q) : q < code.size := by
  cases h with
  | next _ _ hq => exact hq
  | jump hi _ ht => exact (structured_of_build hg hi).target _ ht

theorem flow_iff {code : Array Instruction} {p q : Nat} :
    Flow code p q ↔ ∃ i ∈ code[p]?, (i.falls = true ∧ p + 1 < code.size ∧ q = p + 1) ∨
      (i.opcode.branches = true ∧ ∃ t ∈ i.targets, q = t.toNat) := by
  constructor
  · rintro (⟨hi, hf, hp⟩ | ⟨hi, hb, ht⟩)
    · exact ⟨_, hi, .inl ⟨hf, hp, rfl⟩⟩
    · exact ⟨_, hi, .inr ⟨hb, _, ht, rfl⟩⟩
  · rintro ⟨i, hi, ⟨hf, hp, rfl⟩ | ⟨hb, t, ht, rfl⟩⟩
    · exact .next hi hf hp
    · exact .jump hi hb ht

instance (code : Array Instruction) (p q : Nat) : Decidable (Flow code p q) :=
  decidable_of_iff _ flow_iff.symm

/-- Only instructions which branch have targets, as in code built by `Instruction.plain`,
`Instruction.withLiteral` and `Instruction.branch`. -/
def OnlyBranchesHaveTargets (code : Array Instruction) : Prop :=
  ∀ i ∈ code, i.targets ≠ [] → i.opcode.branches = true

instance (code : Array Instruction) : Decidable (OnlyBranchesHaveTargets code) :=
  inferInstanceAs (Decidable (∀ i ∈ code, i.targets ≠ [] → i.opcode.branches = true))

/-- An instruction which branches ends its block. -/
theorem isTerminal_of_branches {i : Instruction} (h : i.opcode.branches = true) :
    i.isTerminal = true := by
  unfold Opcode.branches at h
  unfold Instruction.isTerminal
  revert h
  cases i.opcode.family <;> decide

/-- An instruction which does not end its block falls through. -/
theorem falls_of_not_isTerminal {i : Instruction} (h : ¬ i.isTerminal = true) :
    i.falls = true := by
  unfold Instruction.isTerminal at h
  unfold Instruction.falls
  revert h
  cases i.opcode.family <;> decide

/-! ### Leaders -/

/-- The leaders are the first position, the targets of an instruction which ends a block, and the
position after it. -/
theorem contains_leaders_iff {code : Array Instruction} {x : Nat} :
    (leaders code).contains x = true ↔ x = 0 ∨ ∃ pc i, code[pc]? = some i ∧ i.isTerminal = true ∧
      ((∃ t ∈ i.targets, t.toNat = x) ∨ (x = pc + 1 ∧ pc + 1 < code.size)) := by
  unfold leaders
  rw [BitSet.contains_foldl_iff (P := fun a => a.1.isTerminal = true ∧
    ((∃ t ∈ a.1.targets, t.toNat = x) ∨ (x = a.2 + 1 ∧ a.2 + 1 < code.size))) ?step]
  case step =>
    rintro starts ⟨i, pc⟩
    by_cases ht : i.isTerminal = true
    · by_cases hlt : pc + 1 < code.size
      · simp [ht, hlt, BitSet.contains_insertAll, or_assoc]
      · simp [ht, hlt, BitSet.contains_insertAll]
    · simp [ht]
  simp only [BitSet.contains_insert, BitSet.contains_empty, Bool.false_or, beq_iff_eq,
    List.mem_zipIdx_iff_getElem?, Array.getElem?_toList]
  constructor
  · rintro (h | ⟨⟨i, pc⟩, hi, h⟩)
    · exact .inl h
    · exact .inr ⟨pc, i, hi, h⟩
  · rintro (h | ⟨pc, i, hi, h⟩)
    · exact .inl h
    · exact .inr ⟨(i, pc), hi, h⟩

/-! ### Tilings -/

theorem tiles_intervals {n a : Nat} {starts : List Nat} (h : (a :: starts).Pairwise (· < ·))
    (hn : ∀ x ∈ a :: starts, x < n) : Tiles n a (intervals n (a :: starts)) := by
  induction starts generalizing a with
  | nil => exact ⟨rfl, hn a List.mem_cons_self, rfl⟩
  | cons b starts ih =>
      obtain ⟨hab, h⟩ := List.pairwise_cons.mp h
      exact ⟨rfl, hab b List.mem_cons_self, ih h fun x hx => hn x (List.mem_cons_of_mem _ hx)⟩

/-- Labelling each position with the number of its part, from `k` on. -/
theorem getElem?_labels {n a : Nat} {parts : List (Nat × Nat)} (h : Tiles n a parts)
    (k j i : Nat) :
    ((parts.zipIdx k).flatMap fun ((start, stop), i) => List.replicate (stop - start) i)[j]? =
        some i ↔
      ∃ d lo hi, i = k + d ∧ parts[d]? = some (lo, hi) ∧ lo ≤ a + j ∧ a + j < hi := by
  induction parts generalizing a k j with
  | nil => simp
  | cons p parts ih =>
      obtain ⟨rfl, hlt, h⟩ := h
      rw [List.zipIdx_cons, List.flatMap_cons, List.getElem?_append]
      simp only [List.length_replicate, List.getElem?_replicate]
      split
      · -- The position is in the first part; the others begin after it.
        next hj =>
          constructor
          · intro e
            cases e
            exact ⟨0, p.1, p.2, rfl, rfl, by omega, by omega⟩
          · rintro ⟨d, lo, hi, rfl, hd, hlo, hhi⟩
            cases d with
            | zero => rfl
            | succ d =>
                have := (h.bounds (by simpa using hd)).1
                omega
      · next hj =>
          rw [ih h]
          have he : p.2 + (j - (p.2 - p.1)) = p.1 + j := by omega
          rw [he]
          constructor
          · rintro ⟨d, lo, hi, rfl, hd, hpc⟩
            exact ⟨d + 1, lo, hi, by omega, by simpa using hd, hpc⟩
          · rintro ⟨d, lo, hi, rfl, hd, hlo, hhi⟩
            cases d with
            | zero =>
                obtain rfl : p = (lo, hi) := by simpa using hd
                omega
            | succ d => exact ⟨d, lo, hi, by omega, by simpa using hd, hlo, hhi⟩

theorem numbering_eq_some_iff {n : Nat} {parts : List (Nat × Nat)} (h : Tiles n 0 parts)
    {pc b : Nat} :
    (numbering parts)[pc]? = some b ↔
      ∃ lo hi, parts[b]? = some (lo, hi) ∧ lo ≤ pc ∧ pc < hi := by
  unfold numbering
  rw [List.getElem?_toArray, getElem?_labels h 0 pc b]
  simp

/-- A part begins at a start. -/
theorem mem_starts_of_part {n : Nat} {starts : List Nat} {d lo hi : Nat}
    (hd : (intervals n starts)[d]? = some (lo, hi)) : lo ∈ starts := by
  induction starts generalizing d with
  | nil => simp [intervals] at hd
  | cons a starts ih =>
      cases starts with
      | nil =>
          cases d with
          | zero => simp_all [intervals]
          | succ d => simp [intervals] at hd
      | cons b starts =>
          cases d with
          | zero => simp_all [intervals]
          | succ d => exact List.mem_cons_of_mem _ (ih (by simpa [intervals] using hd))

/-- A part ends at a start, or at the end. -/
theorem stop_mem_starts_of_part {n : Nat} {starts : List Nat} {d lo hi : Nat}
    (hd : (intervals n starts)[d]? = some (lo, hi)) : hi ∈ starts ∨ hi = n := by
  induction starts generalizing d with
  | nil => simp [intervals] at hd
  | cons a starts ih =>
      cases starts with
      | nil =>
          cases d with
          | zero => simp_all [intervals]
          | succ d => simp [intervals] at hd
      | cons b starts =>
          cases d with
          | zero => simp_all [intervals]
          | succ d =>
              rcases ih (by simpa [intervals] using hd) with h | h
              · exact .inl (List.mem_cons_of_mem _ h)
              · exact .inr h

/-- No part has a start within it other than its own. -/
theorem eq_of_mem_starts {n : Nat} {starts : List Nat} (h : starts.Pairwise (· < ·))
    {d lo hi x : Nat} (hd : (intervals n starts)[d]? = some (lo, hi)) (hx : x ∈ starts)
    (hlo : lo ≤ x) (hhi : x < hi) : x = lo := by
  induction starts generalizing d with
  | nil => cases hx
  | cons a starts ih =>
      cases starts with
      | nil =>
          obtain rfl : x = a := by simpa using hx
          cases d with
          | zero =>
              simp only [intervals, List.getElem?_cons_zero, Option.some.injEq,
                Prod.mk.injEq] at hd
              exact hd.1
          | succ d => simp [intervals] at hd
      | cons b starts =>
          obtain ⟨hab, h'⟩ := List.pairwise_cons.mp h
          cases d with
          | zero =>
              -- The first part ends where the second begins, and all other starts come later.
              simp only [intervals, List.getElem?_cons_zero, Option.some.injEq,
                Prod.mk.injEq] at hd
              obtain ⟨rfl, rfl⟩ := hd
              rcases List.mem_cons.mp hx with rfl | hx
              · rfl
              · rcases List.mem_cons.mp hx with rfl | hx
                · omega
                · have := (List.pairwise_cons.mp h').1 x hx
                  omega
          | succ d =>
              simp only [intervals, List.getElem?_cons_succ] at hd
              rcases List.mem_cons.mp hx with rfl | hx
              · have := hab lo (mem_starts_of_part hd)
                omega
              · exact ih h' hd hx

/-! ### Blocks -/

/-- The intervals which become the blocks of some code. -/
def parts (code : Array Instruction) : List (Nat × Nat) :=
  intervals code.size (leaders code).elements

/-- The successors of each of these blocks. -/
def outgoing (code : Array Instruction) : List (List Nat) :=
  (parts code).map fun (_, stop) => exits code (numbering (parts code)) stop

theorem connect_eq {code : Array Instruction} (hne : 0 < code.size) : connect code =
    ⟨(((parts code).zip (outgoing code)).zipIdx.map fun (((start, stop), successors), i) =>
      ⟨i, start, stop, successors, (predecessorsOf (outgoing code)).getD i []⟩).toArray,
      numbering (parts code)⟩ := by
  have hempty : ¬ code.isEmpty = true := mt Array.isEmpty_iff_size_eq_zero.mp (Nat.ne_of_gt hne)
  exact if_neg hempty

/-- The block which has a number. -/
theorem block_of_getElem? {code : Array Instruction} (hne : 0 < code.size) {b : Nat}
    {block : Block} (h : (connect code).blocks[b]? = some block) :
    block.index = b ∧ (parts code)[b]? = some (block.start, block.stop) ∧
      block.successors = exits code (connect code).blockOf block.stop := by
  rw [connect_eq hne] at h ⊢
  simp only [List.getElem?_toArray, List.getElem?_map, List.getElem?_zipIdx,
    Option.map_eq_some_iff] at h
  obtain ⟨⟨⟨⟨lo, hi⟩, successors⟩, i⟩, ⟨⟨p, successors'⟩, hz, e⟩, rfl⟩ := h
  cases e
  rw [List.getElem?_zip_eq_some, outgoing, List.getElem?_map] at hz
  obtain ⟨hp, hs⟩ := hz
  rw [hp] at hs
  exact ⟨Nat.zero_add b, hp, (Option.some.inj hs).symm⟩

/-- Without any code there is one block, and it is empty. -/
theorem block_of_empty {code : Array Instruction} (hempty : code.size = 0) {b : Nat}
    {block : Block} (h : (connect code).blocks[b]? = some block) :
    b = 0 ∧ block = ⟨0, 0, 0, [], []⟩ := by
  unfold connect at h
  rw [if_pos (Array.isEmpty_iff_size_eq_zero.mpr hempty)] at h
  cases b with
  | zero => cases h; exact ⟨rfl, rfl⟩
  | succ b => simp at h

theorem exists_block_of_part {code : Array Instruction} (hne : 0 < code.size) {b lo hi : Nat}
    (h : (parts code)[b]? = some (lo, hi)) :
    ∃ block, (connect code).blocks[b]? = some block ∧ block.start = lo ∧ block.stop = hi := by
  rw [connect_eq hne]
  simp [List.getElem?_zipIdx, List.getElem?_zip_eq_some, outgoing, h]

theorem blockOf_connect {code : Array Instruction} (hne : 0 < code.size) :
    (connect code).blockOf = numbering (parts code) := by
  rw [connect_eq hne]

/-- What is left when repetitions are taken out does not repeat. -/
theorem nodup_eraseDups (l : List Nat) : l.eraseDups.Nodup := by
  induction hn : l.length using Nat.strongRecOn generalizing l with
  | ind n ih =>
      cases l with
      | nil => exact List.nodup_nil
      | cons a l =>
          rw [List.eraseDups_cons, List.nodup_cons]
          refine ⟨by simp, ih _ ?_ _ rfl⟩
          rw [← hn, List.length_cons]
          exact Nat.lt_succ_of_le (List.length_filter_le _ l)

theorem nodup_exits (code : Array Instruction) (blockOf : Array Nat) (stop : Nat) :
    (exits code blockOf stop).Nodup := by
  rw [exits]
  split
  · exact List.nodup_nil
  · exact nodup_eraseDups _

/-- Recording the successors of a block adds it to the predecessors of each, once. -/
theorem getElem?_record {successors : List Nat} (h : successors.Nodup) (preds : Array (List Nat))
    (i c : Nat) : (record preds i successors)[c]? =
      if c ∈ successors then preds[c]?.map (· ++ [i]) else preds[c]? := by
  induction successors generalizing preds with
  | nil => rw [if_neg List.not_mem_nil]; rfl
  | cons a successors ih =>
      obtain ⟨ha, hrest⟩ := List.nodup_cons.mp h
      have hstep : record preds i (a :: successors) =
          record (preds.modify a (· ++ [i])) i successors := rfl
      rw [hstep, ih hrest, Array.getElem?_modify]
      by_cases hac : a = c
      · subst hac
        rw [if_neg ha, if_pos rfl, if_pos List.mem_cons_self]
      · have hmem : c ∈ a :: successors ↔ c ∈ successors := by simp [Ne.symm hac]
        simp only [if_neg hac, hmem]

/-- The numbers of the blocks which have block `c` among their successors, in order. -/
def entering (edges : List (List Nat × Nat)) (c : Nat) : List Nat :=
  (edges.filter fun (successors, _) => successors.contains c).map (·.2)

theorem getElem?_foldl_record {edges : List (List Nat × Nat)} (h : ∀ e ∈ edges, e.1.Nodup)
    (preds : Array (List Nat)) (c : Nat) :
    (edges.foldl (fun preds (successors, i) => record preds i successors) preds)[c]? =
      preds[c]?.map (· ++ entering edges c) := by
  induction edges generalizing preds with
  | nil => simp [entering]
  | cons e edges ih =>
      obtain ⟨he, hrest⟩ := List.forall_mem_cons.mp h
      rw [List.foldl_cons, ih hrest, getElem?_record he]
      by_cases hc : c ∈ e.1
      · simp [entering, hc, Function.comp_def]
      · simp [entering, hc]

/-- **Edge by edge the blocks are recorded which have a block among their successors.** -/
theorem getD_predecessorsOf {outgoing : List (List Nat)} (h : ∀ ss ∈ outgoing, ss.Nodup) {c : Nat}
    (hc : c < outgoing.length) :
    (predecessorsOf outgoing).getD c [] = entering outgoing.zipIdx c := by
  have hedges : ∀ e ∈ outgoing.zipIdx, e.1.Nodup := fun e he =>
    h e.1 (List.mem_of_getElem? (List.mem_zipIdx_iff_getElem?.mp he))
  rw [Array.getD_eq_getD_getElem?, predecessorsOf, getElem?_foldl_record hedges,
    Array.getElem?_replicate, if_pos hc]
  rfl

theorem predecessors_connect {code : Array Instruction} (hne : 0 < code.size) {c : Nat}
    {target : Block} (h : (connect code).blocks[c]? = some target) :
    target.predecessors = entering (outgoing code).zipIdx c := by
  have hpart := (block_of_getElem? hne h).2.1
  rw [connect_eq hne] at h
  simp only [List.getElem?_toArray, List.getElem?_map, List.getElem?_zipIdx,
    Option.map_eq_some_iff] at h
  obtain ⟨⟨_, _⟩, ⟨_, -, e⟩, rfl⟩ := h
  cases e
  rw [Nat.zero_add]
  refine getD_predecessorsOf ?_ ?_
  · rintro ss hss
    obtain ⟨p, -, rfl⟩ := List.mem_map.mp hss
    exact nodup_exits _ _ _
  · rw [outgoing, List.length_map]
    exact (List.getElem?_eq_some_iff.mp hpart).1

/-- The predecessors of a block are the blocks which have it among their successors. -/
theorem mem_predecessors_iff {code : Array Instruction} {b c : Nat} {target : Block}
    (h : (connect code).blocks[c]? = some target) : b ∈ target.predecessors ↔
      ∃ block, (connect code).blocks[b]? = some block ∧ c ∈ block.successors := by
  by_cases hne : 0 < code.size
  · have hparts : b ∈ target.predecessors ↔ ∃ lo hi, (parts code)[b]? = some (lo, hi) ∧
        c ∈ exits code (numbering (parts code)) hi := by
      rw [predecessors_connect hne h]
      simp [entering, outgoing, List.mem_zipIdx_iff_getElem?]
    rw [hparts]
    constructor
    · rintro ⟨lo, hi, hp, hc⟩
      obtain ⟨block, hb, rfl, rfl⟩ := exists_block_of_part hne hp
      refine ⟨block, hb, ?_⟩
      rwa [(block_of_getElem? hne hb).2.2, blockOf_connect hne]
    · rintro ⟨block, hb, hc⟩
      obtain ⟨-, hp, hsucc⟩ := block_of_getElem? hne hb
      rw [hsucc, blockOf_connect hne] at hc
      exact ⟨_, _, hp, hc⟩
  · obtain ⟨rfl, rfl⟩ := block_of_empty (by omega) h
    constructor
    · intro hb
      cases hb
    · rintro ⟨block, hb, hc⟩
      obtain ⟨-, rfl⟩ := block_of_empty (by omega) hb
      cases hc

section Built

variable {file : Register.File} {code : Array Instruction} {g : Graph}
  (hg : Graph.build file code = .ok g)
include hg

theorem leader_lt (hne : 0 < code.size) {x : Nat} (hx : (leaders code).contains x = true) :
    x < code.size := by
  rcases contains_leaders_iff.mp hx with rfl | ⟨pc, i, hi, -, ⟨t, ht, rfl⟩ | ⟨rfl, hlt⟩⟩
  · exact hne
  · exact (structured_of_build hg hi).target t ht
  · exact hlt

/-- The blocks tile the code. -/
theorem tiles_parts (hne : 0 < code.size) : Tiles code.size 0 (parts code) := by
  have hzero : 0 ∈ (leaders code).elements :=
    BitSet.mem_elements.mpr (contains_leaders_iff.mpr (.inl rfl))
  have hasc := BitSet.pairwise_elements (leaders code)
  have hlt : ∀ x ∈ (leaders code).elements, x < code.size := fun x hx =>
    leader_lt hg hne (BitSet.mem_elements.mp hx)
  unfold parts
  cases he : (leaders code).elements with
  | nil =>
      rw [he] at hzero
      cases hzero
  | cons a starts =>
      rw [he] at hzero hasc hlt
      obtain rfl : a = 0 := by
        rcases List.mem_cons.mp hzero with h | h
        · exact h.symm
        · exact absurd ((List.pairwise_cons.mp hasc).1 0 h) (Nat.not_lt_zero a)
      exact tiles_intervals hasc hlt

/-- An instruction is numbered with the block that holds it. -/
theorem blockOf_eq_some_iff (hne : 0 < code.size) {pc b : Nat} : g.blockOf[pc]? = some b ↔
    ∃ block, g.blocks[b]? = some block ∧ block.start ≤ pc ∧ pc < block.stop := by
  obtain rfl := eq_connect_of_build hg
  rw [blockOf_connect hne, numbering_eq_some_iff (tiles_parts hg hne)]
  constructor
  · rintro ⟨lo, hi, hp, h⟩
    obtain ⟨block, hb, rfl, rfl⟩ := exists_block_of_part hne hp
    exact ⟨block, hb, h⟩
  · rintro ⟨block, hb, h⟩
    exact ⟨_, _, (block_of_getElem? hne hb).2.1, h⟩

/-- Every instruction is in a block. -/
theorem exists_block {pc : Nat} (hpc : pc < code.size) :
    ∃ (b : Nat) (block : Block), g.blocks[b]? = some block ∧ block.start ≤ pc ∧
      pc < block.stop := by
  have hne : 0 < code.size := by omega
  obtain rfl := eq_connect_of_build hg
  obtain ⟨d, lo, hi, hp, h⟩ := (tiles_parts hg hne).exists_part (Nat.zero_le pc) hpc
  obtain ⟨block, hb, rfl, rfl⟩ := exists_block_of_part hne hp
  exact ⟨d, block, hb, h⟩

theorem block_bounds (hne : 0 < code.size) {b : Nat} {block : Block}
    (hb : g.blocks[b]? = some block) : block.start < block.stop ∧ block.stop ≤ code.size := by
  obtain rfl := eq_connect_of_build hg
  exact ((tiles_parts hg hne).bounds (block_of_getElem? hne hb).2.1).2

/-- The positions of a block are positions of instructions. -/
theorem stop_le {b : Nat} {block : Block} (hb : g.blocks[b]? = some block) :
    block.stop ≤ code.size := by
  by_cases hne : 0 < code.size
  · exact (block_bounds hg hne hb).2
  · obtain rfl := eq_connect_of_build hg
    obtain ⟨-, rfl⟩ := block_of_empty (by omega) hb
    exact Nat.zero_le _

theorem index_eq {b : Nat} {block : Block} (hb : g.blocks[b]? = some block) : block.index = b := by
  obtain rfl := eq_connect_of_build hg
  by_cases hne : 0 < code.size
  · exact (block_of_getElem? hne hb).1
  · obtain ⟨rfl, rfl⟩ := block_of_empty (by omega) hb
    rfl

/-- The first block starts with the first instruction. -/
theorem start_entry {block : Block} (hb : g.blocks[0]? = some block) : block.start = 0 := by
  obtain rfl := eq_connect_of_build hg
  by_cases hne : 0 < code.size
  · have htiles := tiles_parts hg hne
    have hpart := (block_of_getElem? hne hb).2.1
    cases hp : parts code with
    | nil =>
        rw [hp] at hpart
        cases hpart
    | cons p ps =>
        rw [hp] at htiles hpart
        obtain rfl : p = (block.start, block.stop) := by simpa using hpart
        exact htiles.1
  · obtain ⟨-, rfl⟩ := block_of_empty (by omega) hb
    rfl

/-- An instruction is in one block only. -/
theorem block_unique {pc b c : Nat} {block block' : Block} (hb : g.blocks[b]? = some block)
    (hlo : block.start ≤ pc) (hhi : pc < block.stop) (hc : g.blocks[c]? = some block')
    (hlo' : block'.start ≤ pc) (hhi' : pc < block'.stop) : b = c := by
  have hsize := stop_le hg hb
  have hne : 0 < code.size := by omega
  have h := (blockOf_eq_some_iff hg hne).mpr ⟨block, hb, hlo, hhi⟩
  rw [(blockOf_eq_some_iff hg hne).mpr ⟨block', hc, hlo', hhi'⟩] at h
  exact (Option.some.inj h).symm

/-- Blocks stand in order: one ends before a later one starts. -/
theorem stop_le_start {b c : Nat} {block block' : Block} (hb : g.blocks[b]? = some block)
    (hc : g.blocks[c]? = some block') (hlt : b < c) : block.stop ≤ block'.start := by
  obtain rfl := eq_connect_of_build hg
  by_cases hne : 0 < code.size
  · exact (tiles_parts hg hne).le_of_lt (block_of_getElem? hne hb).2.1
      (block_of_getElem? hne hc).2.1 hlt
  · obtain ⟨rfl, -⟩ := block_of_empty (by omega) hc
    exact absurd hlt (Nat.not_lt_zero b)

/-- A block that starts before another has a lower number. -/
theorem lt_of_start_lt {b c : Nat} {block block' : Block} (hb : g.blocks[b]? = some block)
    (hc : g.blocks[c]? = some block') (hlt : block.start < block'.start) : b < c := by
  by_contra hge
  rcases Nat.lt_or_eq_of_le (Nat.not_lt.mp hge) with h | rfl
  · have hstop := stop_le_start hg hc hb h
    have hne : 0 < code.size := by
      by_contra hempty
      obtain rfl := eq_connect_of_build hg
      obtain ⟨rfl, -⟩ := block_of_empty (by omega) hb
      exact Nat.not_lt_zero c h
    have := (block_bounds hg hne hc).1
    omega
  · obtain rfl : block = block' := Option.some.inj (hb.symm.trans hc)
    exact Nat.lt_irrefl _ hlt

/-- Of the blocks in order, those with a lower number come before one. -/
theorem mem_of_lt_index {c : Nat} {block block' : Block} {before after : List Block}
    (hblocks : g.blocks.toList = before ++ block :: after) (hc : g.blocks[c]? = some block')
    (hlt : c < block.index) : block' ∈ before := by
  have hget : g.blocks[before.length]? = some block := by
    rw [← Array.getElem?_toList, hblocks]
    simp
  rw [index_eq hg hget] at hlt
  rw [← Array.getElem?_toList, hblocks, List.getElem?_append_left hlt] at hc
  exact List.mem_of_getElem? hc

/-- A leader within a block is where it starts. -/
theorem start_eq_of_leader {b x : Nat} {block : Block} (hb : g.blocks[b]? = some block)
    (hx : (leaders code).contains x = true) (hlo : block.start ≤ x) (hhi : x < block.stop) :
    block.start = x := by
  have hne : 0 < code.size := by
    have := stop_le hg hb
    omega
  obtain rfl := eq_connect_of_build hg
  exact (eq_of_mem_starts (BitSet.pairwise_elements _) (block_of_getElem? hne hb).2.1
    (BitSet.mem_elements.mpr hx) hlo hhi).symm

/-- Where a block ends before the end of the code, a block starts. -/
theorem stop_leader {b : Nat} {block : Block} (hb : g.blocks[b]? = some block)
    (hlt : block.stop < code.size) : (leaders code).contains block.stop = true := by
  have hne : 0 < code.size := by omega
  obtain rfl := eq_connect_of_build hg
  rcases stop_mem_starts_of_part (block_of_getElem? hne hb).2.1 with h | h
  · exact BitSet.mem_elements.mp h
  · omega

/-- Only the last instruction of a block may end it. -/
theorem not_isTerminal_of_inner {b pc : Nat} {block : Block} {i : Instruction}
    (hb : g.blocks[b]? = some block) (hlo : block.start ≤ pc) (hhi : pc + 1 < block.stop)
    (hi : code[pc]? = some i) : ¬ i.isTerminal = true := by
  intro ht
  have hsize := stop_le hg hb
  have hlead : (leaders code).contains (pc + 1) = true :=
    contains_leaders_iff.mpr (.inr ⟨pc, i, hi, ht, .inr ⟨rfl, by omega⟩⟩)
  have := start_eq_of_leader hg hb hlead (by omega) hhi
  omega

/-- The successors of a block: the one that follows it, if its last instruction falls through, and
those which hold a target of that instruction. -/
theorem mem_successors_iff (hne : 0 < code.size) {b c : Nat} {block : Block} {last : Instruction}
    (hb : g.blocks[b]? = some block) (hlast : code[block.stop - 1]? = some last) :
    c ∈ block.successors ↔
      (last.falls = true ∧ block.stop < code.size ∧ g.blockOf[block.stop]? = some c) ∨
      ∃ t ∈ last.targets, g.blockOf[t.toNat]? = some c := by
  obtain rfl := eq_connect_of_build hg
  rw [(block_of_getElem? hne hb).2.2, exits, hlast]
  simp only [List.mem_eraseDups, List.mem_append, List.mem_filterMap]
  refine or_congr ?_ Iff.rfl
  by_cases hf : last.falls = true ∧ block.stop < code.size
  · simp [hf, Option.mem_toList]
  · have : ¬ (last.falls && decide (block.stop < code.size)) = true := by simpa using hf
    rw [if_neg this]
    constructor
    · intro h; cases h
    · rintro ⟨h₁, h₂, -⟩; exact absurd ⟨h₁, h₂⟩ hf

/-- **The flow follows the graph.**  Control passes from an instruction to the next one of its
block, or from the last one of its block to the first one of a successor. -/
theorem flow_cases {p q b : Nat} {block : Block} (hflow : Flow code p q)
    (hb : g.blocks[b]? = some block) (hlo : block.start ≤ p) (hhi : p < block.stop) :
    (q = p + 1 ∧ q < block.stop) ∨
    (p + 1 = block.stop ∧ ∃ c ∈ block.successors, ∃ target, g.blocks[c]? = some target ∧
      target.start = q ∧ q < target.stop) := by
  have hsize := stop_le hg hb
  have hne : 0 < code.size := by omega
  -- A leader starts the block that holds it.
  have start {x : Nat} (hx : (leaders code).contains x = true) :
      ∃ c target, g.blockOf[x]? = some c ∧ g.blocks[c]? = some target ∧ target.start = x ∧
        x < target.stop := by
    obtain ⟨c, target, hc, h₁, h₂⟩ := exists_block hg (leader_lt hg hne hx)
    exact ⟨c, target, (blockOf_eq_some_iff hg hne).mpr ⟨target, hc, h₁, h₂⟩, hc,
      start_eq_of_leader hg hc hx h₁ h₂, h₂⟩
  have last {i : Instruction} (hi : code[p]? = some i) (hstop : p + 1 = block.stop) :
      code[block.stop - 1]? = some i := by
    rwa [← hstop, Nat.add_sub_cancel]
  cases hflow with
  | next hi hf hlt =>
      by_cases hin : p + 1 < block.stop
      · exact .inl ⟨rfl, hin⟩
      · have hstop : p + 1 = block.stop := by omega
        obtain ⟨c, target, hc, ht, hs, hlt'⟩ := start (stop_leader hg hb (by omega))
        refine .inr ⟨hstop, c, ?_, target, ht, by omega, by omega⟩
        exact (mem_successors_iff hg hne hb (last hi hstop)).mpr (.inl ⟨hf, by omega, hc⟩)
  | @jump i t hi hbr htar =>
      -- A branch is the last instruction of its block.
      have hterm := isTerminal_of_branches hbr
      have hstop : p + 1 = block.stop := by
        by_contra hne'
        exact not_isTerminal_of_inner hg hb hlo (by omega) hi hterm
      obtain ⟨c, target, hc, ht, hs, hlt'⟩ :=
        start (contains_leaders_iff.mpr (.inr ⟨p, i, hi, hterm, .inl ⟨t, htar, rfl⟩⟩))
      refine .inr ⟨hstop, c, ?_, target, ht, hs, hlt'⟩
      exact (mem_successors_iff hg hne hb (last hi hstop)).mpr (.inr ⟨t, htar, hc⟩)

/-- Within a block control passes to the next instruction. -/
theorem flow_within {b pc : Nat} {block : Block} (hb : g.blocks[b]? = some block)
    (hlo : block.start ≤ pc) (hhi : pc + 1 < block.stop) : Flow code pc (pc + 1) := by
  have hsize := stop_le hg hb
  have hi : code[pc]? = some code[pc] := Array.getElem?_eq_getElem (by omega)
  exact .next hi (falls_of_not_isTerminal (not_isTerminal_of_inner hg hb hlo hhi hi)) (by omega)

/-- **An edge of the graph is a step of the flow**, where only branches have targets. -/
theorem flow_of_mem_successors (hbr : OnlyBranchesHaveTargets code)
    (hne : 0 < code.size) {b c : Nat} {block target : Block} (hb : g.blocks[b]? = some block)
    (hc : c ∈ block.successors) (ht : g.blocks[c]? = some target) :
    Flow code (block.stop - 1) target.start := by
  obtain ⟨hlt, hsize⟩ := block_bounds hg hne hb
  have hlast : code[block.stop - 1]? = some code[block.stop - 1] :=
    Array.getElem?_eq_getElem (by omega)
  rcases (mem_successors_iff hg hne hb hlast).mp hc with ⟨hf, hstop, h⟩ | ⟨t, htar, h⟩
  · obtain ⟨target', ht', h₁, h₂⟩ := (blockOf_eq_some_iff hg hne).mp h
    obtain rfl : target = target' := Option.some.inj (ht.symm.trans ht')
    have := start_eq_of_leader hg ht (stop_leader hg hb hstop) h₁ h₂
    have e : target.start = block.stop - 1 + 1 := by omega
    rw [e]
    exact .next hlast hf (by omega)
  · obtain ⟨target', ht', h₁, h₂⟩ := (blockOf_eq_some_iff hg hne).mp h
    obtain rfl : target = target' := Option.some.inj (ht.symm.trans ht')
    have hbranch := hbr _ (Array.mem_of_getElem? hlast) (List.ne_nil_of_mem htar)
    have hlead : (leaders code).contains t.toNat = true := contains_leaders_iff.mpr
      (.inr ⟨_, _, hlast, isTerminal_of_branches hbranch, .inl ⟨t, htar, rfl⟩⟩)
    rw [start_eq_of_leader hg ht hlead h₁ h₂]
    exact .jump hlast hbranch htar

/-- A successor is a block. -/
theorem successor_lt {b c : Nat} {block : Block} (hb : g.blocks[b]? = some block)
    (hc : c ∈ block.successors) : c < g.size := by
  by_cases hne : 0 < code.size
  · obtain ⟨hlt, hsize⟩ := block_bounds hg hne hb
    have hlast : code[block.stop - 1]? = some code[block.stop - 1] :=
      Array.getElem?_eq_getElem (by omega)
    have hof : ∃ pc : Nat, g.blockOf[pc]? = some c := by
      rcases (mem_successors_iff hg hne hb hlast).mp hc with ⟨-, -, h⟩ | ⟨t, -, h⟩
      · exact ⟨_, h⟩
      · exact ⟨_, h⟩
    obtain ⟨pc, hpc⟩ := hof
    obtain ⟨target, ht, -⟩ := (blockOf_eq_some_iff hg hne).mp hpc
    exact (Array.getElem?_eq_some_iff.mp ht).1
  · obtain rfl := eq_connect_of_build hg
    obtain ⟨-, rfl⟩ := block_of_empty (by omega) hb
    cases hc

end Built

end ControlFlow

end BytecodeVerifier
