import BytecodeVerifier.Opcode.Table
import BytecodeVerifier.Proofs.Passage

/-!
# Representation — the graph has the flow of the code, and nothing else

Leaders, intervals, numbering, successors and predecessors of a graph are found one after the other.
**Together they represent the flow of the code exactly** (`represents_of_build`): the blocks tile
the code, each position is numbered with the block that holds it, control flows through a block from
one instruction to the next, and from the last one of a block it flows to just those positions at
which the successors of the block start.

An instruction which has targets and does not branch would make edges that control never takes.  No
instruction is constructed so (`Instruction.branches_of_constructed`).
-/

namespace BytecodeVerifier

/-! ### Instructions as they are constructed -/

namespace Instruction

/-- An instruction which one of the constructors gives. -/
inductive Constructed (i : Instruction) : Prop where
  | plain {op : Opcode} {registers : List Register} :
      plain op registers = .ok i → Constructed i
  | literal {op : Opcode} {literal : Int64} {registers : List Register} :
      withLiteral op literal registers = .ok i → Constructed i
  | branch {op : Opcode} {targets : List UInt64} {registers : List Register} :
      branch op targets registers = .ok i → Constructed i

theorem eq_of_checked {i j : Instruction} (h : i.checked = .ok j) : i = j := by
  unfold checked at h
  split at h
  · exact Except.ok.inj h
  · cases h

/-- A constructed instruction which has targets branches. -/
theorem branches_of_constructed {i : Instruction} (h : i.Constructed) (ht : i.targets ≠ []) :
    i.opcode.branches = true := by
  cases h with
  | plain h =>
      unfold Instruction.plain at h
      split at h
      · cases h
      · obtain rfl := eq_of_checked h
        exact absurd rfl ht
  | literal h =>
      unfold withLiteral at h
      split at h
      · obtain rfl := eq_of_checked h
        exact absurd rfl ht
      · cases h
  | @branch op _ _ h =>
      unfold Instruction.branch at h
      by_cases hb : op.branches = true
      · rw [hb, Bool.not_true, if_neg Bool.false_ne_true] at h
        split at h
        · cases h
        · obtain rfl := eq_of_checked h
          exact hb
      · rw [Bool.eq_false_iff.mpr hb, Bool.not_false, if_pos rfl] at h
        cases h

end Instruction

namespace ControlFlow

theorem onlyBranchesHaveTargets_of_constructed {code : Array Instruction}
    (h : ∀ i ∈ code, i.Constructed) : OnlyBranchesHaveTargets code :=
  fun i hi => Instruction.branches_of_constructed (h i hi)

/-! ### The parts of a graph -/

/-- The successors of a block do not repeat. -/
theorem nodup_successors {code : Array Instruction} {b : Nat} {block : Block}
    (h : (connect code).blocks[b]? = some block) : block.successors.Nodup := by
  by_cases hne : 0 < code.size
  · rw [(block_of_getElem? hne h).2.2]
    exact nodup_exits _ _ _
  · obtain ⟨-, rfl⟩ := block_of_empty (by omega) h
    exact List.nodup_nil

/-- The predecessors of a block ascend: they are numbers of blocks, picked out in order. -/
theorem pairwise_predecessors {code : Array Instruction} {c : Nat} {target : Block}
    (h : (connect code).blocks[c]? = some target) : target.predecessors.Pairwise (· < ·) := by
  by_cases hne : 0 < code.size
  · rw [predecessors_connect hne h]
    refine List.Pairwise.sublist (List.filter_sublist.map _) ?_
    rw [List.zipIdx_map_snd]
    exact List.pairwise_lt_range'
  · obtain ⟨-, rfl⟩ := block_of_empty (by omega) h
    exact List.Pairwise.nil

/-- The bounds of the blocks are the parts of the code. -/
theorem map_bounds_blocks {code : Array Instruction} (hne : 0 < code.size) :
    (connect code).blocks.toList.map (fun block => (block.start, block.stop)) = parts code := by
  refine List.ext_getElem? fun b => ?_
  rw [List.getElem?_map, Array.getElem?_toList]
  cases hb : (connect code).blocks[b]? with
  | some block => exact (block_of_getElem? hne hb).2.1.symm
  | none =>
      cases hp : (parts code)[b]? with
      | none => rfl
      | some part =>
          obtain ⟨block, hb', -⟩ := exists_block_of_part hne hp
          rw [hb] at hb'
          cases hb'

section Built

variable {file : Register.File} {code : Array Instruction} {g : Graph}
  (hg : Graph.build file code = .ok g) (hne : 0 < code.size)
include hg hne

theorem blockHolding_eq_ok_iff {pc b : Nat} : g.blockHolding pc = .ok b ↔
    ∃ block, g.blocks[b]? = some block ∧ block.start ≤ pc ∧ pc < block.stop := by
  rw [← blockOf_eq_some_iff hg hne, Graph.blockHolding]
  cases g.blockOf[pc]? <;> simp

omit hne in
/-- Before the last instruction of a block control flows to the next one, and nowhere else. -/
theorem flow_inner_iff {b pc q : Nat} {block : Block} (hb : g.blocks[b]? = some block)
    (hlo : block.start ≤ pc) (hhi : pc + 1 < block.stop) : Flow code pc q ↔ q = pc + 1 := by
  constructor
  · intro hflow
    rcases flow_cases hg hflow hb hlo (Nat.lt_of_succ_lt hhi) with ⟨hq, -⟩ | ⟨hstop, -⟩
    · exact hq
    · exact absurd hstop (Nat.ne_of_lt hhi)
  · rintro rfl
    exact flow_within hg hb hlo hhi

/-- From the last instruction of a block control flows to where a successor starts. -/
theorem flow_last {b q : Nat} {block : Block} (hb : g.blocks[b]? = some block)
    (hflow : Flow code (block.stop - 1) q) : ∃ c ∈ block.successors, ∃ target,
      g.blocks[c]? = some target ∧ target.start = q ∧ q < target.stop := by
  have hlt := (block_bounds hg hne hb).1
  have hstop : block.stop - 1 + 1 = block.stop := Nat.sub_add_cancel (Nat.zero_lt_of_lt hlt)
  have hhi : block.stop - 1 < block.stop := Nat.lt_of_succ_le (Nat.le_of_eq hstop)
  rcases flow_cases hg hflow hb (Nat.le_pred_of_lt hlt) hhi with ⟨hq, hin⟩ | ⟨-, h⟩
  · rw [hq, hstop] at hin
    exact absurd hin (Nat.lt_irrefl _)
  · exact h

/-- **Successors are where control flows**, where only branches have targets. -/
theorem mem_successors_iff_flow (hbr : OnlyBranchesHaveTargets code) {b c : Nat} {block : Block}
    (hb : g.blocks[b]? = some block) : c ∈ block.successors ↔
      ∃ target, g.blocks[c]? = some target ∧ Flow code (block.stop - 1) target.start := by
  constructor
  · intro hc
    obtain ⟨target, ht⟩ : ∃ target, g.blocks[c]? = some target :=
      ⟨_, Array.getElem?_eq_getElem (successor_lt hg hb hc)⟩
    exact ⟨target, ht, flow_of_mem_successors hg hbr hne hb hc ht⟩
  · rintro ⟨target, ht, hflow⟩
    obtain ⟨c', hc', target', ht', hstart, hlt'⟩ := flow_last hg hne hb hflow
    -- Both blocks hold the position to which control flows.
    obtain rfl := block_unique hg ht (Nat.le_refl _) (block_bounds hg hne ht).1 ht'
      (Nat.le_of_eq hstart) hlt'
    exact hc'

end Built

/-! ### Representation -/

/-- A graph represents the flow of some code. -/
structure Graph.Represents (g : Graph) (code : Array Instruction) : Prop where
  /-- The blocks are intervals, none of them empty, which follow one another through the code. -/
  tiles : Tiles code.size 0 (g.blocks.toList.map fun block => (block.start, block.stop))
  /-- A block has its place for a number. -/
  index : ∀ (b : Nat) (block : Block), g.blocks[b]? = some block → block.index = b
  /-- The block given for a position is the one which holds it. -/
  holding : ∀ pc < code.size, ∃ (b : Nat) (block : Block), g.blockHolding pc = .ok b ∧
    g.blocks[b]? = some block ∧ block.start ≤ pc ∧ pc < block.stop ∧
    ∀ (c : Nat) (other : Block), g.blocks[c]? = some other → other.start ≤ pc →
      pc < other.stop → c = b
  /-- Within a block control flows to the next instruction only. -/
  inner : ∀ (b : Nat) (block : Block), g.blocks[b]? = some block →
    ∀ pc q, block.start ≤ pc → pc + 1 < block.stop → (Flow code pc q ↔ q = pc + 1)
  /-- From the last instruction of a block control flows to the start of a block. -/
  last : ∀ (b : Nat) (block : Block), g.blocks[b]? = some block →
    ∀ q, Flow code (block.stop - 1) q →
      ∃ (c : Nat) (target : Block), g.blocks[c]? = some target ∧ target.start = q
  /-- The successors are the blocks at whose start control so arrives. -/
  successors : ∀ (b : Nat) (block : Block), g.blocks[b]? = some block →
    ∀ c, c ∈ block.successors ↔
      ∃ target, g.blocks[c]? = some target ∧ Flow code (block.stop - 1) target.start
  nodup : ∀ (b : Nat) (block : Block), g.blocks[b]? = some block → block.successors.Nodup
  /-- The predecessors are the blocks of which this is a successor. -/
  predecessors : ∀ (c : Nat) (target : Block), g.blocks[c]? = some target →
    ∀ b, b ∈ target.predecessors ↔ ∃ block, g.blocks[b]? = some block ∧ c ∈ block.successors
  ascending : ∀ (c : Nat) (target : Block), g.blocks[c]? = some target →
    target.predecessors.Pairwise (· < ·)

/-- **The graph represents the flow of the code**, if there is any code, and only branches have
targets. -/
theorem represents_of_build {file : Register.File} {code : Array Instruction} {g : Graph}
    (hg : Graph.build file code = .ok g) (hne : 0 < code.size)
    (hbr : OnlyBranchesHaveTargets code) : g.Represents code := by
  have hconnect := eq_connect_of_build hg
  refine ⟨?_, fun b block hb => index_eq hg hb, fun pc hpc => ?_,
    fun b block hb pc q hlo hhi => flow_inner_iff hg hb hlo hhi, fun b block hb q hflow => ?_,
    fun b block hb c => mem_successors_iff_flow hg hne hbr hb, fun b block hb => ?_,
    fun c target ht b => ?_, fun c target ht => ?_⟩
  · rw [hconnect, map_bounds_blocks hne]
    exact tiles_parts hg hne
  · obtain ⟨b, block, hb, hlo, hhi⟩ := exists_block hg hpc
    exact ⟨b, block, (blockHolding_eq_ok_iff hg hne).mpr ⟨block, hb, hlo, hhi⟩, hb, hlo, hhi,
      fun c other hc hlo' hhi' => block_unique hg hc hlo' hhi' hb hlo hhi⟩
  · obtain ⟨c, -, target, ht, hstart, -⟩ := flow_last hg hne hb hflow
    exact ⟨c, target, ht, hstart⟩
  · exact nodup_successors (hconnect ▸ hb)
  · subst hconnect
    exact mem_predecessors_iff ht
  · exact pairwise_predecessors (hconnect ▸ ht)

/-- A switch with a target listed twice, itself and the entry among them, an instruction that jumps
to itself, and a branch at the end. -/
def junction : Array Instruction := #[
  ⟨⟨"const/4", .const, [Opcode.writes .int]⟩, [⟨0⟩], [], 0⟩,
  ⟨⟨"packed-switch", .switch, [Opcode.reads .int]⟩, [⟨0⟩], [3, 3, 1, 0], 0⟩,
  ⟨⟨"goto", .goto, []⟩, [], [2], 0⟩,
  ⟨⟨"if-eqz", .ifZero, [Opcode.reads .int]⟩, [⟨0⟩], [0], 0⟩]

theorem constructed_junction : ∀ i ∈ junction, i.Constructed := by
  simp only [junction, List.mem_toArray, List.forall_mem_cons]
  exact ⟨@Instruction.Constructed.literal _ ⟨"const/4", .const, [Opcode.writes .int]⟩ 0 [⟨0⟩] rfl,
    @Instruction.Constructed.branch _ ⟨"packed-switch", .switch, [Opcode.reads .int]⟩ [3, 3, 1, 0]
      [⟨0⟩] rfl,
    @Instruction.Constructed.branch _ ⟨"goto", .goto, []⟩ [2] [] rfl,
    @Instruction.Constructed.branch _ ⟨"if-eqz", .ifZero, [Opcode.reads .int]⟩ [0] [⟨0⟩] rfl,
    fun i hi => absurd hi List.not_mem_nil⟩

theorem represents_junction : ∃ g, Graph.build ⟨1, [], by decide⟩ junction = .ok g ∧
    0 < junction.size ∧ OnlyBranchesHaveTargets junction ∧ g.Represents junction := by
  have built : Graph.build ⟨1, [], by decide⟩ junction = .ok (connect junction) := by decide +kernel
  have branches := onlyBranchesHaveTargets_of_constructed constructed_junction
  exact ⟨_, built, by decide, branches, represents_of_build built (by decide) branches⟩

end ControlFlow

end BytecodeVerifier
