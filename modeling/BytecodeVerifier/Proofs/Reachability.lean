import BytecodeVerifier.Proofs.Representation
import BytecodeVerifier.Proofs.Verdict
import Mathlib.Logic.Relation

/-!
# Reachability — two searches of one graph

Two procedures go through a graph from its entry.  `Graph.reachable` marks blocks, each once; what
it leaves unmarked is listed as unreachable.  `Method.solve` visits blocks as long as their entry
states change, and the verifier checks the blocks so visited.  **Both come to the same blocks**,
those to which edges lead from the entry; and where only branches have targets these are the blocks
at whose start some path of instructions arrives (`visited_iff_reachable`).

The marked blocks are reachable because every mark is put at the end of an edge, and all reachable
blocks are marked because the successors of a marked block are marked once it has left the stack
(`explore_closed`).  The search ends after a round for each block at most (`searches_explore`): a
block is stacked only when it is marked.
-/

namespace BytecodeVerifier

open Dataflow ControlFlow

namespace ControlFlow.Graph

/-- An edge leads from one block to another. -/
def Edge (g : Graph) (b c : Nat) : Prop := c ∈ g.successors b

theorem edge_iff {g : Graph} {b c : Nat} :
    g.Edge b c ↔ ∃ block, g.blocks[b]? = some block ∧ c ∈ block.successors := by
  unfold Edge successors
  cases g.blocks[b]? <;> simp

/-! ### The search -/

/-- From some marked blocks and a stack the search comes to an end after so many rounds.  A round
takes a block off the stack, marks those of its successors that are not marked, and stacks them. -/
inductive Searches (g : Graph) : BitSet → List Nat → Nat → BitSet → Prop where
  | done (marked : BitSet) : Searches g marked [] 0 marked
  | round {marked found : BitSet} {b rounds : Nat} {stack : List Nat} :
      Searches g (marked.insertAll (g.fresh marked b)) ((g.fresh marked b).reverse ++ stack) rounds
        found → Searches g marked (b :: stack) (rounds + 1) found

theorem mem_fresh_iff {g : Graph} {marked : BitSet} {b c : Nat} :
    c ∈ g.fresh marked b ↔ g.Edge b c ∧ c < g.size ∧ marked.contains c = false := by
  simp [fresh, Edge]

/-- **The search ends**: every round uses up a block that was stacked, or not yet marked. -/
theorem searches_explore {g : Graph} (hnd : ∀ b, (g.successors b).Nodup) (marked : BitSet)
    (stack : List Nat) : ∃ rounds ≤ marked.missing g.size + stack.length,
      g.Searches marked stack rounds (g.explore marked stack) := by
  fun_induction g.explore marked stack with
  | case1 marked => exact ⟨0, Nat.zero_le _, .done marked⟩
  | case2 marked b stack next ih =>
      obtain ⟨rounds, hle, hsearch⟩ := ih
      refine ⟨rounds + 1, ?_, .round hsearch⟩
      have hfewer : (marked.insertAll next).missing g.size + next.length ≤
          marked.missing g.size :=
        BitSet.missing_insertAll_add_length_le ((hnd b).filter _) fun c hc =>
          (mem_fresh_iff.mp hc).2
      rw [List.length_append, List.length_reverse] at hle
      rw [List.length_cons]
      omega

/-- What is marked is what was marked before, or reached from there or from the stack. -/
theorem explore_subset {g : Graph} {P : Nat → Prop} (hedge : ∀ b c, P b → g.Edge b c → P c)
    {marked : BitSet} {stack : List Nat} (hmarked : ∀ b, marked.contains b = true → P b)
    (hstack : ∀ b ∈ stack, P b) {b : Nat} (h : (g.explore marked stack).contains b = true) :
    P b := by
  fun_induction g.explore marked stack with
  | case1 marked => exact hmarked b h
  | case2 marked d stack next ih =>
      have hnext : ∀ c ∈ next, P c := fun c hc =>
        hedge d c (hstack d List.mem_cons_self) (mem_fresh_iff.mp hc).1
      refine ih (fun c hc => ?_) (fun c hc => ?_) h
      · rw [BitSet.contains_insertAll, Bool.or_eq_true, List.contains_iff_mem] at hc
        exact hc.elim (hmarked c) (hnext c)
      · rcases List.mem_append.mp hc with hc | hc
        · exact hnext c (List.mem_reverse.mp hc)
        · exact hstack c (List.mem_cons_of_mem _ hc)

/-- What is marked stays so. -/
theorem contains_explore {g : Graph} {marked : BitSet} {stack : List Nat} {b : Nat}
    (h : marked.contains b = true) : (g.explore marked stack).contains b = true := by
  fun_induction g.explore marked stack with
  | case1 marked => exact h
  | case2 marked d stack next ih =>
      refine ih ?_
      rw [BitSet.contains_insertAll, h, Bool.true_or]

/-- **What is marked in the end is closed under edges**, if the successors of every marked block are
marked, or the block is on the stack. -/
theorem explore_closed {g : Graph} (hsize : ∀ b c, g.Edge b c → c < g.size) {marked : BitSet}
    {stack : List Nat}
    (hclosed : ∀ b c, marked.contains b = true → b ∉ stack → g.Edge b c → marked.contains c = true)
    {b c : Nat} (h : (g.explore marked stack).contains b = true) (hc : g.Edge b c) :
    (g.explore marked stack).contains c = true := by
  fun_induction g.explore marked stack with
  | case1 marked => exact hclosed b c h List.not_mem_nil hc
  | case2 marked d stack next ih =>
      refine ih (fun x y hx hnot hxy => ?_) h
      rw [List.mem_append, List.mem_reverse, not_or] at hnot
      rw [BitSet.contains_insertAll, Bool.or_eq_true, List.contains_iff_mem] at hx ⊢
      have hold : marked.contains x = true := hx.resolve_right hnot.1
      by_cases hd : x = d
      · -- The block that leaves the stack: its successors were marked, or are now.
        subst hd
        by_cases hy : marked.contains y = true
        · exact .inl hy
        · exact .inr (mem_fresh_iff.mpr ⟨hxy, hsize x y hxy, Bool.eq_false_iff.mpr hy⟩)
      · refine .inl (hclosed x y hold ?_ hxy)
        rw [List.mem_cons, not_or]
        exact ⟨hd, hnot.2⟩

/-- What holds of the entry and passes along edges holds of every block that is found. -/
theorem of_contains_reachable {g : Graph} {P : Nat → Prop} (hentry : P 0)
    (hedge : ∀ b c, P b → g.Edge b c → P c) {b : Nat} (h : g.reachable.contains b = true) :
    P b := by
  refine explore_subset hedge (fun c hc => ?_) (fun c hc => ?_) h
  · obtain rfl : c = 0 := by simpa using hc
    exact hentry
  · obtain rfl := List.mem_singleton.mp hc
    exact hentry

/-- **What the search marks** is what edges lead to from the entry. -/
theorem contains_reachable_iff_of_edge_lt {g : Graph}
    (hsize : ∀ b c, g.Edge b c → c < g.size) {b : Nat} :
    g.reachable.contains b = true ↔ Relation.ReflTransGen g.Edge 0 b := by
  constructor
  · exact of_contains_reachable .refl fun b c hb hc => hb.tail hc
  · intro h
    induction h with
    | refl => exact contains_explore (by simp)
    | tail _ hc ih =>
        refine explore_closed hsize (fun b c hb hnot _ => ?_) ih hc
        exact absurd (by simpa using hb) hnot

theorem mem_unreachable_iff {g : Graph} {b : Nat} :
    b ∈ g.unreachable ↔ b < g.size ∧ ¬ g.reachable.contains b = true := by
  simp [unreachable]

end ControlFlow.Graph

namespace ControlFlow

section Built

variable {file : Register.File} {code : Array Instruction} {g : Graph}
  (hg : Graph.build file code = .ok g)
include hg

theorem edge_lt {b c : Nat} (h : g.Edge b c) : c < g.size := by
  obtain ⟨block, hb, hc⟩ := Graph.edge_iff.mp h
  exact successor_lt hg hb hc

theorem contains_reachable_iff {b : Nat} :
    g.reachable.contains b = true ↔ Relation.ReflTransGen g.Edge 0 b :=
  Graph.contains_reachable_iff_of_edge_lt fun _ _ => edge_lt hg

/-- The search of a graph takes a round for each block at most. -/
theorem searches_reachable :
    ∃ rounds ≤ g.size, g.Searches (BitSet.empty.insert 0) [0] rounds g.reachable := by
  have hnd : ∀ b, (g.successors b).Nodup := by
    obtain rfl := eq_connect_of_build hg
    intro b
    unfold Graph.successors
    split
    · next block hb => exact nodup_successors hb
    · exact List.nodup_nil
  obtain ⟨rounds, hle, hsearch⟩ := Graph.searches_explore hnd (BitSet.empty.insert 0) [0]
  refine ⟨rounds, Nat.le_trans hle ?_, hsearch⟩
  -- The entry is marked, so one block less is missing than there are.
  have hless : (BitSet.empty.insertAll [0]).missing g.size < BitSet.empty.missing g.size :=
    BitSet.missing_insertAll_lt List.mem_cons_self (size_pos hg) (BitSet.contains_empty 0)
  have hall : BitSet.empty.missing g.size ≤ g.size :=
    Nat.le_trans List.countP_le_length (Nat.le_of_eq List.length_range)
  exact Nat.le_trans hless hall

/-! ### Blocks and paths of instructions -/

/-- Control flows through a block from its start. -/
theorem flows_through {b pc : Nat} {block : Block} (hb : g.blocks[b]? = some block)
    (hlo : block.start ≤ pc) (hhi : pc < block.stop) :
    Relation.ReflTransGen (Flow code) block.start pc := by
  induction pc, hlo using Nat.le_induction with
  | base => exact .refl
  | succ pc hlo ih => exact (ih (Nat.lt_of_succ_lt hhi)).tail (flow_within hg hb hlo hhi)

/-- A block to which edges lead is one to which control flows, where only branches have targets. -/
theorem flows_to_start (hbr : OnlyBranchesHaveTargets code) {b : Nat} {block : Block}
    (h : Relation.ReflTransGen g.Edge 0 b) (hb : g.blocks[b]? = some block) :
    Relation.ReflTransGen (Flow code) 0 block.start := by
  induction h generalizing block with
  | refl =>
      rw [start_entry hg hb]
  | @tail d b _ hedge ih =>
      obtain ⟨before, hd, hc⟩ := Graph.edge_iff.mp hedge
      have hlt := start_lt_stop hg hd hc
      have hne : 0 < code.size :=
        Nat.lt_of_lt_of_le (Nat.zero_lt_of_lt hlt) (stop_le hg hd)
      have hlast := flows_through hg hd (Nat.le_pred_of_lt hlt)
        (Nat.sub_lt (Nat.zero_lt_of_lt hlt) Nat.one_pos)
      exact ((ih hd).trans hlast).tail (flow_of_mem_successors hg hbr hne hd hc hb)

/-- Edges lead to the block of every instruction to which control flows. -/
theorem reaches_block {pc b : Nat} {block : Block} (h : Relation.ReflTransGen (Flow code) 0 pc)
    (hb : g.blocks[b]? = some block) (hlo : block.start ≤ pc) (hhi : pc < block.stop) :
    Relation.ReflTransGen g.Edge 0 b := by
  induction h generalizing b block with
  | refl =>
      -- The first instruction is in the first block.
      have hne : 0 < code.size := Nat.lt_of_lt_of_le hhi (stop_le hg hb)
      obtain ⟨first, hfirst⟩ := exists_first hg
      have hstart := start_entry hg hfirst
      obtain rfl := block_unique hg hfirst (Nat.le_of_eq hstart)
        (hstart ▸ (block_bounds hg hne hfirst).1) hb hlo hhi
      exact .refl
  | tail _ hflow ih =>
      obtain ⟨i, hi⟩ := hflow.exists_instruction
      obtain ⟨d, before, hd, hlo', hhi'⟩ := exists_block hg (Array.getElem?_eq_some_iff.mp hi).1
      have hreach := ih hd hlo' hhi'
      rcases flow_cases hg hflow hd hlo' hhi' with ⟨rfl, hin⟩ | ⟨-, c, hc, target, ht, hstart, hin⟩
      · obtain rfl := block_unique hg hd (Nat.le_succ_of_le hlo') hin hb hlo hhi
        exact hreach
      · obtain rfl := block_unique hg ht (Nat.le_of_eq hstart) hin hb hlo hhi
        exact hreach.tail (Graph.edge_iff.mpr ⟨before, hd, hc⟩)

/-- **Edges lead to the blocks at whose start control arrives**, where only branches have
targets. -/
theorem reaches_iff_flows (hbr : OnlyBranchesHaveTargets code) {b : Nat} {block : Block}
    (hb : g.blocks[b]? = some block) :
    Relation.ReflTransGen g.Edge 0 b ↔ Relation.ReflTransGen (Flow code) 0 block.start := by
  refine ⟨fun h => flows_to_start hg hbr h hb, fun h => ?_⟩
  by_cases hne : 0 < code.size
  · exact reaches_block hg h hb (Nat.le_refl _) (block_bounds hg hne hb).1
  · obtain rfl := eq_connect_of_build hg
    obtain ⟨rfl, -⟩ := block_of_empty (by omega) hb
    exact .refl

end Built

end ControlFlow

namespace Method

/-- **The blocks visited** are those to which edges lead from the entry. -/
theorem Solved.visited_iff {m : Method} {g : Graph} {s₀ : State} {events : List Event}
    {w : Worklist} (h : m.Solved g s₀ events w) {b : Nat} :
    w.visited.contains b = true ↔ Relation.ReflTransGen g.Edge 0 b := by
  rw [h.fits.visited b]
  constructor
  · rintro ⟨e, he⟩
    obtain ⟨w₀, hst, hrun⟩ := h.run
    refine (hrun.entries h.built hst.fits (P := fun b _ => Relation.ReflTransGen g.Edge 0 b)
      (fun _ _ _ _ _ hb _ => hb) (fun b block _ _ c _ hblock hb _ hc => ?_)
      (fun b e he => ?_)).1 b e he
    · exact hb.tail (Graph.edge_iff.mpr ⟨block, hblock, hc⟩)
    · rw [(hst.only b e he).1]
  · intro hreach
    induction hreach with
    | refl =>
        obtain ⟨e, he, -⟩ := h.entry_zero
        exact ⟨e, he⟩
    | @tail b c _ hedge ih =>
        -- What the block leaves has arrived in its successors, for nothing is left to visit.
        obtain ⟨e, he⟩ := ih
        obtain ⟨block, exit, hb, -, hnext⟩ := h.covers b e he
          (by rw [h.done]; exact List.not_mem_nil)
        obtain ⟨block', hb', hc⟩ := Graph.edge_iff.mp hedge
        obtain rfl : block = block' := Option.some.inj (hb.symm.trans hb')
        obtain ⟨e', he', -⟩ := hnext c hc
        exact ⟨e', he'⟩

/-- **Two searches agree.**  The search for reachable blocks ends, after a round for each block at
most, and marks the blocks to which edges lead from the entry; where only branches have targets,
these are the blocks at whose start a path of instructions arrives.  Where solving returns it has
visited just these blocks, so that what is listed as unreachable is what is never checked. -/
theorem visited_iff_reachable {m : Method} {g : Graph}
    (hg : Graph.build m.registers m.code = .ok g) :
    (∃ rounds ≤ g.size, g.Searches (BitSet.empty.insert 0) [0] rounds g.reachable) ∧
    (∀ b, g.reachable.contains b = true ↔ Relation.ReflTransGen g.Edge 0 b) ∧
    (OnlyBranchesHaveTargets m.code → ∀ (b : Nat) (block : Block), g.blocks[b]? = some block →
      (g.reachable.contains b = true ↔ Relation.ReflTransGen (Flow m.code) 0 block.start)) ∧
    ∀ events w, m.solve g = (events, .ok w) →
      (∀ b, w.visited.contains b = true ↔ g.reachable.contains b = true) ∧
      ∀ b, b ∈ g.unreachable ↔ b < g.size ∧ ¬ w.visited.contains b = true := by
  have hreach : ∀ b, g.reachable.contains b = true ↔ Relation.ReflTransGen g.Edge 0 b := fun _ =>
    contains_reachable_iff hg
  refine ⟨searches_reachable hg, hreach, fun hbr b block hb => ?_, fun events w hsolve => ?_⟩
  · rw [hreach b]
    exact reaches_iff_flows hg hbr hb
  · obtain ⟨s₀, h⟩ := solved_of_solve hg hsolve
    have hvisited : ∀ b, w.visited.contains b = true ↔ g.reachable.contains b = true := fun b =>
      h.visited_iff.trans (hreach b).symm
    refine ⟨hvisited, fun b => ?_⟩
    rw [Graph.mem_unreachable_iff, hvisited b]

/-- An instruction that may jump to itself, and after the return two jumps around in a circle which
control never enters. -/
def detached : Method where
  name := "detached"
  registers := ⟨1, [⟨⟨0⟩, .int⟩], by decide⟩
  returns := .void
  code := #[
    ⟨⟨"if-nez", .ifZero, [Opcode.reads .int]⟩, [⟨0⟩], [0], 0⟩,
    ⟨⟨"return-void", .returnVoid, []⟩, [], [], 0⟩,
    ⟨⟨"goto", .goto, []⟩, [], [3], 0⟩,
    ⟨⟨"goto", .goto, []⟩, [], [2], 0⟩]

theorem detached_unvisited : ∃ g events w,
    Graph.build detached.registers detached.code = .ok g ∧ OnlyBranchesHaveTargets detached.code ∧
    detached.solve g = (events, .ok w) ∧ w.visited.contains 1 = true ∧
    Relation.ReflTransGen (Flow detached.code) 0 1 ∧ ¬ w.visited.contains 3 = true ∧
    ¬ Relation.ReflTransGen (Flow detached.code) 0 3 := by
  have built : Graph.build detached.registers detached.code = .ok (connect detached.code) := by
    decide +kernel
  have branches : OnlyBranchesHaveTargets detached.code := by decide
  have verified : detached.verify = .ok .verified := by decide +kernel
  obtain ⟨s₀, events, w, h⟩ := solved_of_report built verified
  obtain ⟨-, -, hflow, hsolve⟩ := visited_iff_reachable built
  obtain ⟨hvisited, -⟩ := hsolve events w h.solve
  have reached : (connect detached.code).reachable.contains 1 = true :=
    (contains_reachable_iff built).mpr
      (.single (show 1 ∈ (connect detached.code).successors 0 by decide +kernel))
  -- No edge leaves the first two blocks.
  have closed : ∀ b < 2, ∀ c ∈ (connect detached.code).successors b, c < 2 := by decide +kernel
  have missed : ¬ (connect detached.code).reachable.contains 3 = true := fun h =>
    absurd (Graph.of_contains_reachable (P := (· < 2)) Nat.two_pos
      (fun b c hb hc => closed b hb c hc) h) (by decide)
  exact ⟨_, events, w, built, branches, h.solve, (hvisited 1).mpr reached,
    (hflow branches 1 ⟨1, 1, 2, [], [0]⟩ (by decide +kernel)).mp reached, mt (hvisited 3).mp missed,
    mt (hflow branches 3 ⟨3, 3, 4, [2], [2]⟩ (by decide +kernel)).mpr missed⟩

end Method

end BytecodeVerifier
