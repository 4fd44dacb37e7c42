import BytecodeVerifier.Proofs.Reachability
import BytecodeVerifier.Proofs.Soundness

/-!
# Exactness — the report where nothing is merged

The analysis loses something only where it merges.  A graph is free of merges when no reachable
block is entered from two reachable ones, and the first block from none (`Graph.MergeFree`); a block
may still have an edge from others that are never reached.  Then one path leads to every instruction
that is reached (`Path.unique`), its settled state is the one which this path leaves
(`Solved.settledAt_iff_arrives`), and **the report is that of checking every instruction in the
state its path leaves, in the order of positions** (`report_of_mergeFree`), in whatever order the
blocks were visited.

That paths are unique is shown of instructions, not of blocks: where control flows to one
instruction from two that are reached, both stand before it in its block, or both are the last of
the one block that enters its block (`Graph.MergeFree.eq_of_flow`).
-/

namespace BytecodeVerifier

open Dataflow ControlFlow

/-! ### Graphs free of merges -/

namespace ControlFlow

/-- The reachable ones of the predecessors of a block. -/
def Graph.entrances (g : Graph) (block : Block) : List Nat :=
  block.predecessors.filter g.reachable.contains

/-- A reachable block has one reachable predecessor at most, and the first block has none. -/
def Graph.MergeFree (g : Graph) : Prop :=
  ∀ block ∈ g.blocks, g.reachable.contains block.index = true →
    (g.entrances block).length ≤ 1 ∧ (block.index = 0 → g.entrances block = [])

/-- It is enough to count the predecessors within a set of blocks that no edge leaves. -/
theorem Graph.mergeFree_of_closed {g : Graph} (inside : Nat → Bool) (hentry : inside 0 = true)
    (hedge : ∀ b c, inside b = true → g.Edge b c → inside c = true)
    (hcount : ∀ block ∈ g.blocks, (block.predecessors.filter inside).length ≤ 1 ∧
      (block.index = 0 → block.predecessors.filter inside = [])) : g.MergeFree := by
  intro block hblock _
  obtain ⟨hone, hnone⟩ := hcount block hblock
  have hsub : (g.entrances block).Sublist (block.predecessors.filter inside) :=
    List.monotone_filter_right _ fun b hb =>
      of_contains_reachable (P := fun b => inside b = true) hentry hedge hb
  refine ⟨Nat.le_trans hsub.length_le hone, fun h => ?_⟩
  rw [hnone h] at hsub
  exact List.sublist_nil.mp hsub

/-- The instruction at a position is in a reachable block. -/
def Graph.ReachesAt (g : Graph) (pc : Nat) : Prop :=
  ∃ (b : Nat) (block : Block), g.blocks[b]? = some block ∧ block.start ≤ pc ∧ pc < block.stop ∧
    g.reachable.contains b = true

section Built

variable {file : Register.File} {code : Array Instruction} {g : Graph}
  (hg : Graph.build file code = .ok g)
include hg

theorem mem_entrances_iff {b c : Nat} {target : Block} (ht : g.blocks[c]? = some target) :
    b ∈ g.entrances target ↔ g.Edge b c ∧ g.reachable.contains b = true := by
  rw [Graph.entrances, List.mem_filter, Graph.edge_iff]
  obtain rfl := eq_connect_of_build hg
  rw [mem_predecessors_iff ht]

/-- Control flows to an instruction from the one before it, unless that is in another block; then it
flows from the last instruction of a block which has an edge to this one. -/
theorem flow_into_cases {p q c : Nat} {target : Block} (hflow : Flow code p q)
    (ht : g.blocks[c]? = some target) (hlo : target.start ≤ q) (hhi : q < target.stop) :
    (target.start < q ∧ p + 1 = q) ∨
    (target.start = q ∧ ∃ b block, g.blocks[b]? = some block ∧ block.start ≤ p ∧
      p + 1 = block.stop ∧ g.Edge b c) := by
  obtain ⟨i, hi⟩ := hflow.exists_instruction
  obtain ⟨b, block, hb, hlo', hhi'⟩ := exists_block hg (Array.getElem?_eq_some_iff.mp hi).1
  rcases flow_cases hg hflow hb hlo' hhi' with ⟨rfl, hin⟩ | ⟨hstop, d, hd, other, ho, hstart, hin⟩
  · obtain rfl := block_unique hg hb (Nat.le_succ_of_le hlo') hin ht hlo hhi
    obtain rfl : block = target := Option.some.inj (hb.symm.trans ht)
    exact .inl ⟨Nat.lt_succ_of_le hlo', rfl⟩
  · obtain rfl := block_unique hg ho (Nat.le_of_eq hstart) hin ht hlo hhi
    obtain rfl : other = target := Option.some.inj (ho.symm.trans ht)
    exact .inr ⟨hstart, b, block, hb, hlo', hstop, Graph.edge_iff.mpr ⟨block, hb, hd⟩⟩

theorem Graph.ReachesAt.contains {pc b : Nat} {block : Block} (h : g.ReachesAt pc)
    (hb : g.blocks[b]? = some block) (hlo : block.start ≤ pc) (hhi : pc < block.stop) :
    g.reachable.contains b = true := by
  obtain ⟨c, other, hc, hlo', hhi', hreach⟩ := h
  obtain rfl := block_unique hg hb hlo hhi hc hlo' hhi'
  exact hreach

namespace Graph.MergeFree

variable (hfree : g.MergeFree)
include hfree

theorem eq_of_edge {b c d : Nat} (hb : g.reachable.contains b = true)
    (hc : g.reachable.contains c = true) (hbd : g.Edge b d) (hcd : g.Edge c d) : b = c := by
  obtain ⟨target, ht⟩ : ∃ target, g.blocks[d]? = some target :=
    ⟨_, Array.getElem?_eq_getElem (edge_lt hg hbd)⟩
  obtain rfl := index_eq hg ht
  have hd : g.reachable.contains target.index = true := by
    rw [contains_reachable_iff hg] at hb ⊢
    exact hb.tail hbd
  obtain ⟨hone, -⟩ := hfree target (Array.mem_of_getElem? ht) hd
  have hmem := (mem_entrances_iff hg ht).mpr ⟨hbd, hb⟩
  have hmem' := (mem_entrances_iff hg ht).mpr ⟨hcd, hc⟩
  obtain ⟨x, hx⟩ := List.length_eq_one_iff.mp
    (Nat.le_antisymm hone (List.length_pos_of_mem hmem))
  rw [hx, List.mem_singleton] at hmem hmem'
  exact hmem.trans hmem'.symm

theorem not_edge_entry {b : Nat} (hb : g.reachable.contains b = true) : ¬ g.Edge b 0 := by
  intro hedge
  obtain ⟨first, hfirst⟩ := exists_first hg
  have hindex := index_eq hg hfirst
  have hreach : g.reachable.contains first.index = true := by
    rw [hindex, contains_reachable_iff hg]
  have hnone := (hfree first (Array.mem_of_getElem? hfirst) hreach).2 hindex
  have hmem := (mem_entrances_iff hg hfirst).mpr ⟨hedge, hb⟩
  rw [hnone] at hmem
  cases hmem

/-- Control flows to an instruction from one reached instruction at most. -/
theorem eq_of_flow {p p' q : Nat} (hp : g.ReachesAt p) (hp' : g.ReachesAt p')
    (hflow : Flow code p q) (hflow' : Flow code p' q) : p = p' := by
  obtain ⟨c, target, ht, hlo, hhi⟩ := exists_block hg (hflow.lt_size hg)
  rcases flow_into_cases hg hflow ht hlo hhi with
    ⟨hinner, e⟩ | ⟨hstart, b, block, hb, hlo₁, hstop, hedge⟩
  · rcases flow_into_cases hg hflow' ht hlo hhi with ⟨-, e'⟩ | ⟨hstart, -⟩
    · exact Nat.succ.inj (e.trans e'.symm)
    · exact absurd hstart (Nat.ne_of_lt hinner)
  · rcases flow_into_cases hg hflow' ht hlo hhi with
      ⟨hinner, -⟩ | ⟨-, b', block', hb', hlo₂, hstop', hedge'⟩
    · exact absurd hstart (Nat.ne_of_lt hinner)
    · -- Both are the last instruction of the one block that enters this one.
      have hreach := hp.contains hg hb hlo₁ (Nat.lt_of_succ_le (Nat.le_of_eq hstop))
      have hreach' := hp'.contains hg hb' hlo₂ (Nat.lt_of_succ_le (Nat.le_of_eq hstop'))
      obtain rfl := hfree.eq_of_edge hg hreach hreach' hedge hedge'
      obtain rfl : block = block' := Option.some.inj (hb.symm.trans hb')
      exact Nat.succ.inj (hstop.trans hstop'.symm)

/-- Control never flows back to the first instruction from one that is reached. -/
theorem not_flow_entry {p : Nat} (hp : g.ReachesAt p) : ¬ Flow code p 0 := by
  intro hflow
  obtain ⟨first, hfirst⟩ := exists_first hg
  have hstart := start_entry hg hfirst
  have hstop := (block_bounds hg (hflow.lt_size hg) hfirst).1
  rcases flow_into_cases hg hflow hfirst (Nat.le_of_eq hstart) (hstart ▸ hstop) with
    ⟨-, e⟩ | ⟨-, b, block, hb, hlo, hstop, hedge⟩
  · cases e
  · exact hfree.not_edge_entry hg
      (hp.contains hg hb hlo (Nat.lt_of_succ_le (Nat.le_of_eq hstop))) hedge

end Graph.MergeFree

end Built

end ControlFlow

namespace Method

/-! ### Paths -/

theorem exists_path_iff {m : Method} {pc : Nat} : (∃ pcs, m.Path pcs pc) ↔
    0 < m.code.size ∧ Relation.ReflTransGen (Flow m.code) 0 pc := by
  constructor
  · rintro ⟨pcs, hpath⟩
    refine ⟨hpath.size_pos, ?_⟩
    induction hpath with
    | entry _ => exact .refl
    | step _ hflow ih => exact ih.tail hflow
  · rintro ⟨hne, hflows⟩
    induction hflows with
    | refl => exact ⟨[], .entry hne⟩
    | tail _ hflow ih =>
        obtain ⟨pcs, hpath⟩ := ih
        exact ⟨_, .step hpath hflow⟩

section Built

variable {m : Method} {g : Graph} (hg : Graph.build m.registers m.code = .ok g)
include hg

theorem Path.reachesAt {pcs : List Nat} {pc : Nat} (hpath : m.Path pcs pc) : g.ReachesAt pc := by
  obtain ⟨hne, hflows⟩ := exists_path_iff.mp ⟨pcs, hpath⟩
  have hpc : pc < m.code.size := by
    cases hpath with
    | entry hne => exact hne
    | step _ hflow => exact hflow.lt_size hg
  obtain ⟨b, block, hb, hlo, hhi⟩ := exists_block hg hpc
  exact ⟨b, block, hb, hlo, hhi,
    (contains_reachable_iff hg).mpr (reaches_block hg hflows hb hlo hhi)⟩

/-- A path leads to every instruction of a reachable block, where only branches have targets. -/
theorem exists_path_of_reachesAt (hbr : OnlyBranchesHaveTargets m.code) {pc : Nat}
    (h : g.ReachesAt pc) : ∃ pcs, m.Path pcs pc := by
  obtain ⟨b, block, hb, hlo, hhi, hreach⟩ := h
  rw [contains_reachable_iff hg] at hreach
  have hpc := Nat.lt_of_lt_of_le hhi (stop_le hg hb)
  exact exists_path_iff.mpr ⟨Nat.zero_lt_of_lt hpc,
    (flows_to_start hg hbr hreach hb).trans (flows_through hg hb hlo hhi)⟩

/-- **One path at most leads to an instruction**, if the graph is free of merges. -/
theorem Path.unique (hfree : g.MergeFree) {pcs pcs' : List Nat} {pc : Nat}
    (hpath : m.Path pcs pc) (hpath' : m.Path pcs' pc) : pcs = pcs' := by
  induction hpath generalizing pcs' with
  | entry _ =>
      cases hpath' with
      | entry _ => rfl
      | step hpath' hflow' => exact absurd hflow' (hfree.not_flow_entry hg (hpath'.reachesAt hg))
  | step hpath hflow ih =>
      cases hpath' with
      | entry _ => exact absurd hflow (hfree.not_flow_entry hg (hpath.reachesAt hg))
      | step hpath' hflow' =>
          obtain rfl := hfree.eq_of_flow hg (hpath.reachesAt hg) (hpath'.reachesAt hg) hflow hflow'
          rw [ih hpath']

theorem Arrives.unique (hfree : g.MergeFree) {s₀ t t' : State} {pc : Nat}
    (h : m.Arrives s₀ pc t) (h' : m.Arrives s₀ pc t') : t = t' := by
  obtain ⟨pcs, hpath, he⟩ := h
  obtain ⟨pcs', hpath', he'⟩ := h'
  obtain rfl := hpath.unique hg hfree hpath'
  exact Except.ok.inj (he.symm.trans he')

end Built

/-! ### Settled states -/

section Solved

variable {m : Method} {g : Graph} {s₀ : State} {events : List Event} {w : Worklist}
  (h : m.Solved g s₀ events w) (hbr : OnlyBranchesHaveTargets m.code) (hfree : g.MergeFree)
include h hbr hfree

/-- Where nothing is merged an instruction is met only in the state in which control arrives. -/
theorem Solved.arrives_of_meets {pc : Nat} {t : State} (hm : m.Meets g events pc t) :
    m.Arrives s₀ pc t := by
  have hne : 0 < m.code.size := by
    obtain ⟨b, s, -, block, hb, -, hhi, -⟩ := hm
    exact Nat.zero_lt_of_lt (Nat.lt_of_lt_of_le hhi (stop_le h.built hb))
  refine h.states (P := m.Arrives s₀) (fun pc s t _ _ hs ht => ?_) ?_ ⟨[], .entry hne, rfl⟩ pc t hm
  · -- What would be merged is the same state twice.
    obtain rfl := hs.unique h.built hfree ht
    rwa [State.merge_self]
  · rintro p q i s t hi - ⟨pcs, hpath, he⟩ ht hpass
    exact ⟨pcs ++ [p], .step hpath (flow_of_passes h.built hbr hpass),
      (effectAlong_concat_eq_ok_iff hi).mpr ⟨s, he, ht⟩⟩

/-- **The settled state of an instruction is the one in which control arrives there.** -/
theorem Solved.settledAt_iff_arrives {pc : Nat} {a : State} :
    m.SettledAt g w pc a ↔ m.Arrives s₀ pc a := by
  constructor
  · exact fun ha => h.arrives_of_meets hbr hfree (h.meets ha)
  · intro ha
    obtain ⟨pcs, hpath, -⟩ := id ha
    obtain ⟨a', ha'⟩ := hpath.exists_settledAt h
    obtain rfl := ha.unique h.built hfree (h.arrives_of_meets hbr hfree (h.meets ha'))
    exact ha'

theorem Solved.clearAt_iff {pc : Nat} :
    m.ClearAt g w pc ↔ ∀ t, m.Arrives s₀ pc t → m.checkAt t pc = .ok none := by
  constructor
  · intro hclear t ht
    have hsettled := (h.settledAt_iff_arrives hbr hfree).mpr ht
    obtain ⟨i, hi⟩ := hsettled.exists_instruction h.built
    exact (checkAt_eq_none_iff hi).mpr (hclear t i hsettled hi)
  · intro hpass a i ha hi
    exact (checkAt_eq_none_iff hi).mp (hpass a ((h.settledAt_iff_arrives hbr hfree).mp ha))

theorem Solved.exists_arrives_of_fails {pc : Nat} {d : Defect} (hfails : m.Fails g w pc d) :
    ∃ t, m.Arrives s₀ pc t ∧ m.checkAt t pc = .ok (some (.ofDefect pc d)) := by
  obtain ⟨a, i, ha, hi, hd⟩ := hfails
  refine ⟨a, (h.settledAt_iff_arrives hbr hfree).mp ha, ?_⟩
  rw [checkAt_of_getElem? hi, hd]
  rfl

end Solved

/-- **Where nothing is merged the report is exact.**  One path leads to each instruction of a
reachable block, and to no other; its effects leave a state.  A method is verified just when every
instruction passes its check in the state which its path leaves, and otherwise the violation is the
one found there at the first position where the check fails. -/
theorem report_of_mergeFree {m : Method} {g : Graph} {report : Report}
    (hg : Graph.build m.registers m.code = .ok g) (hbr : OnlyBranchesHaveTargets m.code)
    (hfree : g.MergeFree) (hr : m.verify = .ok report) : ∃ s₀, m.initialState = .ok s₀ ∧
      (∀ pc, g.ReachesAt pc ↔ ∃! pcs, m.Path pcs pc) ∧
      (∀ pcs pc, m.Path pcs pc → ∃ t, m.effectAlong s₀ pcs = .ok t) ∧
      (report = .verified ↔ ∀ pc t, m.Arrives s₀ pc t → m.checkAt t pc = .ok none) ∧
      ∀ v, report = .rejected v → ∃ pc t, m.Arrives s₀ pc t ∧ m.checkAt t pc = .ok (some v) ∧
        ∀ q < pc, ∀ u, m.Arrives s₀ q u → m.checkAt u q = .ok none := by
  obtain ⟨s₀, events, w, h⟩ := solved_of_report hg hr
  refine ⟨s₀, h.initial, fun pc => ⟨fun hpc => ?_, ?_⟩, fun pcs pc hpath => ?_, ?_⟩
  · obtain ⟨pcs, hpath⟩ := exists_path_of_reachesAt hg hbr hpc
    exact ⟨pcs, hpath, fun pcs' hpath' => hpath'.unique hg hfree hpath⟩
  · rintro ⟨pcs, hpath, -⟩
    exact hpath.reachesAt hg
  · obtain ⟨a, ha⟩ := hpath.exists_settledAt h
    obtain ⟨pcs', hpath', he⟩ := (h.settledAt_iff_arrives hbr hfree).mp ha
    obtain rfl := hpath.unique hg hfree hpath'
    exact ⟨a, he⟩
  · rcases h.report_cases hr with ⟨rfl, hclear⟩ | ⟨pc, d, rfl, hfails, hbefore⟩
    · have hpass := fun pc => (h.clearAt_iff hbr hfree).mp (hclear pc)
      exact ⟨⟨fun _ => hpass, fun _ => rfl⟩, fun v e => by cases e⟩
    · obtain ⟨t, ht, hd⟩ := h.exists_arrives_of_fails hbr hfree hfails
      refine ⟨⟨fun e => (by cases e), fun hpass => ?_⟩, fun v e => ?_⟩
      · rw [hpass pc t ht] at hd
        cases hd
      · cases e
        exact ⟨pc, t, ht, hd, fun q hq => (h.clearAt_iff hbr hfree).mp (hbefore q hq)⟩

/-- Two arms that both return what was never written, and a jump into the first of them which is
never reached. -/
def forked : Method where
  name := "forked"
  registers := ⟨2, [⟨⟨1⟩, .int⟩], Register.File.accepted_two⟩
  returns := .int
  code := #[
    ⟨⟨"if-eqz", .ifZero, [Opcode.reads .int]⟩, [⟨1⟩], [3], 0⟩,
    ⟨⟨"const/4", .const, [Opcode.writes .int]⟩, [⟨1⟩], [], 0⟩,
    ⟨⟨"return", .returnValue, [Opcode.reads .narrow]⟩, [⟨0⟩], [], 0⟩,
    ⟨⟨"return", .returnValue, [Opcode.reads .narrow]⟩, [⟨0⟩], [], 0⟩,
    ⟨⟨"goto", .goto, []⟩, [], [2], 0⟩]

theorem forked_exact : ∃ g s₀, Graph.build forked.registers forked.code = .ok g ∧
    OnlyBranchesHaveTargets forked.code ∧ g.MergeFree ∧ forked.initialState = .ok s₀ ∧
    forked.verify = .ok (.rejected (.ofDefect 2 (.undefinedRead ⟨0⟩ .uninitialized))) ∧
    ∃ pc t, forked.Arrives s₀ pc t ∧
      forked.checkAt t pc = .ok (some (.ofDefect 2 (.undefinedRead ⟨0⟩ .uninitialized))) ∧
      ∀ q < pc, ∀ u, forked.Arrives s₀ q u → forked.checkAt u q = .ok none := by
  have built : Graph.build forked.registers forked.code = .ok (connect forked.code) := by
    decide +kernel
  have branches : OnlyBranchesHaveTargets forked.code := by decide
  -- The last block has an edge to the third, and no edge leads out of the four before it.
  have closed : ∀ b < 4, ∀ c ∈ (connect forked.code).successors b, c < 4 := by decide +kernel
  have free : (connect forked.code).MergeFree :=
    Graph.mergeFree_of_closed (fun b => decide (b < 4)) (by decide)
      (fun b c hb hc => decide_eq_true (closed b (of_decide_eq_true hb) c hc)) (by decide +kernel)
  have rejected : forked.verify =
      .ok (.rejected (.ofDefect 2 (.undefinedRead ⟨0⟩ .uninitialized))) := by decide +kernel
  obtain ⟨s₀, initial, -, -, -, first⟩ := report_of_mergeFree built branches free rejected
  exact ⟨_, s₀, built, branches, free, initial, rejected, first _ rfl⟩

end Method

end BytecodeVerifier
