import BytecodeVerifier.Proofs.Confluence
import BytecodeVerifier.Proofs.Soundness
import Mathlib.Data.List.Sort

/-!
# Invariance — what a report should not depend on

The report on a method should depend on what the method does.  Two things about its code are no
matter of that: instructions which control never reaches, and the order in which a switch lists its
targets.  Both have a say in how the method is solved.  A branch that is never reached still starts
a block at its target, and blocks are entered in merged states; and the order of targets is the
order in which blocks are scheduled.

**For steady methods neither shows in the report** (`report_eq_of_agree`,
`report_eq_of_rearranged`): the methods are alike, where control comes.  For others both may
(`partition_differs`, `selection_differs`).
-/

namespace BytecodeVerifier

open Dataflow ControlFlow

namespace ControlFlow

/-- Where control passes is a matter of the instruction alone. -/
theorem Flow.congr {code code' : Array Instruction} {p q : Nat} (hp : code'[p]? = code[p]?)
    (hsize : code'.size = code.size) (h : Flow code p q) : Flow code' p q := by
  cases h with
  | next hi hf hlt => exact .next (hp.trans hi) hf (hsize ▸ hlt)
  | jump hi hb ht => exact .jump (hp.trans hi) hb ht

/-! ### Targets in another order -/

/-- The same code, but that instructions list the same targets in another order, or some of them
more than once. -/
structure Rearranged (code code' : Array Instruction) : Prop where
  size : code'.size = code.size
  instruction : ∀ (p : Nat) i, code[p]? = some i → ∃ targets,
    code'[p]? = some { i with targets := targets } ∧ ∀ t, t ∈ targets ↔ t ∈ i.targets

theorem rearranged_iff {code code' : Array Instruction} : Rearranged code code' ↔
    code'.size = code.size ∧ ∀ p < code.size, ∀ i ∈ code[p]?, ∃ i' ∈ code'[p]?,
      i' = { i with targets := i'.targets } ∧ i'.targets ⊆ i.targets ∧ i.targets ⊆ i'.targets := by
  constructor
  · intro hR
    refine ⟨hR.size, fun p _ i hi => ?_⟩
    obtain ⟨targets, hi', hmem⟩ := hR.instruction p i hi
    exact ⟨_, hi', rfl, fun t ht => (hmem t).mp ht, fun t ht => (hmem t).mpr ht⟩
  · rintro ⟨hsize, hall⟩
    refine ⟨hsize, fun p i hi => ?_⟩
    obtain ⟨i', hi', e, hsub, hsup⟩ := hall p (Array.getElem?_eq_some_iff.mp hi).1 i hi
    exact ⟨i'.targets, e ▸ hi', fun t => ⟨fun ht => hsub ht, fun ht => hsup ht⟩⟩

instance (code code' : Array Instruction) : Decidable (Rearranged code code') :=
  decidable_of_iff _ rearranged_iff.symm

namespace Rearranged

variable {code code' : Array Instruction} (hR : Rearranged code code')
include hR

theorem symm : Rearranged code' code := by
  refine ⟨hR.size.symm, fun p i' hi' => ?_⟩
  have hp : p < code.size := hR.size ▸ (Array.getElem?_eq_some_iff.mp hi').1
  have hi : code[p]? = some code[p] := Array.getElem?_eq_getElem hp
  obtain ⟨targets, htargets, hmem⟩ := hR.instruction p _ hi
  obtain rfl : i' = { code[p] with targets := targets } :=
    Option.some.inj (hi'.symm.trans htargets)
  exact ⟨code[p].targets, hi, fun t => (hmem t).symm⟩

theorem build {file : Register.File} {g : Graph} (hg : Graph.build file code = .ok g) :
    Graph.build file code' = .ok (connect code') := by
  refine build_eq_ok_iff.mpr ⟨fun p i' hi' => ?_, rfl⟩
  obtain ⟨targets, hi, hmem⟩ := hR.symm.instruction p i' hi'
  have h := structured_of_build hg hi
  rw [hR.size]
  exact ⟨h.arity, h.register, h.pair, fun t ht => h.target t ((hmem t).mpr ht)⟩

theorem leader {x : Nat} (h : (leaders code).contains x = true) :
    (leaders code').contains x = true := by
  rcases contains_leaders_iff.mp h with rfl | ⟨pc, i, hi, hterm, hcase⟩
  · exact contains_leaders_iff.mpr (.inl rfl)
  · obtain ⟨targets, hi', hmem⟩ := hR.instruction pc i hi
    refine contains_leaders_iff.mpr (.inr ⟨pc, _, hi', hterm, ?_⟩)
    rcases hcase with ⟨t, ht, e⟩ | ⟨e, hlt⟩
    · exact .inl ⟨t, (hmem t).mpr ht, e⟩
    · exact .inr ⟨e, hR.size ▸ hlt⟩

/-- The code is cut in the same way. -/
theorem parts_eq : parts code' = parts code := by
  have helements : (leaders code').elements = (leaders code).elements := by
    refine (BitSet.pairwise_elements _).eq_of_mem_iff (BitSet.pairwise_elements _) fun x => ?_
    rw [BitSet.mem_elements, BitSet.mem_elements]
    exact ⟨hR.symm.leader, hR.leader⟩
  unfold parts
  rw [helements, hR.size]

/-- The same blocks stand in the same places, and have the same successors in another order. -/
theorem block (hne : 0 < code.size) {file : Register.File}
    (hg : Graph.build file code = .ok (connect code)) {b : Nat} {block : Block}
    (hb : (connect code).blocks[b]? = some block) :
    ∃ block', (connect code').blocks[b]? = some block' ∧ block'.start = block.start ∧
      block'.stop = block.stop ∧ ∀ c ∈ block.successors, c ∈ block'.successors := by
  have hne' : 0 < code'.size := hR.size ▸ hne
  obtain ⟨block', hb', hstart, hstop⟩ := exists_block_of_part hne'
    (hR.parts_eq ▸ (block_of_getElem? hne hb).2.1)
  refine ⟨block', hb', hstart, hstop, fun c hc => ?_⟩
  obtain ⟨hlt, hsize⟩ := block_bounds hg hne hb
  obtain ⟨last, hlast⟩ : ∃ last, code[block.stop - 1]? = some last :=
    ⟨_, Array.getElem?_eq_getElem (by omega)⟩
  obtain ⟨targets, hlast', hmem⟩ := hR.instruction _ _ hlast
  have hblockOf : (connect code').blockOf = (connect code).blockOf := by
    rw [blockOf_connect hne', blockOf_connect hne, hR.parts_eq]
  rw [← hstop] at hlast'
  refine (mem_successors_iff (hR.build hg) hne' hb' hlast').mpr ?_
  rw [hblockOf, hstop, hR.size]
  rcases (mem_successors_iff hg hne hb hlast).mp hc with hnext | ⟨t, ht, hof⟩
  · exact .inl hnext
  · exact .inr ⟨t, (hmem t).mpr ht, hof⟩

/-- Control passes to the same positions. -/
theorem passes {file : Register.File} (hg : Graph.build file code = .ok (connect code)) {p q : Nat}
    (h : (connect code).Passes p q) : (connect code').Passes p q := by
  have hne {b : Nat} {block : Block} (hb : (connect code).blocks[b]? = some block)
      (hp : p < block.stop) : 0 < code.size :=
    Nat.zero_lt_of_lt (Nat.lt_of_lt_of_le hp (stop_le hg hb))
  cases h with
  | within hb hlo hhi =>
      obtain ⟨block', hb', hstart, hstop, -⟩ := hR.block (hne hb (Nat.lt_of_succ_lt hhi)) hg hb
      exact .within hb' (hstart ▸ hlo) (hstop ▸ hhi)
  | across hb hlo hstop hc ht =>
      have hpos := hne hb (Nat.lt_of_succ_le (Nat.le_of_eq hstop))
      obtain ⟨block', hb', hstart', hstop', hsucc⟩ := hR.block hpos hg hb
      obtain ⟨target', ht', hstart, -, -⟩ := hR.block hpos hg ht
      rw [← hstart]
      exact .across hb' (hstart' ▸ hlo) (hstop.trans hstop'.symm) (hsucc _ hc) ht'

end Rearranged

end ControlFlow

namespace Method

/-! ### Code that control never reaches -/

/-- Two methods of the same frame and the same length, with graphs, which have the same instructions
wherever control comes. -/
structure Agree (m m' : Method) : Prop where
  registers : m'.registers = m.registers
  returns : m'.returns = m.returns
  size : m'.code.size = m.code.size
  built : Graph.build m.registers m.code = .ok (connect m.code)
  built' : Graph.build m'.registers m'.code = .ok (connect m'.code)
  table : ∀ i ∈ m.code, i.opcode ∈ Opcode.table
  table' : ∀ i ∈ m'.code, i.opcode ∈ Opcode.table
  branches : OnlyBranchesHaveTargets m.code
  branches' : OnlyBranchesHaveTargets m'.code
  reached : ∀ pcs pc, m.Path pcs pc → m'.code[pc]? = m.code[pc]?

namespace Agree

variable {m m' : Method} (h : m.Agree m')
include h

theorem alike : Alike (fun p => ∃ pcs, m.Path pcs p) m (connect m.code) m' (connect m'.code) := by
  refine ⟨h.registers, h.returns, h.size, fun hne => ⟨[], .entry hne⟩, ?_, ?_⟩
  · rintro p i ⟨pcs, hpath⟩ hi
    exact ⟨i.targets, (h.reached pcs p hpath).trans hi⟩
  · rintro p q ⟨pcs, hpath⟩ hq
    have hflow := flow_of_passes h.built h.branches hq
    exact ⟨passes_of_flow h.built' (hflow.congr (h.reached pcs p hpath) h.size),
      _, .step hpath hflow⟩

theorem path {pcs : List Nat} {pc : Nat} (hpath : m'.Path pcs pc) : m.Path pcs pc := by
  induction hpath with
  | entry hne => exact .entry (h.size ▸ hne)
  | step _ hflow ih => exact .step ih (hflow.congr (h.reached _ _ ih).symm h.size.symm)

theorem symm : m'.Agree m :=
  ⟨h.registers.symm, h.returns.symm, h.size.symm, h.built', h.built, h.table', h.table, h.branches',
    h.branches, fun pcs pc hpath => (h.reached pcs pc (h.path hpath)).symm⟩

end Agree

/-- **Code that control never reaches does not show in the report** on a steady method. -/
theorem report_eq_of_agree {m m' : Method} (h : m.Agree m') (hsteady : m.Steady (connect m.code))
    (hsteady' : m'.Steady (connect m'.code)) {report report' : Report}
    (hr : m.verify = .ok report) (hr' : m'.verify = .ok report') : report = report' :=
  h.alike.report_eq h.symm.alike h.table h.table' hsteady hsteady' h.built h.built' hr hr'

/-- A path stays among the first positions, if control does not leave them. -/
theorem Path.lt {m : Method} {g : Graph} {n : Nat} (hg : Graph.build m.registers m.code = .ok g)
    (hn : 0 < n) (hclosed : ∀ p < n, ∀ q < m.code.size, Flow m.code p q → q < n)
    {pcs : List Nat} {pc : Nat} (hpath : m.Path pcs pc) : pc < n := by
  induction hpath with
  | entry _ => exact hn
  | step _ hflow ih => exact hclosed _ ih _ (hflow.lt_size hg) hflow

/-- The loop of `summation`, and after it an instruction that is never reached. -/
def trailing (last : Instruction) : Method :=
  { summation with code := summation.code.push last }

/-- An instruction that does nothing. -/
def idle : Instruction := ⟨⟨"nop", .nop, []⟩, [], [], 0⟩

/-- A jump into the loop of `summation`, which cuts its block in two. -/
def back : Instruction := ⟨⟨"goto", .goto, []⟩, [], [2], 0⟩

theorem report_eq_trailing : (trailing idle).Agree (trailing back) ∧
    (trailing idle).Steady (connect (trailing idle).code) ∧
    (trailing back).Steady (connect (trailing back).code) ∧
    ∃ report report', (trailing idle).verify = .ok report ∧
      (trailing back).verify = .ok report' ∧ report = report' := by
  have built : Graph.build (trailing idle).registers (trailing idle).code =
      .ok (connect (trailing idle).code) := by decide +kernel
  have same : ∀ pc < 4, (trailing back).code[pc]? = (trailing idle).code[pc]? := by decide +kernel
  have agree : (trailing idle).Agree (trailing back) :=
    ⟨rfl, rfl, rfl, built, by decide +kernel, by decide +kernel, by decide +kernel,
      by decide +kernel, by decide +kernel,
      fun pcs pc hpath => same pc (hpath.lt built (by decide) (by decide +kernel))⟩
  have steady : (trailing idle).Steady (connect (trailing idle).code) := by decide +kernel
  have steady' : (trailing back).Steady (connect (trailing back).code) := by decide +kernel
  have verified : (trailing idle).verify = .ok .verified := by decide +kernel
  have verified' : (trailing back).verify = .ok .verified := by decide +kernel
  exact ⟨agree, steady, steady', _, _, verified, verified',
    report_eq_of_agree agree steady steady' verified verified'⟩

/-- Unless `v2` is zero `v0` becomes an int, and otherwise a long; then `v0` and `v1` are written
anew and `v0` is returned.  After that a jump is never reached. -/
def partition (target : UInt64) : Method where
  name := "partition"
  registers := ⟨3, [⟨⟨2⟩, .int⟩], Register.File.accepted_three⟩
  returns := .int
  code := #[
    ⟨⟨"if-eqz", .ifZero, [Opcode.reads .int]⟩, [⟨2⟩], [3], 0⟩,
    ⟨⟨"const/4", .const, [Opcode.writes .int]⟩, [⟨0⟩], [], 0⟩,
    ⟨⟨"goto", .goto, []⟩, [], [4], 0⟩,
    ⟨⟨"const-wide", .const, [Opcode.writes .long]⟩, [⟨0⟩], [], 0⟩,
    ⟨⟨"const/4", .const, [Opcode.writes .int]⟩, [⟨0⟩], [], 0⟩,
    ⟨⟨"const/4", .const, [Opcode.writes .int]⟩, [⟨1⟩], [], 0⟩,
    ⟨⟨"return", .returnValue, [Opcode.reads .narrow]⟩, [⟨0⟩], [], 0⟩,
    ⟨⟨"goto", .goto, []⟩, [], [target], 0⟩]

/-- **Code that control never reaches may show in the report.**  Where the jump cuts the block that
both ways come to, the `⊤` made of the long's high half goes on to the second part and stays there.
Where it does not, the block is entered with that half alone in `v1`, and the write of `v1` makes
`⊤` of `v0`. -/
theorem partition_differs : (partition 5).Agree (partition 7) ∧
    (partition 5).verify = .ok .verified ∧
    (partition 7).verify = .ok (.rejected (.ofDefect 6 (.undefinedRead ⟨0⟩ .conflict))) := by
  have built : Graph.build (partition 5).registers (partition 5).code =
      .ok (connect (partition 5).code) := by decide +kernel
  have same : ∀ pc < 7, (partition 7).code[pc]? = (partition 5).code[pc]? := by decide +kernel
  exact ⟨⟨rfl, rfl, rfl, built, by decide +kernel, by decide +kernel, by decide +kernel,
      by decide +kernel, by decide +kernel,
      fun pcs pc hpath => same pc (hpath.lt built (by decide) (by decide +kernel))⟩,
    by decide +kernel, by decide +kernel⟩

/-! ### Switches -/

/-- Methods whose code is rearranged are alike. -/
theorem alike_of_rearranged {m : Method} {code : Array Instruction}
    (hg : Graph.build m.registers m.code = .ok (connect m.code)) (hR : Rearranged m.code code) :
    Alike (fun _ => True) m (connect m.code) { m with code := code } (connect code) := by
  refine ⟨rfl, rfl, hR.size, fun _ => trivial, fun p i _ hi => ?_,
    fun p q _ hq => ⟨hR.passes hg hq, trivial⟩⟩
  obtain ⟨targets, hi', -⟩ := hR.instruction p i hi
  exact ⟨targets, hi'⟩

/-- **The order in which switches list their targets does not show in the report**, nor does a
target listed twice, if the method is steady both before and after. -/
theorem report_eq_of_rearranged {m : Method} {code : Array Instruction} {g : Graph}
    (hg : Graph.build m.registers m.code = .ok g)
    (htable : ∀ i ∈ m.code, i.opcode ∈ Opcode.table) (hR : Rearranged m.code code)
    (hsteady : m.Steady g) (hsteady' : ({ m with code := code } : Method).Steady (connect code))
    {report report' : Report} (hr : m.verify = .ok report)
    (hr' : ({ m with code := code } : Method).verify = .ok report') : report = report' := by
  obtain rfl := eq_connect_of_build hg
  have hg' : Graph.build m.registers code = .ok (connect code) := hR.build hg
  have htable' : ∀ i ∈ code, i.opcode ∈ Opcode.table := by
    intro i hi
    obtain ⟨p, hp⟩ := Array.mem_iff_getElem?.mp hi
    obtain ⟨targets, hi', -⟩ := hR.symm.instruction p i hp
    exact htable { i with targets := targets } (Array.mem_of_getElem? hi')
  have hA := alike_of_rearranged hg hR
  have hA' := alike_of_rearranged (m := { m with code := code }) hg' hR.symm
  exact hA.report_eq hA' htable htable' hsteady hsteady' hg hg' hr hr'

/-- One way or the other `v0` becomes an int, and is returned. -/
def dispatch (targets : List UInt64) : Method where
  name := "dispatch"
  registers := ⟨2, [⟨⟨1⟩, .int⟩], Register.File.accepted_two⟩
  returns := .int
  code := #[
    ⟨⟨"packed-switch", .switch, [Opcode.reads .int]⟩, [⟨1⟩], targets, 0⟩,
    ⟨⟨"return", .returnValue, [Opcode.reads .narrow]⟩, [⟨1⟩], [], 0⟩,
    ⟨⟨"const/4", .const, [Opcode.writes .int]⟩, [⟨0⟩], [], 0⟩,
    ⟨⟨"goto", .goto, []⟩, [], [5], 0⟩,
    ⟨⟨"move", .move, [Opcode.writes .narrow, Opcode.reads .narrow]⟩, [⟨0⟩, ⟨1⟩], [], 0⟩,
    ⟨⟨"return", .returnValue, [Opcode.reads .narrow]⟩, [⟨0⟩], [], 0⟩]

theorem report_eq_dispatch : ∃ g report report',
    Graph.build (dispatch [2, 4]).registers (dispatch [2, 4]).code = .ok g ∧
    Rearranged (dispatch [2, 4]).code (dispatch [4, 2, 4]).code ∧ (dispatch [2, 4]).Steady g ∧
    (dispatch [4, 2, 4]).Steady (connect (dispatch [4, 2, 4]).code) ∧
    (dispatch [2, 4]).verify = .ok report ∧ (dispatch [4, 2, 4]).verify = .ok report' ∧
    report = report' := by
  have built : Graph.build (dispatch [2, 4]).registers (dispatch [2, 4]).code =
      .ok (connect (dispatch [2, 4]).code) := by decide +kernel
  have rearranged : Rearranged (dispatch [2, 4]).code (dispatch [4, 2, 4]).code := by
    decide +kernel
  have steady : (dispatch [2, 4]).Steady (connect (dispatch [2, 4]).code) := by decide +kernel
  have steady' : (dispatch [4, 2, 4]).Steady (connect (dispatch [4, 2, 4]).code) := by
    decide +kernel
  have verified : (dispatch [2, 4]).verify = .ok .verified := by decide +kernel
  have verified' : (dispatch [4, 2, 4]).verify = .ok .verified := by decide +kernel
  exact ⟨_, _, _, built, rearranged, steady, steady', verified, verified',
    report_eq_of_rearranged built (by decide +kernel) rearranged steady steady' verified verified'⟩

/-- On one way `v0` becomes an int and on the other a long; then `v0` and `v1` are written anew, and
`v0` is returned. -/
def selection (targets : List UInt64) : Method where
  name := "selection"
  registers := ⟨3, [⟨⟨2⟩, .int⟩], Register.File.accepted_three⟩
  returns := .int
  code := #[
    ⟨⟨"packed-switch", .switch, [Opcode.reads .int]⟩, [⟨2⟩], targets, 0⟩,
    ⟨⟨"return", .returnValue, [Opcode.reads .narrow]⟩, [⟨2⟩], [], 0⟩,
    ⟨⟨"const-wide", .const, [Opcode.writes .long]⟩, [⟨0⟩], [], 0⟩,
    ⟨⟨"goto", .goto, []⟩, [], [5], 0⟩,
    ⟨⟨"const/4", .const, [Opcode.writes .int]⟩, [⟨0⟩], [], 0⟩,
    ⟨⟨"const/4", .const, [Opcode.writes .int]⟩, [⟨0⟩], [], 0⟩,
    ⟨⟨"goto", .goto, []⟩, [], [7], 0⟩,
    ⟨⟨"const/4", .const, [Opcode.writes .int]⟩, [⟨1⟩], [], 0⟩,
    ⟨⟨"return", .returnValue, [Opcode.reads .narrow]⟩, [⟨0⟩], [], 0⟩]

/-- **The order of targets may show in the report.**  If the way of the long is followed first, the
`⊤` made of its high half arrives at the write of `v1` and stays there.  If it is followed last,
that half arrives alone, and the write of `v1` makes `⊤` of `v0`. -/
theorem selection_differs :
    (∃ g, Graph.build (selection [2, 4]).registers (selection [2, 4]).code = .ok g) ∧
    (∀ i ∈ (selection [2, 4]).code, i.opcode ∈ Opcode.table) ∧
    Rearranged (selection [2, 4]).code (selection [4, 2]).code ∧
    (selection [2, 4]).verify = .ok (.rejected (.ofDefect 8 (.undefinedRead ⟨0⟩ .conflict))) ∧
    (selection [4, 2]).verify = .ok .verified :=
  ⟨⟨connect (selection [2, 4]).code, by decide +kernel⟩, by decide +kernel, by decide +kernel,
    by decide +kernel, by decide +kernel⟩

end Method

end BytecodeVerifier
