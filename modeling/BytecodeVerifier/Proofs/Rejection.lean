import BytecodeVerifier.Opcode.Table
import BytecodeVerifier.Proofs.Entry
import BytecodeVerifier.Proofs.Verdict
import Mathlib.Order.Bounds.Basic

/-!
# Rejection — the violation which is reported is the first one

Instructions are looked at three times: for their structure, whilst the entry states settle, and in
the settled states.  The first and the last of these may reject a method, and **both do so for the
least position at which anything is wrong** (`report_foremost`).

The structure of every instruction is looked at, also where control never comes, and the first one
at fault is reported before anything else (`build_eq_error`).  The settled states are looked at
block by block, blocks ascend with the positions of their instructions, and only those are passed
over of which no instruction has a settled state (`Solved.visited_iff_settledAt`).
-/

namespace BytecodeVerifier

open Dataflow ControlFlow

/-! ### Structure -/

/-- What the structure of an instruction can be at fault for, in code of `length` instructions. -/
inductive Instruction.Malformed (file : Register.File) (length : Nat) (i : Instruction) :
    Defect → Prop where
  | arity : i.registers.length ≠ i.opcode.operands.length →
      i.Malformed file length
        (.registerCount i.opcode.mnemonic i.opcode.operands.length i.registers.length)
  | register {o : Operand} {r : Register} : (o, r) ∈ i.opcode.operands.zip i.registers →
      file.size.toNat ≤ r.toNat → i.Malformed file length (.registerRange r file.size)
  | pair {o : Operand} {r : Register} : (o, r) ∈ i.opcode.operands.zip i.registers →
      o.constraint.isWide = true → r.toNat < file.size.toNat → file.size.toNat ≤ r.toNat + 1 →
      i.Malformed file length (.pairRange r file.size)
  | target {t : UInt64} : t ∈ i.targets → length ≤ t.toNat →
      i.Malformed file length (.targetRange t length)

namespace Instruction

theorem Malformed.not_structured {file : Register.File} {length : Nat} {i : Instruction}
    {d : Defect} (h : i.Malformed file length d) : ¬ i.Structured file length := by
  intro hs
  cases h with
  | arity hne => exact hne hs.arity
  | register hm hle => exact absurd (hs.register _ _ hm) (Nat.not_lt.mpr hle)
  | pair hm hw _ hle => exact absurd (hs.pair _ _ hm hw) (Nat.not_lt.mpr hle)
  | target ht hle => exact absurd (hs.target _ ht) (Nat.not_lt.mpr hle)

theorem Malformed.kind {file : Register.File} {length : Nat} {i : Instruction} {d : Defect}
    (h : i.Malformed file length d) : d.kind = .registerOutOfRange := by
  cases h <;> rfl

theorem malformed_of_structuralDefect? {file : Register.File} {length : Nat} {i : Instruction}
    {d : Defect} (h : i.structuralDefect? file length = some d) : i.Malformed file length d := by
  unfold structuralDefect? at h
  simp only at h
  split at h
  · next harity =>
      cases h
      exact .arity harity
  · split at h
    · next d' hd =>
        cases h
        obtain ⟨⟨o, r⟩, hm, hd⟩ := List.exists_of_findSome?_eq_some hd
        -- An operand is at fault for its register, or only for the other half of its pair.
        unfold operandDefect? at hd
        split at hd
        · next hr =>
            cases hd
            rw [Bool.not_eq_true', Bool.eq_false_iff, ne_eq, Register.File.inRange_iff] at hr
            exact .register hm (Nat.not_lt.mp hr)
        · next hr =>
            split at hd
            · next hpair =>
                cases hd
                rw [Bool.and_eq_true, Bool.not_eq_true', Bool.eq_false_iff, ne_eq,
                  Register.File.inRange_iff] at hpair
                have hr' : r.toNat < file.size.toNat := by
                  simpa [Register.File.inRange_iff] using hr
                rw [Register.toNat_next hr' file.size.toNat_lt_size] at hpair
                exact .pair hm hpair.1 hr' (Nat.not_lt.mp hpair.2)
            · cases hd
    · obtain ⟨t, ht, rfl⟩ := Option.map_eq_some_iff.mp h
      exact .target (List.mem_of_find?_eq_some ht) (by simpa using List.find?_some ht)

end Instruction

namespace ControlFlow

/-- **Why no graph is built**: for the first instruction which is not structured. -/
theorem build_eq_error {file : Register.File} {code : Array Instruction} {v : Violation}
    (h : Graph.build file code = .error v) :
    ∃ pc i d, code[pc]? = some i ∧ i.Malformed file code.size d ∧ v = .ofDefect pc d ∧
      ∀ q < pc, ∀ j, code[q]? = some j → j.Structured file code.size := by
  have hfound : structuralViolation? file code = some v := by
    unfold Graph.build at h
    split at h
    · next hv => cases h; exact hv
    · cases h
  unfold structuralViolation? at hfound
  obtain ⟨before, ⟨i, pc⟩, after, hsplit, hv, hbefore⟩ := List.findSome?_eq_some_iff.mp hfound
  obtain ⟨d, hd, rfl⟩ := Option.map_eq_some_iff.mp hv
  have hget : ∀ q : Nat, code.toList.zipIdx[q]? = code[q]?.map (·, q) := fun q => by simp
  have hpc : code.toList.zipIdx[before.length]? = some (i, pc) := by simp [hsplit]
  rw [hget, Option.map_eq_some_iff] at hpc
  obtain ⟨j, hj, e⟩ := hpc
  cases e
  refine ⟨_, i, d, hj, Instruction.malformed_of_structuralDefect? hd, rfl, fun q hq j hj => ?_⟩
  have hmem : (j, q) ∈ before := by
    have hq' := hget q
    rw [hj, hsplit, List.getElem?_append_left hq] at hq'
    exact List.mem_of_getElem? hq'
  have hnone := hbefore _ hmem
  rw [Option.map_eq_none_iff] at hnone
  exact Instruction.structuralDefect?_eq_none_iff.mp hnone

end ControlFlow

namespace Method

/-- The instruction at a position is not structured: its registers are not as many as its operands,
a register or the other half of a pair lies outside the file, or a target outside the code. -/
def MalformedAt (m : Method) (pc : Nat) : Prop :=
  ∃ i, m.code[pc]? = some i ∧ ¬ i.Structured m.registers m.code.size

/-- A method is rejected for the first instruction which is not structured. -/
theorem verify_of_malformed {m : Method} (h : ∃ pc, m.MalformedAt pc) :
    ∃ v, m.verify = .ok (.rejected v) ∧ v.kind = .registerOutOfRange ∧
      IsLeast {pc | m.MalformedAt pc} v.index := by
  cases hg : Graph.build m.registers m.code with
  | ok g =>
      obtain ⟨pc, i, hi, hnot⟩ := h
      exact absurd (structured_of_build hg hi) hnot
  | error v =>
      obtain ⟨pc, i, d, hi, hd, rfl, hbefore⟩ := build_eq_error hg
      refine ⟨_, by rw [verify, trace, hg], hd.kind, ⟨i, hi, hd.not_structured⟩, fun q hq => ?_⟩
      obtain ⟨j, hj, hnot⟩ := hq
      by_contra hlt
      exact hnot (hbefore q (Nat.not_le.mp hlt) j hj)

/-- Every other method has a graph. -/
theorem build_of_not_malformed {m : Method} (h : ¬ ∃ pc, m.MalformedAt pc) :
    Graph.build m.registers m.code = .ok (connect m.code) :=
  build_eq_ok_iff.mpr ⟨fun pc i hi => by_contra fun hnot => h ⟨pc, i, hi, hnot⟩, rfl⟩

/-! ### Settled states -/

namespace Solved

variable {m : Method} {g : Graph} {s₀ : State} {events : List Event} {w : Worklist}
  (h : m.Solved g s₀ events w)
include h

/-- The instructions of a visited block, and no others, have settled states. -/
theorem visited_iff_settledAt {b pc : Nat} {block : Block} (hb : g.blocks[b]? = some block)
    (hlo : block.start ≤ pc) (hhi : pc < block.stop) :
    w.visited.contains b = true ↔ ∃ s, m.SettledAt g w pc s := by
  rw [h.fits.visited b]
  constructor
  · rintro ⟨e, he⟩
    obtain ⟨block', exit, hb', hexit, -⟩ := h.covers b e he
      (by rw [h.done]; exact List.not_mem_nil)
    obtain rfl : block = block' := Option.some.inj (hb.symm.trans hb')
    obtain ⟨i, hi⟩ := exists_instruction h.built hb hhi
    obtain ⟨s, hs, -⟩ := exists_leads hb hexit hlo hhi hi
    exact ⟨s, b, e, he, hs⟩
  · rintro ⟨s, c, e, he, block', hc, hlo', hhi', -⟩
    obtain rfl := block_unique h.built hb hlo hhi hc hlo' hhi'
    exact ⟨e, he⟩

/-- A report is of the first instruction which fails its check in its settled state. -/
theorem report_isLeast {report : Report} (hr : m.verify = .ok report) :
    (∃ pc d, report = .rejected (.ofDefect pc d) ∧ m.Fails g w pc d ∧
      IsLeast {q | ∃ d', m.Fails g w q d'} pc) ∨
    report = .verified ∧ ¬ ∃ pc d, m.Fails g w pc d := by
  rcases h.report_cases hr with ⟨rfl, hclear⟩ | ⟨pc, d, rfl, hfails, hbefore⟩
  · exact .inr ⟨rfl, fun ⟨pc, d, hd⟩ => (hclear pc).not_fails d hd⟩
  · refine .inl ⟨pc, d, rfl, hfails, ⟨d, hfails⟩, fun q ⟨d', hd'⟩ => ?_⟩
    by_contra hlt
    exact (hbefore q (Nat.not_le.mp hlt)).not_fails d' hd'

end Solved

/-! ### The first violation -/

/-- **The violation reported is the first one.**  Where the structure of some instruction is at
fault, reachable or not, the method is rejected for the first such instruction.  Otherwise, where
there is a report, it is of the first instruction in a visited block which fails its check in the
state that the instructions before it make of the block's settled entry state; the method is
verified if there is none. -/
theorem report_foremost (m : Method) :
    ((∃ pc, m.MalformedAt pc) →
      ∃ v, m.verify = .ok (.rejected v) ∧ v.kind = .registerOutOfRange ∧
        IsLeast {pc | m.MalformedAt pc} v.index) ∧
    ((¬ ∃ pc, m.MalformedAt pc) → ∀ report, m.verify = .ok report →
      ∃ g events w, Graph.build m.registers m.code = .ok g ∧ m.solve g = (events, .ok w) ∧
        (∀ b block pc, g.blocks[b]? = some block → block.start ≤ pc → pc < block.stop →
          (w.visited.contains b = true ↔ ∃ s, m.SettledAt g w pc s)) ∧
        ((∃ pc d, report = .rejected (.ofDefect pc d) ∧ m.Fails g w pc d ∧
            IsLeast {q | ∃ d', m.Fails g w q d'} pc) ∨
          report = .verified ∧ ¬ ∃ pc d, m.Fails g w pc d)) := by
  refine ⟨verify_of_malformed, fun hnone report hr => ?_⟩
  obtain ⟨s₀, events, w, h⟩ := solved_of_report (build_of_not_malformed hnone) hr
  exact ⟨_, events, w, h.built, h.solve, fun b block pc hb hlo hhi =>
    h.visited_iff_settledAt hb hlo hhi, h.report_isLeast hr⟩

/-- Both arms return what was never written; the second one is visited first. -/
def twofold : Method where
  name := "twofold"
  registers := ⟨3, [⟨⟨2⟩, .int⟩], Register.File.accepted_three⟩
  returns := .int
  code := #[
    ⟨⟨"if-eqz", .ifZero, [Opcode.reads .int]⟩, [⟨2⟩], [3], 0⟩,
    ⟨⟨"return", .returnValue, [Opcode.reads .narrow]⟩, [⟨0⟩], [], 0⟩,
    ⟨⟨"nop", .nop, []⟩, [], [], 0⟩,
    ⟨⟨"return", .returnValue, [Opcode.reads .narrow]⟩, [⟨1⟩], [], 0⟩]

/-- The first instruction fails its check, and of those which are never reached two are not
structured. -/
def misshapen : Method where
  name := "misshapen"
  registers := ⟨3, [⟨⟨2⟩, .int⟩], Register.File.accepted_three⟩
  returns := .int
  code := #[
    ⟨⟨"return", .returnValue, [Opcode.reads .narrow]⟩, [⟨0⟩], [], 0⟩,
    ⟨⟨"return-wide", .returnValue, [Opcode.reads .wide]⟩, [⟨2⟩], [], 0⟩,
    ⟨⟨"goto", .goto, []⟩, [], [9], 0⟩]

theorem twofold_foremost :
    (∃ v, misshapen.verify = .ok (.rejected v) ∧ v.kind = .registerOutOfRange ∧
      IsLeast {pc | misshapen.MalformedAt pc} v.index) ∧
    twofold.verify = .ok (.rejected (.ofDefect 1 (.undefinedRead ⟨0⟩ .uninitialized))) ∧
    ∃ g events w, Graph.build twofold.registers twofold.code = .ok g ∧
      twofold.solve g = (events, .ok w) ∧ ∃ pc d,
        .ofDefect 1 (.undefinedRead ⟨0⟩ .uninitialized) = Violation.ofDefect pc d ∧
        twofold.Fails g w pc d ∧ IsLeast {q | ∃ d', twofold.Fails g w q d'} pc := by
  have malformed : ∃ pc, misshapen.MalformedAt pc :=
    ⟨2, _, rfl, fun h => absurd (h.target 9 List.mem_cons_self) (by decide)⟩
  have rejected : twofold.verify =
      .ok (.rejected (.ofDefect 1 (.undefinedRead ⟨0⟩ .uninitialized))) := by decide +kernel
  have structured : ¬ ∃ pc, twofold.MalformedAt pc := by
    rintro ⟨pc, i, hi, hnot⟩
    have built : Graph.build twofold.registers twofold.code = .ok (connect twofold.code) := by
      decide +kernel
    exact hnot (structured_of_build built hi)
  obtain ⟨g, events, w, built, solved, -, ⟨pc, d, e, fails, least⟩ | ⟨e, -⟩⟩ :=
    (report_foremost twofold).2 structured _ rejected
  · exact ⟨(report_foremost misshapen).1 malformed, rejected, g, events, w, built, solved, pc, d,
      Report.rejected.inj e, fails, least⟩
  · cases e

end Method

end BytecodeVerifier
