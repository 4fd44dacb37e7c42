import BytecodeVerifier.Proofs.Operands
import BytecodeVerifier.Proofs.Passage

/-!
# Steadiness — what an instruction leaves rises with what it is met with

Entry states only rise, and what a block leaves should rise with them.  It need not.  A write over
half of a pair makes `⊤` of the other half; but once the half written over has itself risen to `⊤`,
the same write finds no pair there and leaves the other half alone.  And a move writes two registers
whilst its source holds a low half, but one once the source has risen to `⊤`.

Of two adjacent slots one is written.  The other is *frail* when this makes `⊤` of it, but may not
in a higher state, or does not, but may in a lower one.  An instruction *unsettles* a state when it
writes a slot beside a frail one, or moves a value whose width is not that of its operands.
**Between states which it does not unsettle its effect is monotone** (`Instruction.effect_mono`).

A method is *steady* when solving it meets no instruction that unsettles a state.  This can be
decided, by listing the states in which instructions are met (`meetings`).
-/

namespace BytecodeVerifier

theorem Value.eq_conflict_of_le {v : Value} (h : conflict ≤ v) : v = conflict :=
  le_antisymm (le_conflict v) h

/-- What lies above a low half, and is a low half, is that half. -/
theorem Value.eq_of_le_of_isWideLow {v w : Value} (h : v ≤ w) (hv : v.isWideLow = true)
    (hw : w.isWideLow = true) : v = w := by
  rcases eq_or_uninitialized_of_le h (ne_conflict_of_isDefined (isDefined_of_isWideLow hw)) with
    e | e
  · exact e
  · rw [e] at hv
    cases hv

namespace Dataflow.State

/-! ### Frail slots -/

/-- The second of two slots is frail when the first is written: the first is a low half, and the
second neither its high half nor `⊤`; or the first is `⊤`, and the second a high half. -/
def FrailHigh (s : State) (j : Nat) : Prop :=
  ((s.valueAt j).isWideLow = true ∧ (s.valueAt j).high? ≠ some (s.valueAt (j + 1)) ∧
    s.valueAt (j + 1) ≠ .conflict) ∨
  (s.valueAt j = .conflict ∧ (s.valueAt (j + 1)).isWideHigh = true)

/-- The first of two slots is frail when the second is written: the second is a high half, and the
first neither its low half nor `⊤`; or the second is `⊤`, and the first a low half. -/
def FrailLow (s : State) (j : Nat) : Prop :=
  ((s.valueAt (j + 1)).isWideHigh = true ∧ (s.valueAt j).high? ≠ some (s.valueAt (j + 1)) ∧
    s.valueAt j ≠ .conflict) ∨
  (s.valueAt (j + 1) = .conflict ∧ (s.valueAt j).isWideLow = true)

instance (s : State) (j : Nat) : Decidable (s.FrailHigh j) := inferInstanceAs (Decidable (_ ∨ _))

instance (s : State) (j : Nat) : Decidable (s.FrailLow j) := inferInstanceAs (Decidable (_ ∨ _))

theorem FrailHigh.lt_size {s : State} {j : Nat} (h : s.FrailHigh j) : j < s.size := by
  refine lt_size_of_valueAt fun e => ?_
  rcases h with ⟨hlow, -⟩ | ⟨hc, -⟩
  · rw [e] at hlow
    cases hlow
  · rw [e] at hc
    cases hc

theorem FrailLow.lt_size {s : State} {j : Nat} (h : s.FrailLow j) : j < s.size := by
  refine Nat.lt_of_succ_lt (lt_size_of_valueAt fun e => ?_)
  rcases h with ⟨hhigh, -⟩ | ⟨hc, -⟩
  · rw [e] at hhigh
    cases hhigh
  · rw [e] at hc
    cases hc

section Rising

variable {s a : State} (hle : s ≤ a) {j : Nat}
include hle

/-- What a write of the first slot breaks below it breaks above, or finds lost, if the second is
frail in neither. -/
theorem isWideLow_or_conflict (hlow : (s.valueAt j).isWideLow = true) (hs : ¬ s.FrailHigh j)
    (ha : ¬ a.FrailHigh j) :
    (a.valueAt j).isWideLow = true ∨ a.valueAt (j + 1) = .conflict := by
  have hleft := Value.eq_or_conflict_of_le (valueAt_le hle j)
    (Value.ne_uninitialized_of_isDefined (Value.isDefined_of_isWideLow hlow))
  rcases hleft with e | e
  · exact .inl (e ▸ hlow)
  · right
    by_contra hne
    have hnext : s.valueAt (j + 1) ≠ .conflict := fun hc =>
      hne (Value.eq_conflict_of_le (hc ▸ valueAt_le hle (j + 1)))
    have hpair : (s.valueAt j).high? = some (s.valueAt (j + 1)) := by
      by_contra hmis
      exact hs (.inl ⟨hlow, hmis, hnext⟩)
    -- The pair is whole below, and above its high half alone is left.
    have hhigh := Value.isWideHigh_of_high? hpair
    rcases Value.eq_or_conflict_of_le (valueAt_le hle (j + 1))
      (Value.ne_uninitialized_of_isDefined (Value.isDefined_of_isWideHigh hhigh)) with er | er
    · exact ha (.inr ⟨e, er ▸ hhigh⟩)
    · exact hne er

/-- The same of a write of the second slot. -/
theorem isWideHigh_or_conflict (hhigh : (s.valueAt (j + 1)).isWideHigh = true)
    (hs : ¬ s.FrailLow j) (ha : ¬ a.FrailLow j) :
    (a.valueAt (j + 1)).isWideHigh = true ∨ a.valueAt j = .conflict := by
  have hright := Value.eq_or_conflict_of_le (valueAt_le hle (j + 1))
    (Value.ne_uninitialized_of_isDefined (Value.isDefined_of_isWideHigh hhigh))
  rcases hright with e | e
  · exact .inl (e ▸ hhigh)
  · right
    by_contra hne
    have hbefore : s.valueAt j ≠ .conflict := fun hc =>
      hne (Value.eq_conflict_of_le (hc ▸ valueAt_le hle j))
    have hpair : (s.valueAt j).high? = some (s.valueAt (j + 1)) := by
      by_contra hmis
      exact hs (.inl ⟨hhigh, hmis, hbefore⟩)
    have hlow := Value.isWideLow_of_high? hpair
    rcases Value.eq_or_conflict_of_le (valueAt_le hle j)
      (Value.ne_uninitialized_of_isDefined (Value.isDefined_of_isWideLow hlow)) with el | el
    · exact ha (.inr ⟨e, el ▸ hlow⟩)
    · exact hne el

end Rising

/-- Writing a value into a slot writes no slot beside a frail one. -/
structure Spares (s : State) (i : Nat) (v : Value) : Prop where
  after : ¬ s.FrailHigh i
  before : ∀ j, j + 1 = i → ¬ s.FrailLow j
  beyond : v.isWideLow = true → ¬ s.FrailHigh (i + 1)

section Mono

variable {s a : State} (hle : s ≤ a) {i : Nat} {v u : Value} (hwidth : u.isWideLow = v.isWideLow)
  (hs : s.Spares i v) (ha : a.Spares i u)
include hle hwidth hs ha

/-- **What a write spoils below it spoils above**, or finds `⊤` there. -/
theorem Spoils.mono {j : Nat} (h : s.Spoils i v j) : a.Spoils i u j ∨ a.valueAt j = .conflict := by
  rcases h with ⟨hhigh, rfl⟩ | ⟨hlow, rfl⟩ | ⟨hv, -, hlow, rfl⟩
  · rcases isWideHigh_or_conflict hle hhigh (hs.before j rfl) (ha.before j rfl) with h | h
    · exact .inl (.inl ⟨h, rfl⟩)
    · exact .inr h
  · rcases isWideLow_or_conflict hle hlow hs.after ha.after with h | h
    · exact .inl (.inr (.inl ⟨h, rfl⟩))
    · exact .inr h
  · have hu : u.isWideLow = true := hwidth.trans hv
    rcases isWideLow_or_conflict hle hlow (hs.beyond hv) (ha.beyond hu) with h | h
    · refine .inl (.inr (.inr ⟨hu, fun hl => ?_, h, rfl⟩))
      -- The high half of a low half that stands before another is frail.
      refine ha.after (.inl ⟨hl, fun hh => ?_, ?_⟩)
      · exact Value.not_isWideLow_of_isWideHigh (Value.isWideHigh_of_high? hh) h
      · exact Value.ne_conflict_of_isDefined (Value.isDefined_of_isWideLow h)
    · exact .inr h

/-- **Writing is monotone**, where it writes no slot beside a frail one. -/
theorem store_mono (hv : v ≤ u) (hroom : s.Room i v) (hroom' : a.Room i u) :
    s.store i v ≤ a.store i u := by
  refine ⟨by rw [size_store, size_store, size_eq_of_le hle], fun j => ?_⟩
  have habove (hj : j ≠ i) (hnext : u.isWideLow = true → j ≠ i + 1) :
      a.valueAt j ≤ (a.store i u).valueAt j := by
    by_cases hsp : a.Spoils i u j
    · rw [store_spoiled hroom' hsp hj hnext]
      exact Value.le_conflict _
    · exact le_of_eq (store_other hroom' hsp hj hnext).symm
  rcases store_cases hroom j with ⟨rfl, e⟩ | ⟨rfl, e⟩ | ⟨hj, hnext, hsp, e⟩ | ⟨hj, hnext, -, e⟩
  · rw [e, store_at hroom']
    exact hv
  · have hlow := Value.isWideLow_of_high? e
    obtain rfl := Value.eq_of_le_of_isWideLow hv hlow (hwidth.trans hlow)
    exact le_of_eq (store_next hroom' e).symm
  · rw [e]
    rw [← hwidth] at hnext
    rcases hsp.mono hle hwidth hs ha with hsp' | hc
    · exact le_of_eq (store_spoiled hroom' hsp' hj hnext).symm
    · rw [← hc]
      exact habove hj hnext
  · rw [e]
    rw [← hwidth] at hnext
    exact le_trans (valueAt_le hle j) (habove hj hnext)

end Mono

end Dataflow.State

/-! ### Instructions -/

namespace Instruction

open Dataflow ControlFlow

instance (i : Instruction) (k : Nat) : Decidable (i.Writes k) :=
  decidable_of_iff (∃ x ∈ i.opcode.operands.zip i.registers, x.1.isDefine = true ∧
    (k = x.2.toNat ∨ (x.1.constraint.isWide = true ∧ k = x.2.toNat + 1))) Prod.exists

/-- The instruction writes a slot beside a frail one, or moves a value whose width is not that of
its operands. -/
def Unsettles (i : Instruction) (s : State) : Prop :=
  (∃ j, (i.Writes j ∧ s.FrailHigh j) ∨ (i.Writes (j + 1) ∧ s.FrailLow j)) ∨
  (i.opcode.family = .move ∧ ∃ x ∈ i.opcode.operands.zip i.registers, x.1.isUse = true ∧
    (s.valueAt x.2.toNat).isWideLow ≠ x.1.constraint.isWide)

instance (i : Instruction) (s : State) : Decidable (i.Unsettles s) :=
  have bounded {j : Nat} : (i.Writes j ∧ s.FrailHigh j) ∨ (i.Writes (j + 1) ∧ s.FrailLow j) →
      j < s.size := by
    rintro (⟨-, h⟩ | ⟨-, h⟩)
    · exact h.lt_size
    · exact h.lt_size
  decidable_of_iff ((∃ j, j < s.size ∧
      ((i.Writes j ∧ s.FrailHigh j) ∨ (i.Writes (j + 1) ∧ s.FrailLow j))) ∨
    (i.opcode.family = .move ∧ ∃ x ∈ i.opcode.operands.zip i.registers, x.1.isUse = true ∧
      (s.valueAt x.2.toNat).isWideLow ≠ x.1.constraint.isWide))
    (or_congr_left ⟨fun ⟨j, _, h⟩ => ⟨j, h⟩, fun ⟨j, h⟩ => ⟨j, bounded h, h⟩⟩)

section Output

variable {i : Instruction} {o : Operand} {r : Register} {value : State → Value}
  (h : i.Output o r value)
include h

/-- An instruction that does not unsettle a state writes a value of the width of its operand, -/
theorem Output.isWideLow_value {s : State} (hs : ¬ i.Unsettles s) :
    (value s).isWideLow = o.constraint.isWide := by
  rcases h.source with ⟨-, v, hv, e⟩ | ⟨source, hf, hr, ho, e⟩
  · rw [e]
    exact Constraint.isWideLow_of_accepts hv
  · rw [e]
    by_contra hne
    refine hs (.inr ⟨hf, (Opcode.reads o.constraint, source), ?_, rfl, hne⟩)
    rw [ho, hr]
    exact List.mem_cons_of_mem _ List.mem_cons_self

/-- and no slot beside a frail one. -/
theorem Output.spares {s : State} (hs : ¬ i.Unsettles s) : s.Spares r.toNat (value s) := by
  have hwrites : i.Writes r.toNat := ⟨o, r, h.mem, h.isDefine, .inl rfl⟩
  refine ⟨?_, ?_, ?_⟩
  · intro hf
    exact hs (.inl ⟨_, .inl ⟨hwrites, hf⟩⟩)
  · intro j e hf
    exact hs (.inl ⟨j, .inr ⟨e ▸ hwrites, hf⟩⟩)
  · intro hlow hf
    rw [h.isWideLow_value hs] at hlow
    exact hs (.inl ⟨_, .inl ⟨⟨o, r, h.mem, h.isDefine, .inr ⟨hlow, rfl⟩⟩, hf⟩⟩)

/-- What is written rises with the state. -/
theorem Output.value_mono {s a : State} (hle : s ≤ a) : value s ≤ value a := by
  rcases h.source with ⟨-, v, -, e⟩ | ⟨source, -, -, -, e⟩
  · rw [e, e]
  · rw [e, e]
    exact State.valueAt_le hle _

end Output

/-- **The effect of an instruction is monotone** between states which it does not unsettle. -/
theorem effect_mono {i : Instruction} {file : Register.File} {length : Nat}
    (hreg : i.opcode.isRegular = true) (hst : i.Structured file length) {s a t u : State}
    (hsize : a.size = file.size.toNat) (hle : s ≤ a) (hs : ¬ i.Unsettles s)
    (ha : ¬ i.Unsettles a) (ht : i.effect s = .ok t) (hu : i.effect a = .ok u) : t ≤ u := by
  rcases effect_cases hreg hst with ⟨-, hnone⟩ | ⟨o, r, value, hout, hform⟩
  · obtain rfl : s = t := Except.ok.inj ((hnone s).symm.trans ht)
    obtain rfl : a = u := Except.ok.inj ((hnone a).symm.trans hu)
    exact hle
  · have hlt : a.size < UInt64.size := hsize ▸ file.size.toNat_lt_size
    have hsize' : s.size = a.size := State.size_eq_of_le hle
    rw [hform s (hsize'.trans hsize)] at ht
    rw [hform a hsize] at hu
    obtain ⟨hroom, rfl⟩ := (State.write_eq_ok_iff (hsize' ▸ hlt)).mp ht
    obtain ⟨hroom', rfl⟩ := (State.write_eq_ok_iff hlt).mp hu
    have hwidth : (value a).isWideLow = (value s).isWideLow :=
      (hout.isWideLow_value ha).trans (hout.isWideLow_value hs).symm
    exact State.store_mono hle hwidth (hout.spares hs) (hout.spares ha) (hout.value_mono hle) hroom
      hroom'

end Instruction

/-! ### Methods -/

namespace Method

open Dataflow ControlFlow

/-- Solving a method meets no instruction that unsettles a state. -/
def Steady (m : Method) (g : Graph) : Prop :=
  ∀ pc s i, m.Meets g (m.solve g).1 pc s → m.code[pc]? = some i → ¬ i.Unsettles s

/-- The states in which a visit meets the instructions of a block, each with its position. -/
def meetingsOf (m : Method) (g : Graph) (b : Nat) (s : State) : List (Nat × State) :=
  match g.blocks[b]? with
  | none => []
  | some block => block.positions.filterMap fun pc =>
      (m.effectAlong s (List.range' block.start (pc - block.start))).toOption.map (pc, ·)

/-- The states in which some visits meet instructions, each with its position. -/
def meetings (m : Method) (g : Graph) (events : List Event) : List (Nat × State) :=
  events.flatMap fun
    | .visiting b s => m.meetingsOf g b s
    | _ => []

theorem mem_meetingsOf_iff {m : Method} {g : Graph} {b : Nat} {s : State} {pc : Nat} {t : State} :
    (pc, t) ∈ m.meetingsOf g b s ↔ m.Leads g b s pc t := by
  have hpos {block : Block} : pc ∈ block.positions ↔ block.start ≤ pc ∧ pc < block.stop := by
    rw [Block.positions, Block.length, List.mem_range'_1]
    omega
  unfold meetingsOf
  constructor
  · intro h
    cases hb : g.blocks[b]? with
    | none =>
        rw [hb] at h
        cases h
    | some block =>
        rw [hb] at h
        obtain ⟨q, hq, hmap⟩ := List.mem_filterMap.mp h
        obtain ⟨u, hu, e⟩ := Option.map_eq_some_iff.mp hmap
        cases e
        refine ⟨block, hb, (hpos.mp hq).1, (hpos.mp hq).2, ?_⟩
        cases he : m.effectAlong s (List.range' block.start (pc - block.start)) with
        | error f =>
            rw [he] at hu
            cases hu
        | ok v =>
            rw [he] at hu
            cases hu
            rfl
  · rintro ⟨block, hb, hlo, hhi, he⟩
    rw [hb]
    refine List.mem_filterMap.mpr ⟨pc, hpos.mpr ⟨hlo, hhi⟩, ?_⟩
    rw [he]
    rfl

theorem mem_meetings_iff {m : Method} {g : Graph} {events : List Event} {pc : Nat} {t : State} :
    (pc, t) ∈ m.meetings g events ↔ m.Meets g events pc t := by
  unfold meetings
  rw [List.mem_flatMap]
  constructor
  · rintro ⟨event, hevent, hmem⟩
    cases event with
    | visiting b s => exact ⟨b, s, hevent, mem_meetingsOf_iff.mp hmem⟩
    | malformed v => cases hmem
    | skipping b => cases hmem
    | rejecting b v => cases hmem
  · rintro ⟨b, s, hevent, hl⟩
    exact ⟨_, hevent, mem_meetingsOf_iff.mpr hl⟩

instance (m : Method) (g : Graph) : Decidable (m.Steady g) :=
  decidable_of_iff (∀ x ∈ m.meetings g (m.solve g).1, ∀ i ∈ m.code[x.1]?, ¬ i.Unsettles x.2)
    ⟨fun h pc s i hm hi => h (pc, s) (mem_meetings_iff.mpr hm) i hi,
      fun h x hx i hi => h x.1 x.2 i (mem_meetings_iff.mp hx) hi⟩

end Method

end BytecodeVerifier
