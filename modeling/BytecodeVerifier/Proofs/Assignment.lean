import BytecodeVerifier.Proofs.Operands
import BytecodeVerifier.Proofs.Soundness

/-!
# Assignment — what has been written where a register is read

A merge takes `⊥` for no value at all, so a register which only one of two paths writes counts as
written where they meet.  Hence a verified method may read a register which the path taken never
wrote (`not_assigned_shortcut`).  What holds instead is `verified_assigned`:

* every slot that is read is a parameter's, or *some* way through the graph writes it before;
* it is a parameter's or was written on the path taken, up to the first read of a register which
  this path never wrote.

For the first, what a run of the analysis has in a slot must come from a write to that slot.  A
write may reach the slot after its register, if it writes a low half; that the operand was a wide
one is known of the settled states only, which pass their checks.  `Follows` carries this over to
the states met before.
-/

namespace BytecodeVerifier

open Dataflow ControlFlow

/-! ### States met and the settled state -/

namespace Dataflow.State

/-- How a state met in a run stands to the settled one: each slot lies below, or has come to
conflict on its own, or is the second slot of a pair which is settled there. -/
structure Follows (s a : State) : Prop where
  size : s.size = a.size
  slot : ∀ k, s.valueAt k ≤ a.valueAt k ∨ s.valueAt k = .conflict ∨
    (a.valueAt k).isWideHigh = true

namespace Follows

theorem of_le {s a : State} (h : s ≤ a) : Follows s a :=
  ⟨size_eq_of_le h, fun k => .inl (valueAt_le h k)⟩

theorem mono {s a a' : State} (h : Follows s a) (hle : a ≤ a') : Follows s a' := by
  refine ⟨h.size.trans (size_eq_of_le hle), fun k => ?_⟩
  rcases h.slot k with hk | hk | hk
  · exact .inl (le_trans hk (valueAt_le hle k))
  · exact .inr (.inl hk)
  · have hne := Value.ne_uninitialized_of_isDefined (Value.isDefined_of_isWideHigh hk)
    rcases Value.eq_or_conflict_of_le (valueAt_le hle k) hne with e | e
    · exact .inr (.inr (e ▸ hk))
    · rw [e]
      exact .inl (Value.le_conflict _)

theorem merge {s t a : State} (hs : Follows s a) (ht : Follows t a) : Follows (s.merge t) a := by
  refine ⟨by rw [size_merge, hs.size], fun k => ?_⟩
  rw [valueAt_merge (Nat.le_of_eq (ht.size.trans hs.size.symm))]
  rcases hs.slot k with hk | hk | hk
  · rcases ht.slot k with hk' | hk' | hk'
    · exact .inl (Value.join_le hk hk')
    · rw [hk']
      exact .inr (.inl (le_antisymm (Value.le_conflict _) (Value.le_join_right _ _)))
    · exact .inr (.inr hk')
  · rw [hk]
    exact .inr (.inl (le_antisymm (Value.le_conflict _) (Value.le_join_left _ _)))
  · exact .inr (.inr hk)

/-- What is read in the settled state is there already, or conflicts, or is not there yet. -/
theorem cases_of_accepts {s a : State} (h : Follows s a) {k : Nat} {c : Constraint}
    (hacc : c.accepts (a.valueAt k) = true) :
    s.valueAt k = a.valueAt k ∨ s.valueAt k = .uninitialized ∨ s.valueAt k = .conflict := by
  rcases h.slot k with hk | hk | hk
  · rcases Value.eq_or_uninitialized_of_le hk
      (Value.ne_conflict_of_isDefined (Constraint.isDefined_of_accepts hacc)) with e | e
    · exact .inl e
    · exact .inr (.inl e)
  · exact .inr (.inr hk)
  · exact absurd hk (Constraint.not_isWideHigh_of_accepts hacc)

/-- Writing into both states keeps this, if what is written into the first is written into the
second too, or conflicts, or is nothing. -/
theorem store {s a : State} (h : Follows s a) {i : Nat} {v u : Value} (hs : s.Room i v)
    (ha : a.Room i u) (hvu : v = u ∨ v = .uninitialized ∨ v = .conflict) :
    Follows (s.store i v) (a.store i u) := by
  refine ⟨by rw [size_store, size_store, h.size], fun j => ?_⟩
  rcases store_cases ha j with ⟨rfl, e⟩ | ⟨rfl, e⟩ | ⟨-, -, -, e⟩ | ⟨hj, hnext, -, e⟩
  · rw [e, store_at hs]
    rcases hvu with rfl | rfl | rfl
    · exact .inl (le_refl v)
    · exact .inl (Value.uninitialized_le u)
    · exact .inr (.inl rfl)
  · exact .inr (.inr (Value.isWideHigh_of_high? e))
  · rw [e]
    exact .inl (Value.le_conflict _)
  · rcases store_cases hs j with ⟨rfl, -⟩ | ⟨rfl, e'⟩ | ⟨-, -, -, e'⟩ | ⟨-, -, -, e'⟩
    · exact absurd rfl hj
    · -- A low half is written into the first state, so into the second.
      have hlow := Value.isWideLow_of_high? e'
      rcases hvu with rfl | rfl | rfl
      · exact absurd rfl (hnext hlow)
      · cases hlow
      · cases hlow
    · exact .inr (.inl e')
    · rw [e, e']
      exact h.slot j

end Follows

end Dataflow.State

namespace Instruction.Output

variable {i : Instruction} {o : Operand} {r : Register} {value : State → Value}

/-- The cases of a slot after a write, if no low half is written for an operand that is not wide:
the instruction writes the slot, spoils it, or leaves it alone. -/
theorem slot_cases (h : i.Output o r value) {s : State} (hroom : s.Room r.toNat (value s))
    (hlow : (value s).isWideLow = true → o.constraint.isWide = true) (k : Nat) :
    i.Writes k ∨ (s.Spoils r.toNat (value s) k ∧
      (s.store r.toNat (value s)).valueAt k = .conflict) ∨
      (s.store r.toNat (value s)).valueAt k = s.valueAt k := by
  rcases State.store_cases hroom k with ⟨rfl, -⟩ | ⟨rfl, e⟩ | ⟨-, -, hsp, e⟩ | ⟨-, -, -, e⟩
  · exact .inl ⟨o, r, h.mem, h.isDefine, .inl rfl⟩
  · exact .inl ⟨o, r, h.mem, h.isDefine, .inr ⟨hlow (Value.isWideLow_of_high? e), rfl⟩⟩
  · exact .inr (.inl ⟨hsp, e⟩)
  · exact .inr (.inr e)

/-- What is written into a state that follows another, which the operand accepts there. -/
theorem follows (h : i.Output o r value) {s a : State} (hfollows : State.Follows s a)
    (hacc : o.constraint.accepts (value a) = true) :
    value s = value a ∨ value s = .uninitialized ∨ value s = .conflict := by
  rcases h.source with ⟨-, v, -, e⟩ | ⟨source, -, -, -, e⟩
  · exact .inl ((e s).trans (e a).symm)
  · rw [e a] at hacc ⊢
    rw [e s]
    exact hfollows.cases_of_accepts hacc

end Instruction.Output

namespace Method

/-! ### Ways through the graph -/

/-- A way through the graph from the entry: positions passed, and the one come to. -/
inductive Route (g : Graph) : List Nat → Nat → Prop where
  | entry : Route g [] 0
  | step {pcs : List Nat} {p q : Nat} : Route g pcs p → g.Passes p q → Route g (pcs ++ [p]) q

/-- Where only branches have targets, a way through the graph is a path. -/
theorem path_of_route {m : Method} {g : Graph} (hg : Graph.build m.registers m.code = .ok g)
    (hbr : OnlyBranchesHaveTargets m.code) (hne : 0 < m.code.size) {pcs : List Nat} {pc : Nat}
    (h : Route g pcs pc) : m.Path pcs pc := by
  induction h with
  | entry => exact .entry hne
  | step _ hq ih => exact .step ih (flow_of_passes hg hbr hq)

/-- The slot is a parameter's, or an instruction at one of some positions writes it. -/
def AssignedOn (m : Method) (pcs : List Nat) (k : Nat) : Prop :=
  (∃ p ∈ m.registers.parameters, p.Occupies k) ∨
    ∃ pc ∈ pcs, ∃ i, m.code[pc]? = some i ∧ i.Writes k

theorem AssignedOn.append {m : Method} {pcs : List Nat} {k : Nat} (h : m.AssignedOn pcs k)
    (rest : List Nat) : m.AssignedOn (pcs ++ rest) k := by
  rcases h with h | ⟨pc, hpc, h⟩
  · exact .inl h
  · exact .inr ⟨pc, List.mem_append_left _ hpc, h⟩

theorem assignedOn_of_writes {m : Method} {pc k : Nat} {i : Instruction}
    (hi : m.code[pc]? = some i) (hk : i.Writes k) (pcs : List Nat) :
    m.AssignedOn (pcs ++ [pc]) k :=
  .inr ⟨pc, List.mem_append_right _ List.mem_cons_self, i, hi, hk⟩

/-! ### On one path -/

section Built

variable {m : Method} {g : Graph} (hg : Graph.build m.registers m.code = .ok g)
  (htable : ∀ i ∈ m.code, i.opcode ∈ Opcode.table)
include hg htable

/-- What a slot holds after an instruction on a path, the instruction wrote or the slot held
something before. -/
theorem assigned_step {pc : Nat} {i : Instruction} (hi : m.code[pc]? = some i) {t t' : State}
    (hsize : t.size = m.registers.size.toNat) (hp : t.Paired)
    (hc : i.check m.returns t = .ok none) (he : i.effect t = .ok t') {k : Nat}
    (hk : t'.valueAt k ≠ .uninitialized) : i.Writes k ∨ t.valueAt k ≠ .uninitialized := by
  have hreg := Opcode.isRegular_of_getElem? htable hi
  rcases Instruction.effect_cases hreg (structured_of_build hg hi) with
    ⟨-, h⟩ | ⟨o, r, value, h, hform⟩
  · obtain rfl : t = t' := Except.ok.inj ((h t).symm.trans he)
    exact .inr hk
  · have hlt : t.size < UInt64.size := hsize ▸ m.registers.size.toNat_lt_size
    rw [hform t hsize] at he
    obtain ⟨hroom, rfl⟩ := (State.write_eq_ok_iff hlt).mp he
    have hacc := h.accepts hlt hreg hc
    rcases h.slot_cases hroom (fun hl => Constraint.isWideLow_of_accepts hacc ▸ hl) k with
      hw | ⟨hsp, -⟩ | e
    · exact .inl hw
    · exact .inr (Value.ne_uninitialized_of_isDefined (hp.isDefined_of_spoils hsp))
    · exact .inr (e ▸ hk)

/-- **On a path without a violation** what a slot holds was put there by the entry or on the
path. -/
theorem Path.assigned {s₀ : State} (hs₀ : m.initialState = .ok s₀) {pcs : List Nat} {pc : Nat}
    (hpath : m.Path pcs pc) {t : State} (hc : m.checkAlong s₀ pcs = .ok none)
    (he : m.effectAlong s₀ pcs = .ok t) :
    t.Paired ∧ ∀ k, t.valueAt k ≠ .uninitialized → m.AssignedOn pcs k := by
  induction hpath generalizing t with
  | entry _ =>
      cases he
      exact ⟨paired_initialState hs₀, fun k hk => .inl (occupied_of_initialState hs₀ hk)⟩
  | @step pcs p q _ hflow ih =>
      obtain ⟨i, hi⟩ := hflow.exists_instruction
      obtain ⟨hc, u, t', hu, hpass, he'⟩ := (checkAlong_concat_eq_none_iff hi).mp hc
      obtain ⟨hp, hassigned⟩ := ih hc hu
      obtain rfl : t' = t :=
        Except.ok.inj (((effectAlong_concat_eq_ok_iff hi).mpr ⟨u, hu, he'⟩).symm.trans he)
      have hsize : u.size = m.registers.size.toNat := by
        rw [size_effectAlong hu, size_initialState hs₀]
      obtain ⟨u', hu', hp'⟩ := Instruction.exists_effect_of_check
        (Opcode.isRegular_of_getElem? htable hi) (structured_of_build hg hi) hsize hp hpass
      obtain rfl : u' = t' := Except.ok.inj (hu'.symm.trans he')
      refine ⟨hp', ?_⟩
      intro k hk
      rcases assigned_step hg htable hi hsize hp hpass he' hk with hw | hk
      · exact assignedOn_of_writes hi hw pcs
      · exact (hassigned k hk).append [p]

end Built

/-! ### On some way through the graph -/

/-- Some way through the graph to the position puts something into the slot. -/
def AssignedTo (m : Method) (g : Graph) (pc k : Nat) : Prop :=
  ∃ pcs, Route g pcs pc ∧ m.AssignedOn pcs k

theorem AssignedTo.step {m : Method} {g : Graph} {p q k : Nat} (h : m.AssignedTo g p k)
    (hpass : g.Passes p q) : m.AssignedTo g q k := by
  obtain ⟨pcs, hroute, hk⟩ := h
  exact ⟨pcs ++ [p], .step hroute hpass, hk.append [p]⟩

/-- What is known of every state that a run meets: its values were put there on some way to the
instruction, and it follows the settled state. -/
structure Traced (m : Method) (g : Graph) (w : Worklist) (pc : Nat) (s : State) : Prop where
  route : ∃ pcs, Route g pcs pc
  assigned : ∀ k, (s.valueAt k).isDefined = true → m.AssignedTo g pc k
  follows : ∃ a, m.SettledAt g w pc a ∧ State.Follows s a

section Solved

variable {m : Method} {g : Graph} {s₀ : State} {events : List Event} {w : Worklist}
  (h : m.Solved g s₀ events w)
include h

theorem traced_entry (hne : 0 < m.code.size) : m.Traced g w 0 s₀ := by
  obtain ⟨a, ha, hle⟩ := h.entry hne
  refine ⟨⟨[], .entry⟩, fun k hk => ⟨[], .entry, .inl ?_⟩, a, ha, .of_le hle⟩
  exact occupied_of_initialState h.initial (Value.ne_uninitialized_of_isDefined hk)

theorem Traced.merge {pc : Nat} {s t : State} (hs : m.Traced g w pc s) (ht : m.Traced g w pc t) :
    m.Traced g w pc (s.merge t) := by
  obtain ⟨a, ha, hsa⟩ := hs.follows
  obtain ⟨a', ha', hta⟩ := ht.follows
  obtain rfl := ha.unique h.built ha'
  refine ⟨hs.route, fun k hk => ?_, a, ha, hsa.merge hta⟩
  rw [State.valueAt_merge (Nat.le_of_eq (hta.size.trans hsa.size.symm))] at hk
  -- A value that two states merge to is that of one of them.
  rcases Value.join_cases (Value.ne_conflict_of_isDefined hk) with e | e
  · exact hs.assigned k (e ▸ hk)
  · exact ht.assigned k (e ▸ hk)

variable (htable : ∀ i ∈ m.code, i.opcode ∈ Opcode.table)
  (hcheck : ∀ pc a i, m.SettledAt g w pc a → m.code[pc]? = some i →
    i.check m.returns a = .ok none)
include htable hcheck

theorem Traced.step {p q : Nat} {i : Instruction} {s t : State} (hi : m.code[p]? = some i)
    (hs : m.Traced g w p s) (he : i.effect s = .ok t) (hpass : g.Passes p q) :
    m.Traced g w q t := by
  obtain ⟨pcs, hroute⟩ := hs.route
  obtain ⟨a, ha, hfollows⟩ := hs.follows
  obtain ⟨a', ha', hnext⟩ := h.step ha hi
  obtain ⟨b, hb, hle⟩ := hnext q hpass
  have hsizea := h.size_settledAt ha
  have hsize := hfollows.size.trans hsizea
  have hreg := Opcode.isRegular_of_getElem? htable hi
  have hpassed := hcheck p a i ha hi
  rcases Instruction.effect_cases hreg (structured_of_build h.built hi) with
    ⟨-, hnone⟩ | ⟨o, r, value, hout, hform⟩
  · obtain rfl : s = t := Except.ok.inj ((hnone s).symm.trans he)
    obtain rfl : a = a' := Except.ok.inj ((hnone a).symm.trans ha')
    exact ⟨⟨pcs ++ [p], .step hroute hpass⟩, fun k hk => (hs.assigned k hk).step hpass, b, hb,
      hfollows.mono hle⟩
  · -- The settled state passes its check, so a low half is written for a wide operand only.
    have hlt := m.registers.size.toNat_lt_size
    rw [hform s hsize] at he
    rw [hform a hsizea] at ha'
    obtain ⟨hroom, rfl⟩ := (State.write_eq_ok_iff (hsize ▸ hlt)).mp he
    obtain ⟨hrooma, rfl⟩ := (State.write_eq_ok_iff (hsizea ▸ hlt)).mp ha'
    have hacc := hout.accepts (hsizea ▸ hlt) hreg hpassed
    have hvalue := hout.follows hfollows hacc
    have hlow : (value s).isWideLow = true → o.constraint.isWide = true := fun hl => by
      rcases hvalue with e | e | e
      · rw [← Constraint.isWideLow_of_accepts hacc, ← e, hl]
      · rw [e] at hl; cases hl
      · rw [e] at hl; cases hl
    refine ⟨⟨pcs ++ [p], .step hroute hpass⟩, fun k hk => ?_, b, hb,
      (hfollows.store hroom hrooma hvalue).mono hle⟩
    rcases hout.slot_cases hroom hlow k with hw | ⟨-, e⟩ | e
    · exact ⟨pcs ++ [p], .step hroute hpass, assignedOn_of_writes hi hw pcs⟩
    · rw [e] at hk
      cases hk
    · exact (hs.assigned k (e ▸ hk)).step hpass

/-- **The values of the settled states were put there** on some way through the graph. -/
theorem SettledAt.traced (hne : 0 < m.code.size) {pc : Nat} {a : State}
    (ha : m.SettledAt g w pc a) : m.Traced g w pc a := by
  refine solve_states h.built h.initial (fun pc s t _ _ hs ht => hs.merge h ht)
    (fun p q i s t hi _ hs he hpass => hs.step h htable hcheck hi he hpass)
    (traced_entry h hne) pc a ?_
  rw [h.solve]
  exact h.meets ha

end Solved

/-- **Assignment.**  Whatever slot an instruction of a verified method reads, at the end of whatever
path: it is a parameter's, or written before on some way through the graph, which is a path where
only branches have targets; and it is a parameter's or written before on the path taken, unless that
path reads a register never written on it, and finds nothing else at fault before. -/
theorem verified_assigned {m : Method} (hv : m.verify = .ok .verified)
    (htable : ∀ i ∈ m.code, i.opcode ∈ Opcode.table) {pcs : List Nat} {pc : Nat}
    (hpath : m.Path pcs pc) {i : Instruction} (hi : m.code[pc]? = some i) {k : Nat}
    (hk : i.Reads k) :
    ∃ g s, Graph.build m.registers m.code = .ok g ∧ m.initialState = .ok s ∧
      (∃ route, Route g route pc ∧ (OnlyBranchesHaveTargets m.code → m.Path route pc) ∧
        m.AssignedOn route k) ∧
      (m.AssignedOn pcs k ∨ m.ReadsUnwritten s (pcs ++ [pc])) := by
  obtain ⟨g, s, events, w, h, hcheck⟩ := solved_of_verified hv
  have hne := hpath.size_pos
  have hreg := Opcode.isRegular_of_getElem? htable hi
  refine ⟨g, s, h.built, h.initial, ?_, ?_⟩
  · obtain ⟨a, ha⟩ := hpath.exists_settledAt h
    have hsize : a.size < UInt64.size :=
      h.size_settledAt ha ▸ m.registers.size.toNat_lt_size
    obtain ⟨route, hroute, hassigned⟩ := (ha.traced h htable hcheck hne).assigned k
      (Instruction.isDefined_of_reads hsize hreg (hcheck pc a i ha hi) hk)
    exact ⟨route, hroute, fun hbr => path_of_route h.built hbr hne hroute, hassigned⟩
  · rcases hpath.replay h hcheck with hc | hread
    · obtain ⟨hc, t, -, ht, hpass, -⟩ := (checkAlong_concat_eq_none_iff hi).mp hc
      have hsize : t.size < UInt64.size := by
        rw [size_effectAlong ht, size_initialState h.initial]
        exact m.registers.size.toNat_lt_size
      have hdef := Instruction.isDefined_of_reads hsize hreg hpass hk
      exact .inl ((hpath.assigned h.built htable h.initial hc ht).2 k
        (Value.ne_uninitialized_of_isDefined hdef))
    · exact .inr hread

/-! ### A register written on one path only -/

/-- Unless `v2` is zero, `v0` is written; then it is returned. -/
def shortcut : Method where
  name := "shortcut"
  registers := ⟨3, [⟨⟨2⟩, .int⟩], Register.File.accepted_three⟩
  returns := .int
  code := #[
    ⟨⟨"if-eqz", .ifZero, [Opcode.reads .int]⟩, [⟨2⟩], [2], 0⟩,
    ⟨⟨"const/4", .const, [Opcode.writes .int]⟩, [⟨0⟩], [], 0⟩,
    ⟨⟨"return", .returnValue, [Opcode.reads .narrow]⟩, [⟨0⟩], [], 0⟩]

theorem verify_shortcut : shortcut.verify = .ok .verified := by decide +kernel

theorem mem_table_shortcut : ∀ i ∈ shortcut.code, i.opcode ∈ Opcode.table := by decide +kernel

/-- The path which leaves out the write. -/
theorem path_shortcut : shortcut.Path [0] 2 :=
  .step (.entry (by decide)) (.jump (t := 2) rfl rfl List.mem_cons_self)

/-- The result is read at the end. -/
theorem reads_shortcut (i : Instruction) (hi : shortcut.code[2]? = some i) : i.Reads 0 := by
  obtain rfl := Option.some.inj hi
  exact ⟨Opcode.reads .narrow, ⟨0⟩, List.mem_cons_self, rfl, .inl rfl⟩

theorem shortcut_assigned : ∃ g s, Graph.build shortcut.registers shortcut.code = .ok g ∧
    shortcut.initialState = .ok s ∧
    (∃ route, Route g route 2 ∧ (OnlyBranchesHaveTargets shortcut.code → shortcut.Path route 2) ∧
      shortcut.AssignedOn route 0) ∧
    (shortcut.AssignedOn [0] 0 ∨ shortcut.ReadsUnwritten s [0, 2]) :=
  verified_assigned verify_shortcut mem_table_shortcut path_shortcut rfl (reads_shortcut _ rfl)

/-- **A verified method may read what the path taken never wrote.** -/
theorem not_assigned_shortcut : shortcut.verify = .ok .verified ∧
    (∀ i ∈ shortcut.code, i.opcode ∈ Opcode.table) ∧ shortcut.Path [0] 2 ∧
    (∃ i, shortcut.code[2]? = some i ∧ i.Reads 0) ∧ ¬ shortcut.AssignedOn [0] 0 := by
  refine ⟨verify_shortcut, mem_table_shortcut, path_shortcut, ⟨_, rfl, reads_shortcut _ rfl⟩, ?_⟩
  rintro (⟨p, hp, hlo, -⟩ | ⟨pc, hpc, i, hi, o, r, hm, hdef, -⟩)
  · obtain rfl := List.mem_singleton.mp hp
    exact absurd hlo (by decide)
  · obtain rfl := List.mem_singleton.mp hpc
    obtain rfl := Option.some.inj hi
    cases List.mem_singleton.mp hm
    cases hdef

end Method

end BytecodeVerifier
