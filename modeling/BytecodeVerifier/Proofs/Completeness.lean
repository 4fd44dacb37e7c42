import BytecodeVerifier.Proofs.Soundness
import BytecodeVerifier.Proofs.Tracking

/-!
# Completeness — when a well-typed method is verified

A method is *well typed* when no replay of a path finds anything at fault, and any two paths to an
instruction leave the same values in the slots which it reads (`WellTyped`).  One would like every
such method to be verified.  It is, but for one thing: a merge may keep a half of a pair whose other
half is lost, and a write over such a stranded half makes `⊤` of the register beside it, though no
path has a pair there.

* **A well-typed method is verified just when no register is read whilst its settled value is `⊤`**,
  and the instructions pass their checks to which the graph leads but no path does
  (`verified_iff_of_wellTyped`).
* It is verified if no instruction is met which overwrites a stranded half, where only branches have
  targets.

The second rests on an invariant of every state that is met (`Tracks`): it lies below each bound of
the states in which control arrives, and what it holds some path leaves there, or it is a stranded
half.
-/

namespace BytecodeVerifier

open Dataflow ControlFlow

namespace Dataflow.State.Sim

variable {t a : State} (h : Sim t a) (hsize : t.size < UInt64.size) {i : Instruction}
  {returns : DeclaredType} (hreg : i.opcode.isRegular = true)
  (ht : i.check returns t = .ok none) (hreads : ∀ k, i.Reads k → a.valueAt k ≠ .conflict)
include h hsize hreg ht hreads

/-- Where an instruction passes its check on a path, the analysis has the same values for what it
reads, unless it has `⊤`. -/
theorem valueAt_of_reads {k : Nat} (hk : i.Reads k) : a.valueAt k = t.valueAt k := by
  rcases h.eq_or_conflict (Instruction.isDefined_of_reads hsize hreg ht hk) with e | e
  · exact e
  · exact absurd e (hreads k hk)

/-- **A check which a path passes, the analysis passes too**, unless it has `⊤` for what is read. -/
theorem check_of_reads : i.check returns a = .ok none := by
  have huse : ∀ r c, i.Examines returns r c → t.checkUse r c = .ok none →
      a.checkUse r c = .ok none ∨ False := by
    intro r c hex hr
    obtain ⟨hfirst, hsecond⟩ := Instruction.reads_of_examines hreg hex
    obtain ⟨hlt, hacc, hwide⟩ := (checkUse_eq_none_iff hsize).mp hr
    have e := h.valueAt_of_reads hsize hreg ht hreads hfirst
    refine .inl ((checkUse_eq_none_iff (h.size ▸ hsize)).mpr ⟨h.size ▸ hlt, by rwa [e], ?_⟩)
    intro hc
    rw [e, h.valueAt_of_reads hsize hreg ht hreads (hsecond hc)]
    exact hwide hc
  rcases Instruction.check_of_checkUse (fun _ hr => hr.elim) huse ht with hc | ⟨_, hr, -⟩
  · exact hc
  · exact hr.elim

end Dataflow.State.Sim

/-- The instruction writes over a stranded half. -/
def Instruction.Overwrites (i : Instruction) (s : State) : Prop :=
  ∃ k, i.Writes k ∧ s.Stranded k

namespace Method

/-! ### Well-typed methods -/

/-- No replay of a path finds anything at fault, and the paths to an instruction agree on what it
reads. -/
structure WellTyped (m : Method) (s₀ : State) : Prop where
  clean : ∀ pcs pc v, m.Path pcs pc → m.checkAlong s₀ (pcs ++ [pc]) ≠ .ok (some v)
  agree : ∀ pc i k t t', m.code[pc]? = some i → i.Reads k → m.Arrives s₀ pc t →
    m.Arrives s₀ pc t' → t.valueAt k = t'.valueAt k

section Built

variable {m : Method} {g : Graph} {s₀ : State}
  (hg : Graph.build m.registers m.code = .ok g)
  (htable : ∀ i ∈ m.code, i.opcode ∈ Opcode.table)
  (hs₀ : m.initialState = .ok s₀)
include hs₀

theorem size_arrives {pc : Nat} {t : State} (h : m.Arrives s₀ pc t) :
    t.size = m.registers.size.toNat := by
  obtain ⟨pcs, -, he⟩ := h
  rw [size_effectAlong he, size_initialState hs₀]

theorem size_lt_of_arrives {pc : Nat} {t : State} (h : m.Arrives s₀ pc t) :
    t.size < UInt64.size := by
  rw [size_arrives hs₀ h]
  exact m.registers.size.toNat_lt_size

include hg htable

/-- One instruction of a well-typed method, at the end of a path: it passes its check and has an
effect. -/
theorem WellTyped.step (h : m.WellTyped s₀) {pcs : List Nat} {pc : Nat} (hpath : m.Path pcs pc)
    {t : State} (hc : m.checkAlong s₀ pcs = .ok none) (he : m.effectAlong s₀ pcs = .ok t)
    (hp : t.Paired) {i : Instruction} (hi : m.code[pc]? = some i) :
    i.check m.returns t = .ok none ∧ ∃ t', i.effect t = .ok t' ∧ t'.Paired := by
  have hreg := Opcode.isRegular_of_getElem? htable hi
  have hst := structured_of_build hg hi
  have hsize := size_arrives hs₀ ⟨pcs, hpath, he⟩
  obtain ⟨d, hd⟩ := Instruction.exists_check hreg hst hsize m.returns
  cases d with
  | none => exact ⟨hd, Instruction.exists_effect_of_check hreg hst hsize hp hd⟩
  | some d =>
      -- The replay would end in this defect.
      refine absurd ?_ (h.clean pcs pc (.ofDefect pc d) hpath)
      rw [checkAlong_append_of_none hc he, checkAlong, checkAt_of_getElem? hi, hd]
      rfl

/-- The replay of a path of a well-typed method leaves a paired state. -/
theorem WellTyped.replay (h : m.WellTyped s₀) {pcs : List Nat} {pc : Nat}
    (hpath : m.Path pcs pc) :
    ∃ t, m.checkAlong s₀ pcs = .ok none ∧ m.effectAlong s₀ pcs = .ok t ∧ t.Paired := by
  induction hpath with
  | entry _ => exact ⟨s₀, rfl, rfl, paired_initialState hs₀⟩
  | @step pcs p q hpath hflow ih =>
      obtain ⟨t, hc, he, hp⟩ := ih
      obtain ⟨i, hi⟩ := hflow.exists_instruction
      obtain ⟨hpass, t', ht', hp'⟩ := h.step hg htable hs₀ hpath hc he hp hi
      refine ⟨t', ?_, ?_, hp'⟩
      · exact (checkAlong_concat_eq_none_iff hi).mpr ⟨hc, t, t', he, hpass, ht'⟩
      · exact (effectAlong_concat_eq_ok_iff hi).mpr ⟨t, he, ht'⟩

theorem WellTyped.paired (h : m.WellTyped s₀) {pc : Nat} {t : State} (ht : m.Arrives s₀ pc t) :
    t.Paired := by
  obtain ⟨pcs, hpath, he⟩ := ht
  obtain ⟨t', -, he', hp⟩ := h.replay hg htable hs₀ hpath
  obtain rfl : t = t' := Except.ok.inj (he.symm.trans he')
  exact hp

/-- **Where control arrives** in a well-typed method, the instruction passes its check, and control
arrives in what it leaves wherever it flows. -/
theorem WellTyped.arrives (h : m.WellTyped s₀) {pc : Nat} {t : State} (ht : m.Arrives s₀ pc t)
    {i : Instruction} (hi : m.code[pc]? = some i) : i.check m.returns t = .ok none ∧
      ∃ t', i.effect t = .ok t' ∧ ∀ q, Flow m.code pc q → m.Arrives s₀ q t' := by
  obtain ⟨pcs, hpath, he⟩ := ht
  obtain ⟨t₁, hc, he₁, hp⟩ := h.replay hg htable hs₀ hpath
  obtain rfl : t = t₁ := Except.ok.inj (he.symm.trans he₁)
  obtain ⟨hpass, t', ht', -⟩ := h.step hg htable hs₀ hpath hc he hp hi
  refine ⟨hpass, t', ht', ?_⟩
  intro q hflow
  exact ⟨pcs ++ [pc], .step hpath hflow, (effectAlong_concat_eq_ok_iff hi).mpr ⟨t, he, ht'⟩⟩

end Built

/-! ### Settled states -/

/-- Where control arrives, no register is read whose settled value is `⊤`; and an instruction which
has a settled state, but to which no path leads, passes its check there. -/
def Clear (m : Method) (g : Graph) (w : Worklist) : Prop :=
  ∀ pc a i, m.SettledAt g w pc a → m.code[pc]? = some i →
    ((∃ pcs, m.Path pcs pc) → ∀ k, i.Reads k → a.valueAt k ≠ .conflict) ∧
    ((¬ ∃ pcs, m.Path pcs pc) → i.check m.returns a = .ok none)

section Solved

variable {m : Method} {g : Graph} {s₀ : State} {events : List Event} {w : Worklist}
  (h : m.Solved g s₀ events w) (htable : ∀ i ∈ m.code, i.opcode ∈ Opcode.table)
  (hw : m.WellTyped s₀)
include h htable hw

/-- An instruction at the end of a path passes its check in its settled state too, where nothing
read there is `⊤`. -/
theorem WellTyped.check_settledAt {pc : Nat} {t a : State} {i : Instruction}
    (hi : m.code[pc]? = some i) (ht : m.Arrives s₀ pc t) (hsim : State.Sim t a)
    (hreads : ∀ k, i.Reads k → a.valueAt k ≠ .conflict) : i.check m.returns a = .ok none := by
  have hpass := (hw.arrives h.built htable h.initial ht hi).1
  exact hsim.check_of_reads (size_lt_of_arrives h.initial ht)
    (Opcode.isRegular_of_getElem? htable hi) hpass hreads

/-- **Where nothing read is `⊤`, a path leaves what simulates the settled state.** -/
theorem WellTyped.sim (hclear : m.Clear g w) {pcs : List Nat} {pc : Nat}
    (hpath : m.Path pcs pc) {t : State} (he : m.effectAlong s₀ pcs = .ok t) :
    ∃ a, m.SettledAt g w pc a ∧ State.Sim t a := by
  induction hpath generalizing t with
  | entry hne =>
      cases he
      obtain ⟨a, ha, hle⟩ := h.entry hne
      exact ⟨a, ha, .of_le hle (paired_initialState h.initial)⟩
  | @step pcs p q hpath hflow ih =>
      obtain ⟨i, hi⟩ := hflow.exists_instruction
      obtain ⟨u, hu, he⟩ := (effectAlong_concat_eq_ok_iff hi).mp he
      obtain ⟨a, ha, hsim⟩ := ih hu
      obtain ⟨a', ha', hnext⟩ := h.step ha hi
      obtain ⟨b, hb, hle⟩ := hnext q (passes_of_flow h.built hflow)
      have harr : m.Arrives s₀ p u := ⟨pcs, hpath, hu⟩
      have hcheck := hw.check_settledAt h htable hi harr hsim
        ((hclear p a i ha hi).1 ⟨pcs, hpath⟩)
      obtain ⟨t', ht', hsim'⟩ := hsim.effect (size_lt_of_arrives h.initial harr)
        (hw.arrives h.built htable h.initial harr hi).1 hcheck ha'
      obtain rfl : t = t' := Except.ok.inj (he.symm.trans ht')
      exact ⟨b, hb, hsim'.mono hle⟩

/-- A well-typed method is verified just when nothing read is `⊤`. -/
theorem WellTyped.verify_iff : m.verify = .ok .verified ↔ m.Clear g w := by
  rw [h.verify_iff]
  constructor
  · intro hcheck pc a i ha hi
    refine ⟨fun _ k hk => ?_, fun _ => hcheck pc a i ha hi⟩
    have hsize : a.size < UInt64.size := h.size_settledAt ha ▸ m.registers.size.toNat_lt_size
    exact Value.ne_conflict_of_isDefined (Instruction.isDefined_of_reads hsize
      (Opcode.isRegular_of_getElem? htable hi)
      (hcheck pc a i ha hi) hk)
  · intro hclear pc a i ha hi
    obtain ⟨hreads, hrest⟩ := hclear pc a i ha hi
    by_cases hreached : ∃ pcs, m.Path pcs pc
    · obtain ⟨pcs, hpath⟩ := hreached
      obtain ⟨t, -, he, -⟩ := hw.replay h.built htable h.initial hpath
      obtain ⟨a', ha', hsim⟩ := hw.sim h htable hclear hpath he
      obtain rfl := ha.unique h.built ha'
      exact hw.check_settledAt h htable hi ⟨pcs, hpath, he⟩ hsim (hreads ⟨pcs, hpath⟩)
    · exact hrest hreached

end Solved

/-! ### States that are met -/

section Built

variable {m : Method} {g : Graph} {s₀ : State}
  (hg : Graph.build m.registers m.code = .ok g)
  (htable : ∀ i ∈ m.code, i.opcode ∈ Opcode.table)
  (hs₀ : m.initialState = .ok s₀) (hw : m.WellTyped s₀)
include hg htable hs₀ hw

/-- Where the analysis keeps track, it has for what an instruction reads what every path leaves
there, so that the instruction passes its check. -/
theorem WellTyped.check_of_tracks {pc : Nat} {i : Instruction} (hi : m.code[pc]? = some i)
    {a : State} (ha : State.Tracks (m.Arrives s₀ pc) a) : i.check m.returns a = .ok none ∧
      ∀ t, m.Arrives s₀ pc t → ∀ k, i.Reads k → a.valueAt k = t.valueAt k := by
  have hreg := Opcode.isRegular_of_getElem? htable hi
  have hlt : ∀ t, m.Arrives s₀ pc t → t.size < UInt64.size := fun t ht =>
    size_lt_of_arrives hs₀ ht
  have hpass : ∀ t, m.Arrives s₀ pc t → i.check m.returns t = .ok none := fun t ht =>
    (hw.arrives hg htable hs₀ ht hi).1
  have hsame : ∀ t, m.Arrives s₀ pc t → ∀ k, i.Reads k → a.valueAt k = t.valueAt k := by
    intro t ht k hk
    exact ha.valueAt_eq (Instruction.isDefined_of_reads (hlt t ht) hreg (hpass t ht) hk)
      fun u hu => hw.agree pc i k u t hi hk hu ht
  refine ⟨?_, hsame⟩
  obtain ⟨t, ht, hsim⟩ := ha.near
  refine hsim.check_of_reads (hlt t ht) hreg (hpass t ht) ?_
  intro k hk
  rw [hsame t ht k hk]
  exact Value.ne_conflict_of_isDefined
    (Instruction.isDefined_of_reads (hlt t ht) hreg (hpass t ht) hk)

/-- **What an instruction does where the analysis keeps track**: it has an effect, and the analysis
keeps track wherever control flows, unless the instruction overwrites a stranded half. -/
theorem WellTyped.tracks_step {p : Nat} {i : Instruction} (hi : m.code[p]? = some i) {a : State}
    (hsize : a.size = m.registers.size.toNat) (ha : State.Tracks (m.Arrives s₀ p) a) :
    ∃ b, i.effect a = .ok b ∧ (¬ i.Overwrites a →
      ∀ q, Flow m.code p q → State.Tracks (m.Arrives s₀ q) b) := by
  have hreg := Opcode.isRegular_of_getElem? htable hi
  have hst := structured_of_build hg hi
  obtain ⟨hcheck, hsame⟩ := hw.check_of_tracks hg htable hs₀ hi ha
  rcases Instruction.effect_cases hreg hst with ⟨-, hnone⟩ | ⟨o, r, value, hout, hform⟩
  · refine ⟨a, hnone a, ?_⟩
    intro _ q hflow
    refine ha.mono ?_
    intro t ht
    obtain ⟨-, t', ht', hnext⟩ := hw.arrives hg htable hs₀ ht hi
    obtain rfl : t = t' := Except.ok.inj ((hnone t).symm.trans ht')
    exact hnext q hflow
  · have hlt : a.size < UInt64.size := hsize ▸ m.registers.size.toNat_lt_size
    have hacc := hout.accepts hlt hreg hcheck
    have hr : r.toNat < a.size := hsize ▸ hst.register o r hout.mem
    have hwide : (value a).isWideLow = true → o.constraint.isWide = true := fun hlow =>
      Constraint.isWideLow_of_accepts hacc ▸ hlow
    have hroom : a.Room r.toNat (value a) :=
      ha.room (fun t ht => hw.paired hg htable hs₀ ht)
        (fun t ht => (size_arrives hs₀ ht).trans hsize.symm) hr
        fun hlow => hsize ▸ hst.pair o r hout.mem (hwide hlow)
    refine ⟨a.store r.toNat (value a), ?_, ?_⟩
    · rw [hform a hsize]
      exact (State.write_eq_ok_iff hlt).mpr ⟨hroom, rfl⟩
    intro hover q hflow
    refine ha.store ?_ hroom
      (Value.ne_uninitialized_of_isDefined (Constraint.isDefined_of_accepts hacc))
      (Constraint.not_isWideHigh_of_accepts hacc)
      (fun hs => hover ⟨_, ⟨o, r, hout.mem, hout.isDefine, .inl rfl⟩, hs⟩)
      (fun hl hs => hover ⟨_, ⟨o, r, hout.mem, hout.isDefine, .inr ⟨hwide hl, rfl⟩⟩, hs⟩)
    -- Every path writes the same value.
    intro t ht
    obtain ⟨-, t', ht', hnext⟩ := hw.arrives hg htable hs₀ ht hi
    rw [hform t (size_arrives hs₀ ht), ← hout.value_eq (hsame t ht)] at ht'
    obtain ⟨hroomt, rfl⟩ := (State.write_eq_ok_iff (size_lt_of_arrives hs₀ ht)).mp ht'
    exact ⟨hw.paired hg htable hs₀ ht, hroomt, hnext q hflow⟩

/-- **The analysis keeps track in every state that is met**, if none is met in which a stranded half
is overwritten. -/
theorem WellTyped.tracks_of_meets (hbr : OnlyBranchesHaveTargets m.code) (hne : 0 < m.code.size)
    (hover : ∀ pc s i, m.Meets g (m.solve g).1 pc s → m.code[pc]? = some i → ¬ i.Overwrites s)
    {pc : Nat} {s : State} (hm : m.Meets g (m.solve g).1 pc s) :
    s.size = m.registers.size.toNat ∧ State.Tracks (m.Arrives s₀ pc) s := by
  have hinit : State.Tracks (m.Arrives s₀ 0) s₀ :=
    .of_mem ⟨[], .entry hne, rfl⟩ (paired_initialState hs₀)
  refine solve_states hg hs₀
    (P := fun pc s => s.size = m.registers.size.toNat ∧ State.Tracks (m.Arrives s₀ pc) s)
    ?_ ?_ ⟨size_initialState hs₀, hinit⟩ pc s hm
  · rintro pc s t hs ht ⟨-, hs'⟩ ⟨-, ht'⟩
    exact ⟨by rw [State.size_merge, hs], hs'.merge ht' (ht.trans hs.symm)⟩
  · rintro p q i s t hi hmeet ⟨hs, hs'⟩ he hpass
    obtain ⟨b, hb, hnext⟩ := hw.tracks_step hg htable hs₀ hi hs hs'
    obtain rfl : t = b := Except.ok.inj (he.symm.trans hb)
    exact ⟨(Instruction.size_effect he).trans hs,
      hnext (hover p s i hmeet hi) q (flow_of_passes hg hbr hpass)⟩

/-- So a well-typed method is verified if none is met. -/
theorem WellTyped.verified (hbr : OnlyBranchesHaveTargets m.code)
    (hover : ∀ pc s i, m.Meets g (m.solve g).1 pc s → m.code[pc]? = some i → ¬ i.Overwrites s) :
    m.verify = .ok .verified := by
  have hmet : ∀ pc s i, m.Meets g (m.solve g).1 pc s → m.code[pc]? = some i →
      i.check m.returns s = .ok none ∧ ∃ t, i.effect s = .ok t := by
    intro pc s i hm hi
    have hne : 0 < m.code.size := Nat.zero_lt_of_lt (Array.getElem?_eq_some_iff.mp hi).1
    obtain ⟨hsize, htracks⟩ := hw.tracks_of_meets hg htable hs₀ hbr hne hover hm
    obtain ⟨t, ht, -⟩ := hw.tracks_step hg htable hs₀ hi hsize htracks
    exact ⟨(hw.check_of_tracks hg htable hs₀ hi htracks).1, t, ht⟩
  rcases solved_or_fault hg hs₀ with ⟨events, w, h⟩ | ⟨pc, u, i, f, hmeets, hi, hfault, -⟩
  · refine h.verify_iff.mpr ?_
    intro pc a i ha hi
    refine (hmet pc a i ?_ hi).1
    rw [h.solve]
    exact h.meets ha
  · obtain ⟨-, v, hv⟩ := hmet pc u i hmeets hi
    rw [hfault] at hv
    cases hv

end Built

/-- **Completeness.**  A well-typed method is verified just when solving ends with settled states in
which nothing read is `⊤`.  So it is if no instruction is met which overwrites a stranded half,
where only branches have targets. -/
theorem verified_iff_of_wellTyped {m : Method} {g : Graph} {s₀ : State}
    (hg : Graph.build m.registers m.code = .ok g)
    (htable : ∀ i ∈ m.code, i.opcode ∈ Opcode.table) (hs₀ : m.initialState = .ok s₀)
    (hw : m.WellTyped s₀) :
    (m.verify = .ok .verified ↔ ∃ events w, m.Solved g s₀ events w ∧ m.Clear g w) ∧
    (OnlyBranchesHaveTargets m.code →
      (∀ pc s i, m.Meets g (m.solve g).1 pc s → m.code[pc]? = some i → ¬ i.Overwrites s) →
      m.verify = .ok .verified) := by
  refine ⟨⟨fun hv => ?_, ?_⟩, fun hbr hover => hw.verified hg htable hs₀ hbr hover⟩
  · obtain ⟨g', s, events, w, h, -⟩ := solved_of_verified hv
    obtain rfl : g = g' := Except.ok.inj (hg.symm.trans h.built)
    obtain rfl : s₀ = s := Except.ok.inj (hs₀.symm.trans h.initial)
    exact ⟨events, w, h, (hw.verify_iff h htable).mp hv⟩
  · rintro ⟨events, w, h, hclear⟩
    exact (hw.verify_iff h htable).mpr hclear

/-! ### Certificates -/

/-- The states in which control may arrive, each at its position: they pass their checks, control
flows from one to another, and those at one position agree on what is read there. -/
def Certifies (m : Method) (states : List (Nat × State)) : Prop :=
  (∀ x ∈ states, m.checkAt x.2 x.1 = .ok none ∧ ∀ q < m.code.size, Flow m.code x.1 q →
    ∃ y ∈ states, y.1 = q ∧ m.effectAt x.2 x.1 = .ok y.2) ∧
  ∀ x ∈ states, ∀ y ∈ states, x.1 = y.1 → ∀ i ∈ m.code[x.1]?,
    ∀ k < m.registers.size.toNat, i.Reads k → x.2.valueAt k = y.2.valueAt k

instance (m : Method) (states : List (Nat × State)) : Decidable (m.Certifies states) :=
  inferInstanceAs (Decidable (_ ∧ _))

section Certificate

variable {m : Method} {g : Graph} {s₀ : State} {states : List (Nat × State)}
  (hg : Graph.build m.registers m.code = .ok g) (h : m.Certifies states)
  (hentry : (0, s₀) ∈ states)
include hg h hentry

/-- A path leaves one of the states. -/
theorem Certifies.replay {pcs : List Nat} {pc : Nat} (hpath : m.Path pcs pc) :
    ∃ t, m.checkAlong s₀ pcs = .ok none ∧ m.effectAlong s₀ pcs = .ok t ∧ (pc, t) ∈ states := by
  induction hpath with
  | entry _ => exact ⟨s₀, rfl, rfl, hentry⟩
  | @step pcs p q _ hflow ih =>
      obtain ⟨t, hc, he, ht⟩ := ih
      obtain ⟨i, hi⟩ := hflow.exists_instruction
      obtain ⟨hpass, hnext⟩ := h.1 _ ht
      obtain ⟨⟨q, t'⟩, ht', rfl, hq⟩ := hnext q (hflow.lt_size hg) hflow
      have hq : i.effect t = .ok t' := (effectAt_of_getElem? hi t).symm.trans hq
      refine ⟨t', ?_, ?_, ht'⟩
      · exact (checkAlong_concat_eq_none_iff hi).mpr
          ⟨hc, t, t', he, (checkAt_eq_none_iff hi).mp hpass, hq⟩
      · exact (effectAlong_concat_eq_ok_iff hi).mpr ⟨t, he, hq⟩

/-- **A method with a certificate is well typed.** -/
theorem Certifies.wellTyped : m.WellTyped s₀ := by
  have harrives : ∀ pc t, m.Arrives s₀ pc t → (pc, t) ∈ states := by
    rintro pc t ⟨pcs, hpath, he⟩
    obtain ⟨t', -, he', ht'⟩ := h.replay hg hentry hpath
    obtain rfl : t = t' := Except.ok.inj (he.symm.trans he')
    exact ht'
  refine ⟨?_, ?_⟩
  · intro pcs pc v hpath hv
    obtain ⟨t, hc, he, ht⟩ := h.replay hg hentry hpath
    rw [checkAlong_append_of_none hc he, checkAlong, (h.1 _ ht).1] at hv
    obtain ⟨u, -, hv⟩ := exists_of_bind_eq_ok (x := m.effectAt t pc) hv
    cases hv
  · intro pc i k t t' hi hk ht ht'
    exact h.2 _ (harrives pc t ht) _ (harrives pc t' ht') rfl i hi k
      (hk.lt_size (structured_of_build hg hi)) hk

end Certificate

/-- The loop of `summation` is well typed, and solving it ends with nothing read whilst it is
`⊤`. -/
theorem summation_clear : ∃ g s₀, Graph.build summation.registers summation.code = .ok g ∧
    summation.initialState = .ok s₀ ∧ summation.WellTyped s₀ ∧
    ∃ events w, summation.Solved g s₀ events w ∧ summation.Clear g w := by
  have verified : summation.verify = .ok .verified := by decide +kernel
  have table : ∀ i ∈ summation.code, i.opcode ∈ Opcode.table := by decide +kernel
  have initial : summation.initialState = .ok ⟨#[.uninitialized, .int]⟩ := by decide +kernel
  have certifies : summation.Certifies [(0, ⟨#[.uninitialized, .int]⟩), (1, ⟨#[.int, .int]⟩),
      (2, ⟨#[.int, .int]⟩), (3, ⟨#[.int, .int]⟩)] := by decide +kernel
  obtain ⟨g, _, _, _, h, -⟩ := solved_of_verified verified
  have typed := certifies.wellTyped h.built List.mem_cons_self
  exact ⟨g, _, h.built, initial, typed,
    (verified_iff_of_wellTyped h.built table initial typed).1.mp verified⟩

/-! ### A well-typed method that is rejected -/

/-- Unless `v2` and `v3` are equal a long is written into `v0` and `v1`; then `v1` and `v0` are
written anew, one after the other, and `v1` is returned. -/
def remnant : Method where
  name := "remnant"
  registers := ⟨4, [⟨⟨2⟩, .int⟩, ⟨⟨3⟩, .int⟩], by decide⟩
  returns := .int
  code := #[
    ⟨⟨"if-eq", .ifCompare, [Opcode.reads .int, Opcode.reads .int]⟩, [⟨2⟩, ⟨3⟩], [3], 0⟩,
    ⟨⟨"const-wide", .const, [Opcode.writes .long]⟩, [⟨0⟩], [], 0⟩,
    ⟨⟨"goto", .goto, []⟩, [], [4], 0⟩,
    ⟨⟨"const/4", .const, [Opcode.writes .int]⟩, [⟨1⟩], [], 0⟩,
    ⟨⟨"const/4", .const, [Opcode.writes .int]⟩, [⟨1⟩], [], 0⟩,
    ⟨⟨"const/4", .const, [Opcode.writes .int]⟩, [⟨0⟩], [], 0⟩,
    ⟨⟨"return", .returnValue, [Opcode.reads .narrow]⟩, [⟨1⟩], [], 0⟩]

/-- **A well-typed method may be rejected.**  On the way of the long the write of `v1` breaks its
pair, and on the other there never was one; but the merge keeps the low half in `v0`, and the write
of `v0` makes `⊤` of `v1`. -/
theorem remnant_rejected : ∃ g s₀, Graph.build remnant.registers remnant.code = .ok g ∧
    (∀ i ∈ remnant.code, i.opcode ∈ Opcode.table) ∧ OnlyBranchesHaveTargets remnant.code ∧
    remnant.initialState = .ok s₀ ∧ remnant.WellTyped s₀ ∧
    remnant.verify = .ok (.rejected (.ofDefect 6 (.undefinedRead ⟨1⟩ .conflict))) := by
  have certifies : remnant.Certifies [
      (0, ⟨#[.uninitialized, .uninitialized, .int, .int]⟩),
      (1, ⟨#[.uninitialized, .uninitialized, .int, .int]⟩),
      (2, ⟨#[.longLow, .longHigh, .int, .int]⟩),
      (3, ⟨#[.uninitialized, .uninitialized, .int, .int]⟩),
      (4, ⟨#[.longLow, .longHigh, .int, .int]⟩), (4, ⟨#[.uninitialized, .int, .int, .int]⟩),
      (5, ⟨#[.conflict, .int, .int, .int]⟩), (5, ⟨#[.uninitialized, .int, .int, .int]⟩),
      (6, ⟨#[.int, .int, .int, .int]⟩)] := by decide +kernel
  cases hg : Graph.build remnant.registers remnant.code with
  | error v =>
      have : (Graph.build remnant.registers remnant.code).isOk = true := by decide +kernel
      rw [hg] at this
      cases this
  | ok g =>
      exact ⟨g, _, rfl, by decide +kernel, by decide +kernel, by decide +kernel,
        certifies.wellTyped hg List.mem_cons_self, by decide +kernel⟩

end Method

end BytecodeVerifier
