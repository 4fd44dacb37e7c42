import BytecodeVerifier.Proofs.Passage

/-!
# Verdicts — what a report says of the settled states

Once solving has ended the verdict is a matter of the settled states alone: the method is verified
just when every instruction passes its check in its settled state (`Solved.verify_iff`), a method is
rejected for the first instruction that fails it (`Solved.report_cases`), and there is a report if
no such check faults (`Solved.exists_report`).  Solving fails to end only where it meets an
instruction whose effect faults (`solved_or_fault`).
-/

namespace BytecodeVerifier

open Dataflow ControlFlow

namespace Method

/-! ### Checking along positions -/

theorem checkAlong_cons_eq_none_iff {m : Method} {s : State} {pc : Nat} {pcs : List Nat}
    {i : Instruction} (hi : m.code[pc]? = some i) :
    m.checkAlong s (pc :: pcs) = .ok none ↔ i.check m.returns s = .ok none ∧
      ∃ t, i.effect s = .ok t ∧ m.checkAlong t pcs = .ok none := by
  rw [← List.singleton_append, checkAlong_append_eq_none_iff, effectAlong_singleton,
    effectAt_of_getElem? hi, checkAlong_singleton_eq_none_iff hi]
  constructor
  · rintro ⟨⟨hc, -⟩, ht⟩
    exact ⟨hc, ht⟩
  · rintro ⟨hc, t, ht, h⟩
    exact ⟨⟨hc, t, ht⟩, t, ht, h⟩

/-- Nothing is at fault along some positions if nothing is at any of them, in the state which the
ones before it leave. -/
theorem checkAlong_eq_none {m : Method} {s : State} {pcs : List Nat}
    (h : ∀ pre pc post t, pcs = pre ++ pc :: post → m.effectAlong s pre = .ok t →
      ∃ i u, m.code[pc]? = some i ∧ i.check m.returns t = .ok none ∧ i.effect t = .ok u) :
    m.checkAlong s pcs = .ok none := by
  induction pcs generalizing s with
  | nil => rfl
  | cons pc pcs ih =>
      obtain ⟨i, u, hi, hc, hu⟩ := h [] pc pcs s rfl rfl
      refine (checkAlong_cons_eq_none_iff hi).mpr ⟨hc, u, hu, ih fun pre q post t e ht => ?_⟩
      refine h (pc :: pre) q post t (by rw [e]; rfl) ?_
      rw [effectAlong_cons, effectAt_of_getElem? hi, hu]
      exact ht

/-- Checking along positions does not fault if no check and no effect does; a violation is at one of
the positions. -/
theorem exists_checkAlong {m : Method} {s : State} {pcs : List Nat}
    (h : ∀ pre pc post t, pcs = pre ++ pc :: post → m.effectAlong s pre = .ok t →
      ∃ i d u, m.code[pc]? = some i ∧ i.check m.returns t = .ok d ∧ i.effect t = .ok u) :
    ∃ v?, m.checkAlong s pcs = .ok v? ∧ ∀ v, v? = some v → v.index ∈ pcs := by
  induction pcs generalizing s with
  | nil => exact ⟨none, rfl, fun v hv => by cases hv⟩
  | cons pc pcs ih =>
      obtain ⟨i, d, u, hi, hc, hu⟩ := h [] pc pcs s rfl rfl
      rw [checkAlong, checkAt_of_getElem? hi, effectAt_of_getElem? hi, hc, hu]
      cases d with
      | some d =>
          refine ⟨some (.ofDefect pc d), rfl, fun v hv => ?_⟩
          cases hv
          exact List.mem_cons_self
      | none =>
          obtain ⟨v?, hv, hmem⟩ := ih (s := u) fun pre q post t e ht => by
            refine h (pc :: pre) q post t (by rw [e]; rfl) ?_
            rw [effectAlong_cons, effectAt_of_getElem? hi, hu]
            exact ht
          exact ⟨v?, hv, fun v e => List.mem_cons_of_mem _ (hmem v e)⟩

/-- A violation along some positions is that of one of them, in the state which the ones before it
leave, and nothing is at fault along those. -/
theorem checkAlong_eq_some {m : Method} {s : State} {pcs : List Nat} {v : Violation}
    (h : m.checkAlong s pcs = .ok (some v)) : ∃ pre pc post t, pcs = pre ++ pc :: post ∧
      m.checkAlong s pre = .ok none ∧ m.effectAlong s pre = .ok t ∧
      m.checkAt t pc = .ok (some v) := by
  induction pcs generalizing s with
  | nil => cases h
  | cons pc pcs ih =>
      rw [checkAlong] at h
      obtain ⟨v?, hv, h⟩ := exists_of_bind_eq_ok h
      cases v? with
      | some v' =>
          cases h
          exact ⟨[], pc, pcs, s, rfl, rfl, rfl, hv⟩
      | none =>
          obtain ⟨u, hu, h⟩ := exists_of_bind_eq_ok h
          obtain ⟨pre, q, post, t, rfl, hc, he, hq⟩ := ih h
          refine ⟨pc :: pre, q, post, t, rfl, ?_, ?_, hq⟩
          · rw [checkAlong, hv]
            simp only [hu, bind, Except.bind]
            exact hc
          · rw [effectAlong_cons, hu]
            exact he

/-! ### Inspecting -/

theorem inspect_eq_verified_iff {m : Method} {g : Graph} {w : Worklist} {bs : List Block} :
    (m.inspect g w bs).2 = .ok .verified ↔
      ∀ b ∈ bs, w.visited.contains b.index = true → m.inspectBlock w b = .ok none := by
  induction bs with
  | nil => simp [inspect]
  | cons b bs ih =>
      unfold inspect
      by_cases hv : w.visited.contains b.index = true
      · rw [if_pos hv, List.forall_mem_cons]
        cases hb : m.inspectBlock w b with
        | error f => simp [hv]
        | ok v? =>
            cases v? with
            | none => simp [hv, ih]
            | some v => cases hh : g.blockHolding v.index <;> simp [hv, hh]
      · simp [hv, ih]

/-- A violation is found in the first visited block that has one. -/
theorem inspect_eq_rejected {m : Method} {g : Graph} {w : Worklist} {bs : List Block}
    {v : Violation} (h : (m.inspect g w bs).2 = .ok (.rejected v)) :
    ∃ pre b post, bs = pre ++ b :: post ∧
      (∀ c ∈ pre, w.visited.contains c.index = true → m.inspectBlock w c = .ok none) ∧
      w.visited.contains b.index = true ∧ m.inspectBlock w b = .ok (some v) := by
  induction bs with
  | nil => cases h
  | cons b bs ih =>
      unfold inspect at h
      -- Unless the violation is in the first block, that block is skipped or passes.
      have hrest (hb : w.visited.contains b.index = true → m.inspectBlock w b = .ok none)
          (htail : (m.inspect g w bs).2 = .ok (.rejected v)) :
          ∃ pre c post, b :: bs = pre ++ c :: post ∧
            (∀ d ∈ pre, w.visited.contains d.index = true → m.inspectBlock w d = .ok none) ∧
            w.visited.contains c.index = true ∧ m.inspectBlock w c = .ok (some v) := by
        obtain ⟨pre, c, post, rfl, hpre, hc⟩ := ih htail
        exact ⟨b :: pre, c, post, rfl, List.forall_mem_cons.mpr ⟨hb, hpre⟩, hc⟩
      by_cases hv : w.visited.contains b.index = true
      · rw [if_pos hv] at h
        cases hb : m.inspectBlock w b with
        | error f =>
            rw [hb] at h
            cases h
        | ok v? =>
            rw [hb] at h
            cases v? with
            | none => exact hrest (fun _ => hb) h
            | some v' =>
                cases hh : g.blockHolding v'.index with
                | error f =>
                    simp only [hh] at h
                    cases h
                | ok holder =>
                    simp only [hh] at h
                    cases h
                    exact ⟨[], b, bs, rfl, fun c hc => absurd hc List.not_mem_nil, hv, hb⟩
      · rw [if_neg hv] at h
        exact hrest (fun hv' => absurd hv' hv) h

theorem exists_inspect {m : Method} {g : Graph} {w : Worklist} {bs : List Block}
    (h : ∀ b ∈ bs, w.visited.contains b.index = true → ∃ v?, m.inspectBlock w b = .ok v? ∧
      ∀ v, v? = some v → ∃ holder, g.blockHolding v.index = .ok holder) :
    ∃ report, (m.inspect g w bs).2 = .ok report := by
  induction bs with
  | nil => exact ⟨.verified, rfl⟩
  | cons b bs ih =>
      have htail := ih fun c hc => h c (List.mem_cons_of_mem _ hc)
      unfold inspect
      by_cases hv : w.visited.contains b.index = true
      · obtain ⟨v?, hb, hholder⟩ := h b List.mem_cons_self hv
        rw [if_pos hv, hb]
        cases v? with
        | none => exact htail
        | some v =>
            obtain ⟨holder, hh⟩ := hholder v rfl
            simp only [hh]
            exact ⟨_, rfl⟩
      · rw [if_neg hv]
        exact htail

theorem verify_of_build {m : Method} {g : Graph} (hg : Graph.build m.registers m.code = .ok g) :
    m.verify = (m.judge g).2 := by
  unfold verify trace
  rw [hg]

/-- The check of an instruction finds a defect in its settled state. -/
def Fails (m : Method) (g : Graph) (w : Worklist) (pc : Nat) (d : Defect) : Prop :=
  ∃ a i, m.SettledAt g w pc a ∧ m.code[pc]? = some i ∧ i.check m.returns a = .ok (some d)

theorem Fails.unique {m : Method} {g : Graph} (hg : Graph.build m.registers m.code = .ok g)
    {w : Worklist} {pc : Nat} {d d' : Defect} (h : m.Fails g w pc d) (h' : m.Fails g w pc d') :
    d = d' := by
  obtain ⟨a, i, ha, hi, hd⟩ := h
  obtain ⟨a', i', ha', hi', hd'⟩ := h'
  obtain rfl := ha.unique hg ha'
  obtain rfl : i = i' := Option.some.inj (hi.symm.trans hi')
  exact Option.some.inj (Except.ok.inj (hd.symm.trans hd'))

/-- The instruction at a position passes its check in its settled state, if it has one. -/
def ClearAt (m : Method) (g : Graph) (w : Worklist) (pc : Nat) : Prop :=
  ∀ a i, m.SettledAt g w pc a → m.code[pc]? = some i → i.check m.returns a = .ok none

theorem ClearAt.not_fails {m : Method} {g : Graph} {w : Worklist} {pc : Nat} (h : m.ClearAt g w pc)
    (d : Defect) : ¬ m.Fails g w pc d := by
  rintro ⟨a, i, ha, hi, hd⟩
  rw [h a i ha hi] at hd
  cases hd

namespace Solved

variable {m : Method} {g : Graph} {s₀ : State} {events : List Event} {w : Worklist}
  (h : m.Solved g s₀ events w)
include h

/-- The blocks inspected are those with an entry state, each from that state on. -/
theorem inspectBlock_of_visited {block : Block} (hmem : block ∈ g.blocks.toList)
    (hv : w.visited.contains block.index = true) :
    ∃ e, w.Entry block.index e ∧ g.blocks[block.index]? = some block ∧
      m.inspectBlock w block = m.checkAlong e block.positions := by
  obtain ⟨b, hb⟩ := Array.mem_iff_getElem?.mp (Array.mem_toList_iff.mp hmem)
  obtain rfl := index_eq h.built hb
  obtain ⟨e, he⟩ := (h.fits.visited _).mp hv
  refine ⟨e, he, hb, ?_⟩
  simp [inspectBlock, Worklist.entryOf_of_entry he, unwrap, bind, Except.bind]

/-- The instructions of a block, as they are met from its entry state on. -/
theorem settledAt_of_positions {b pc : Nat} {block : Block} {e t : State} {pre post : List Nat}
    (he : w.Entry b e) (hb : g.blocks[b]? = some block)
    (hsplit : block.positions = pre ++ pc :: post) (ht : m.effectAlong e pre = .ok t) :
    m.SettledAt g w pc t ∧ ∃ i u, m.code[pc]? = some i ∧ i.effect t = .ok u := by
  obtain ⟨hlo, hhi, rfl⟩ := eq_range'_of_positions hsplit
  have hsettled : m.SettledAt g w pc t := ⟨b, e, he, block, hb, hlo, hhi, ht⟩
  obtain ⟨i, hi⟩ := exists_instruction h.built hb hhi
  obtain ⟨u, hu, -⟩ := h.step hsettled hi
  exact ⟨hsettled, i, u, hi, hu⟩

theorem verify_eq : m.verify = (m.inspect g w g.blocks.toList).2 := by
  rw [verify_of_build h.built, judge, h.solve]

/-- **When a method is verified**: every instruction passes its check in its settled state. -/
theorem verify_iff :
    m.verify = .ok .verified ↔ ∀ pc a i, m.SettledAt g w pc a → m.code[pc]? = some i →
      i.check m.returns a = .ok none := by
  rw [h.verify_eq, inspect_eq_verified_iff]
  constructor
  · rintro hall pc a i ⟨b, e, he, block, hb, hlo, hhi, hl⟩ hi
    obtain rfl := index_eq h.built hb
    have hmem : block ∈ g.blocks.toList := Array.mem_toList_iff.mpr (Array.mem_of_getElem? hb)
    have hv : w.visited.contains block.index = true := (h.fits.visited _).mpr ⟨e, he⟩
    obtain ⟨e', he', -, hins⟩ := h.inspectBlock_of_visited hmem hv
    obtain rfl := he.unique he'
    have hnone := hins.symm.trans (hall block hmem hv)
    rw [positions_split hlo hhi, checkAlong_append_eq_none_iff] at hnone
    obtain ⟨-, t, ht, hnone⟩ := hnone
    obtain rfl : a = t := Except.ok.inj (hl.symm.trans ht)
    exact ((checkAlong_cons_eq_none_iff hi).mp hnone).1
  · intro hall block hmem hv
    obtain ⟨e, he, hb, hins⟩ := h.inspectBlock_of_visited hmem hv
    rw [hins]
    refine checkAlong_eq_none fun pre pc post t hsplit ht => ?_
    obtain ⟨hsettled, i, u, hi, hu⟩ := h.settledAt_of_positions he hb hsplit ht
    exact ⟨i, u, hi, hall pc t i hsettled hi, hu⟩

/-- Every instruction is clear along which nothing is found at fault. -/
theorem clear_of_checkAlong {b q : Nat} {block : Block} {e : State} {pre post : List Nat}
    (he : w.Entry b e) (hb : g.blocks[b]? = some block) (hsplit : block.positions = pre ++ post)
    (hpre : m.checkAlong e pre = .ok none) (hq : q ∈ pre) : m.ClearAt g w q := by
  intro a i ha hi
  obtain ⟨before, after, rfl⟩ := List.append_of_mem hq
  rw [checkAlong_append_eq_none_iff] at hpre
  obtain ⟨-, t, ht, hnone⟩ := hpre
  have hsettled : m.SettledAt g w q t := (h.settledAt_of_positions he hb
    (hsplit.trans (List.append_assoc before (q :: after) post)) ht).1
  obtain rfl := ha.unique h.built hsettled
  exact ((checkAlong_cons_eq_none_iff hi).mp hnone).1

/-- Every instruction is clear of a block which passes if it is visited. -/
theorem clear_of_inspectBlock {q : Nat} {block : Block} (hmem : block ∈ g.blocks.toList)
    (hins : w.visited.contains block.index = true → m.inspectBlock w block = .ok none)
    (hlo : block.start ≤ q) (hhi : q < block.stop) : m.ClearAt g w q := by
  intro a i ha
  obtain ⟨c, e, he, block', hc, hlo', hhi', -⟩ := id ha
  obtain ⟨b, hb⟩ := Array.mem_iff_getElem?.mp (Array.mem_toList_iff.mp hmem)
  obtain rfl := block_unique h.built hb hlo hhi hc hlo' hhi'
  obtain rfl := index_eq h.built hb
  have hv : w.visited.contains block.index = true := (h.fits.visited _).mpr ⟨e, he⟩
  obtain ⟨e', he', -, hins'⟩ := h.inspectBlock_of_visited hmem hv
  refine h.clear_of_checkAlong he' hb (List.append_nil _).symm (hins'.symm.trans (hins hv)) ?_ a i
    ha
  rw [Block.positions, Block.length, List.mem_range'_1]
  omega

/-- The violation of a block is that of the first of its instructions which fails. -/
theorem fails_of_checkAlong {b : Nat} {block : Block} {e : State} {v : Violation}
    (he : w.Entry b e) (hb : g.blocks[b]? = some block)
    (hv : m.checkAlong e block.positions = .ok (some v)) :
    ∃ pc d, v = .ofDefect pc d ∧ m.Fails g w pc d ∧ pc < block.stop ∧
      ∀ q, block.start ≤ q → q < pc → m.ClearAt g w q := by
  obtain ⟨pre, pc, post, t, hsplit, hpre, ht, hpc⟩ := checkAlong_eq_some hv
  obtain ⟨hsettled, i, -, hi, -⟩ := h.settledAt_of_positions he hb hsplit ht
  obtain ⟨hlo, hhi, rfl⟩ := eq_range'_of_positions hsplit
  rw [checkAt_of_getElem? hi] at hpc
  cases hd : i.check m.returns t with
  | error f =>
      rw [hd] at hpc
      cases hpc
  | ok d? =>
      rw [hd] at hpc
      cases d? with
      | none => cases hpc
      | some d =>
          cases hpc
          refine ⟨pc, d, rfl, ⟨t, i, hsettled, hi, hd⟩, hhi, fun q hlo' hq => ?_⟩
          refine h.clear_of_checkAlong he hb hsplit hpre ?_
          rw [List.mem_range'_1]
          omega

/-- **Which violation is reported**: none if every instruction passes its check in its settled
state, and otherwise that of the first one which fails, before which all pass. -/
theorem report_cases {report : Report} (hr : m.verify = .ok report) :
    (report = .verified ∧ ∀ pc, m.ClearAt g w pc) ∨
    ∃ pc d, report = .rejected (.ofDefect pc d) ∧ m.Fails g w pc d ∧
      ∀ q < pc, m.ClearAt g w q := by
  cases report with
  | verified => exact .inl ⟨rfl, h.verify_iff.mp hr⟩
  | rejected v =>
      rw [h.verify_eq] at hr
      obtain ⟨before, block, after, hblocks, hbefore, hv, hins⟩ := inspect_eq_rejected hr
      have hmem : block ∈ g.blocks.toList := by
        rw [hblocks]
        exact List.mem_append_right _ List.mem_cons_self
      obtain ⟨e, he, hb, hins'⟩ := h.inspectBlock_of_visited hmem hv
      obtain ⟨pc, d, rfl, hfails, hstop, hfirst⟩ :=
        h.fails_of_checkAlong he hb (hins'.symm.trans hins)
      refine .inr ⟨pc, d, rfl, hfails, fun q hq => ?_⟩
      by_cases hlo : block.start ≤ q
      · exact hfirst q hlo hq
      · -- An instruction before the block is in one that was inspected earlier.
        intro a i ha
        obtain ⟨c, e', -, block', hc, hlo', hhi', -⟩ := id ha
        have hlt : c < block.index := lt_of_start_lt h.built hc hb (by omega)
        have hmem' : block' ∈ before := mem_of_lt_index h.built hblocks hc hlt
        exact h.clear_of_inspectBlock (hblocks ▸ List.mem_append_left _ hmem')
          (hbefore block' hmem') hlo' hhi' a i ha

/-- **When there is a report**: no check faults in a settled state. -/
theorem exists_report
    (hcheck : ∀ pc a i, m.SettledAt g w pc a → m.code[pc]? = some i →
      ∃ d, i.check m.returns a = .ok d) : ∃ report, m.verify = .ok report := by
  rw [h.verify_eq]
  refine exists_inspect fun block hmem hv => ?_
  obtain ⟨e, he, hb, hins⟩ := h.inspectBlock_of_visited hmem hv
  rw [hins]
  have hpositions : ∀ pre pc post t, block.positions = pre ++ pc :: post →
      m.effectAlong e pre = .ok t →
      ∃ i d u, m.code[pc]? = some i ∧ i.check m.returns t = .ok d ∧ i.effect t = .ok u := by
    intro pre pc post t hsplit ht
    obtain ⟨hsettled, i, u, hi, hu⟩ := h.settledAt_of_positions he hb hsplit ht
    obtain ⟨d, hd⟩ := hcheck pc t i hsettled hi
    exact ⟨i, d, u, hi, hd, hu⟩
  obtain ⟨v?, hv?, hindex⟩ := exists_checkAlong hpositions
  refine ⟨v?, hv?, fun v e => ⟨block.index, ?_⟩⟩
  -- The violation is in the block that is inspected.
  have hpos := hindex v e
  simp only [Block.positions, Block.length, List.mem_range'_1] at hpos
  have hsize := stop_le h.built hb
  rw [ControlFlow.Graph.blockHolding,
    (blockOf_eq_some_iff h.built (by omega)).mpr ⟨block, hb, by omega, by omega⟩]

end Solved

/-- **How verification goes on once there is a graph**: solving ends, or an instruction is met whose
effect faults, and verification faults with it. -/
theorem solved_or_fault {m : Method} {g : Graph} {s₀ : State}
    (hg : Graph.build m.registers m.code = .ok g) (hs₀ : m.initialState = .ok s₀) :
    (∃ events w, m.Solved g s₀ events w) ∨
    ∃ pc s i f, m.Meets g (m.solve g).1 pc s ∧ m.code[pc]? = some i ∧ i.effect s = .error f ∧
      m.verify = .error f := by
  rcases solve_cases hg with ⟨f, hf, -⟩ | ⟨s, events, w, h⟩ |
    ⟨_, _, events, _, b, t, block, f, -, -, -, hb, heff, hsolve⟩
  · rw [hs₀] at hf
    cases hf
  · obtain rfl : s₀ = s := Except.ok.inj (hs₀.symm.trans h.initial)
    exact .inl ⟨events, w, h⟩
  · obtain ⟨pc, u, i, hl, hi, hfault⟩ := exists_leads_of_error hg hb heff
    refine .inr ⟨pc, u, i, f, ?_, hi, hfault, ?_⟩
    · rw [hsolve]
      exact ⟨b, t, List.mem_append_right _ List.mem_cons_self, hl⟩
    · rw [verify_of_build hg, judge, hsolve]

/-- Where there is a report on a method that has a graph, solving has ended. -/
theorem solved_of_report {m : Method} {g : Graph} {report : Report}
    (hg : Graph.build m.registers m.code = .ok g) (hr : m.verify = .ok report) :
    ∃ s₀ events w, m.Solved g s₀ events w := by
  have hjudge := (verify_of_build hg).symm.trans hr
  rcases solve_cases hg with ⟨f, -, hsolve⟩ | h | ⟨_, _, _, _, _, _, _, f, _, _, _, _, _, hsolve⟩
  · rw [judge, hsolve] at hjudge
    cases hjudge
  · exact h
  · rw [judge, hsolve] at hjudge
    cases hjudge

/-- What a verified method is: it has a solution, in which every instruction passes its check. -/
theorem solved_of_verified {m : Method} (hv : m.verify = .ok .verified) :
    ∃ g s₀ events w, m.Solved g s₀ events w ∧
      ∀ pc a i, m.SettledAt g w pc a → m.code[pc]? = some i → i.check m.returns a = .ok none := by
  cases hg : Graph.build m.registers m.code with
  | error v =>
      unfold verify trace at hv
      rw [hg] at hv
      cases hv
  | ok g =>
      obtain ⟨s₀, events, w, h⟩ := solved_of_report hg hv
      exact ⟨g, s₀, events, w, h, h.verify_iff.mp hv⟩

end Method

end BytecodeVerifier
