import BytecodeVerifier.Proofs.Flow
import BytecodeVerifier.Proofs.Worklist

/-!
# Settling — the visits made and the entry states they end in

A `Run` is a sequence of visits, each to the block next on the worklist.  `settle` makes a run to a
worklist that is empty, or to one whose next visit faults (`settle_cases`), and on a sound worklist
a visit faults only where an effect does (`visit_cases`).

Two things are said of every run.  Whatever holds of the entry states, passes along the blocks and
passes to merges holds of every state that is visited and of every entry state at the end
(`Run.entries`).  And the worklist *covers* the graph: what a block leaves lies below the entry
states of its successors, unless the block is to be visited again (`Run.covers`).

`solve` makes such a run from the state on entry (`solve_runs`).
-/

namespace BytecodeVerifier

open Dataflow ControlFlow

/-- Every graph has an entry. -/
theorem ControlFlow.size_pos {file : Register.File} {code : Array Instruction} {g : Graph}
    (hg : Graph.build file code = .ok g) : 0 < g.size := by
  by_cases hne : 0 < code.size
  · obtain ⟨b, block, hb, -⟩ := exists_block hg hne
    exact Nat.lt_of_le_of_lt (Nat.zero_le b) (Array.getElem?_eq_some_iff.mp hb).1
  · obtain rfl := eq_connect_of_build hg
    have hempty : code.isEmpty = true := by simpa using hne
    simp [connect, hempty, Graph.size]

theorem ControlFlow.exists_first {file : Register.File} {code : Array Instruction} {g : Graph}
    (hg : Graph.build file code = .ok g) : ∃ first, g.blocks[0]? = some first :=
  ⟨_, Array.getElem?_eq_getElem (size_pos hg)⟩

namespace Method

/-! ### Visits -/

/-- A worklist with a place for every block of a graph and every register of a method. -/
abbrev Fits (m : Method) (g : Graph) (w : Worklist) : Prop :=
  w.Sound m.registers.size.toNat g.size

/-- What a visit does: the state which the block leaves flows into its successors. -/
structure Visited (m : Method) (g : Graph) (w : Worklist) (b : Nat) (s : State) (block : Block)
    (exit : State) (w' : Worklist) : Prop where
  found : g.blocks[b]? = some block
  effect : m.effectAlong s block.positions = .ok exit
  size : exit.size = m.registers.size.toNat
  flow : w.flowInto exit block.successors = .ok w'
  flowed : Worklist.Flowed w exit block.successors w'

section Built

variable {m : Method} {g : Graph} (hg : Graph.build m.registers m.code = .ok g)
include hg

/-- **A visit faults only where an effect does**, and keeps the worklist sound. -/
theorem visit_cases {w w₁ : Worklist} {b : Nat} {s : State} (hw : m.Fits g w)
    (hpop : w.pop = .ok (b, s, w₁)) :
    (∃ block exit w₂, m.visit g w₁ b s = .ok w₂ ∧ m.Fits g w₂ ∧
      m.Visited g w₁ b s block exit w₂) ∨
    (∃ block f, g.blocks[b]? = some block ∧ m.effectAlong s block.positions = .error f ∧
      m.visit g w₁ b s = .error f) := by
  have hentry := (Worklist.popped_of_pop hpop).entry
  have hb : b < g.size := by rw [← hw.blocks]; exact hentry.lt
  have hblock : g.blocks[b]? = some g.blocks[b] := Array.getElem?_eq_getElem hb
  cases he : m.effectAlong s g.blocks[b].positions with
  | error f =>
      refine .inr ⟨_, f, hblock, he, ?_⟩
      simp [visit, hblock, he, bind, Except.bind]
  | ok exit =>
      have hsize : exit.size = m.registers.size.toNat := by
        rw [size_effectAlong he, hw.sizes b s hentry]
      obtain ⟨w₂, hflow, hw₂, hf⟩ := (hw.of_pop hpop).flowInto hsize
        fun c hc => successor_lt hg hblock hc
      refine .inl ⟨_, exit, w₂, ?_, hw₂, hblock, he, hsize, hflow, hf⟩
      simp [visit, hblock, he, hflow, bind, Except.bind]

theorem visited_of_visit {w w₁ w₂ : Worklist} {b : Nat} {s : State} (hw : m.Fits g w)
    (hpop : w.pop = .ok (b, s, w₁)) (hv : m.visit g w₁ b s = .ok w₂) :
    m.Fits g w₂ ∧ ∃ block exit, m.Visited g w₁ b s block exit w₂ := by
  rcases visit_cases hg hw hpop with ⟨block, exit, w', hv', hw', hvis⟩ | ⟨-, f, -, -, hv'⟩
  · obtain rfl : w' = w₂ := Except.ok.inj (hv'.symm.trans hv)
    exact ⟨hw', block, exit, hvis⟩
  · rw [hv] at hv'
    cases hv'

end Built

/-! ### Runs -/

/-- Visits made one after the other, each to the block next on the worklist. -/
inductive Run (m : Method) (g : Graph) : Worklist → List Event → Worklist → Prop where
  | refl (w : Worklist) : Run m g w [] w
  | step {w w₁ w₂ w' : Worklist} {b : Nat} {s : State} {events : List Event} :
      w.pop = .ok (b, s, w₁) → m.visit g w₁ b s = .ok w₂ → Run m g w₂ events w' →
      Run m g w (.visiting b s :: events) w'

/-- Settling makes a run: to an empty worklist, or to a pop or a visit that faults. -/
theorem settle_cases {m : Method} {g : Graph} {n : Nat} (w : Worklist) (hw : w.Within n) :
    ∃ events w', Run m g w events w' ∧
      ((w'.isEmpty = true ∧ m.settle g n w hw = (events, .ok w')) ∨
        (¬ w'.isEmpty = true ∧ ∃ f, w'.pop = .error f ∧
          m.settle g n w hw = (events, .error f)) ∨
        ∃ b s w₁ f, w'.pop = .ok (b, s, w₁) ∧ m.visit g w₁ b s = .error f ∧
          m.settle g n w hw = (events ++ [.visiting b s], .error f)) := by
  fun_induction settle m g n w hw with
  | case1 w hw hempty => exact ⟨[], w, .refl w, .inl ⟨hempty, rfl⟩⟩
  | case2 w hw hne f hp => exact ⟨[], w, .refl w, .inr (.inl ⟨hne, f, hp, rfl⟩)⟩
  | case3 w hw hne b s w₁ hp f hv =>
      exact ⟨[], w, .refl w, .inr (.inr ⟨b, s, w₁, f, hp, hv, rfl⟩)⟩
  | case4 w hw hne b s w₁ hp w₂ hv rest ih =>
      obtain ⟨events, w', hrun, hend⟩ := ih
      refine ⟨.visiting b s :: events, w', .step hp hv hrun, ?_⟩
      rcases hend with ⟨hempty, e⟩ | ⟨hne, f, hpop, e⟩ | ⟨b', s', w₁', f, hpop, hfault, e⟩
      · exact .inl ⟨hempty, by rw [show rest = _ from e]⟩
      · exact .inr (.inl ⟨hne, f, hpop, by rw [show rest = _ from e]⟩)
      · exact .inr (.inr ⟨b', s', w₁', f, hpop, hfault, by rw [show rest = _ from e]; rfl⟩)

/-- The worklist before the first visit: the entry is scheduled, in the state on entry. -/
structure Started (m : Method) (g : Graph) (s : State) (w : Worklist) : Prop where
  initial : m.initialState = .ok s
  fits : m.Fits g w
  entry : w.Entry 0 s
  only : ∀ b e, w.Entry b e → b = 0 ∧ e = s
  stack : 0 ∈ w.stack

section Built

variable {m : Method} {g : Graph} (hg : Graph.build m.registers m.code = .ok g)
include hg

theorem start_of_initialState {s : State} (hs : m.initialState = .ok s) :
    ∃ w, m.start g = .ok w ∧ m.Started g s w := by
  have hsize := size_initialState hs
  obtain ⟨w, hw, hfits, hj⟩ :=
    (Worklist.sound_empty m.registers.size.toNat g.size).join (size_pos hg) hsize
  have hnone := Worklist.not_entry_empty g.size
  have hentry : w.Entry 0 s := hj.first (hnone 0)
  refine ⟨w, by simp [start, hs, Worklist.new, hw, bind, Except.bind], hs, hfits, hentry,
    fun b e he => ?_, hj.changed fun e => ?_⟩
  · by_cases hb : b = 0
    · subst hb
      exact ⟨rfl, he.unique hentry⟩
    · rw [Worklist.Entry, hj.others b hb] at he
      exact absurd he (hnone b e)
  · exact hnone 0 s (by rw [Worklist.Entry, ← e]; exact hentry)

namespace Run

/-- A run keeps a worklist sound, and its entry states only rise. -/
theorem fits {w w' : Worklist} {events : List Event} (h : Run m g w events w')
    (hw : m.Fits g w) :
    m.Fits g w' ∧ ∀ b e, w.Entry b e → ∃ e', w'.Entry b e' ∧ e ≤ e' := by
  induction h with
  | refl w => exact ⟨hw, fun b e he => ⟨e, he, le_refl e⟩⟩
  | step hp hv _ ih =>
      obtain ⟨hw₂, block, exit, hvis⟩ := visited_of_visit hg hw hp hv
      obtain ⟨hw', hrise⟩ := ih hw₂
      refine ⟨hw', fun b e he => ?_⟩
      obtain ⟨e₂, he₂, hle₂⟩ := hvis.flowed.rises b e
        (by rw [Worklist.Entry, (Worklist.popped_of_pop hp).entries]; exact he)
      obtain ⟨e', he', hle⟩ := hrise b e₂ he₂
      exact ⟨e', he', le_trans hle₂ hle⟩

/-- **What every run preserves.**  Let `P` hold of the entry states, pass to merges, and pass from a
state that is visited to what the block leaves in each successor.  Then `P` holds of every state
visited and of the last entry states. -/
theorem entries {w w' : Worklist} {events : List Event} (h : Run m g w events w')
    (hw : m.Fits g w) {P : Nat → State → Prop}
    (hmerge : ∀ b s t, s.size = m.registers.size.toNat → t.size = m.registers.size.toNat →
      P b s → P b t → P b (s.merge t))
    (hstep : ∀ b block s t c, .visiting b s ∈ events → g.blocks[b]? = some block → P b s →
      m.effectAlong s block.positions = .ok t → c ∈ block.successors → P c t)
    (hP : ∀ b e, w.Entry b e → P b e) :
    (∀ b e, w'.Entry b e → P b e) ∧ ∀ b s, .visiting b s ∈ events → P b s := by
  induction h with
  | refl w => exact ⟨hP, fun b s hs => absurd hs List.not_mem_nil⟩
  | @step w w₁ w₂ w' b s events hp hv hrun ih =>
      -- `P` passes over the first visit, so the rest of the run starts from entry states with `P`.
      obtain ⟨hw₂, block, exit, hvis⟩ := visited_of_visit hg hw hp hv
      have hpop := Worklist.popped_of_pop hp
      have hP₁ : ∀ c e, w₁.Entry c e → P c e := fun c e he => hP c e (by
        rw [Worklist.Entry, ← hpop.entries]; exact he)
      have hP₂ : ∀ c e, w₂.Entry c e → P c e :=
        (hw.of_pop hp).flowInto_entries hvis.size (fun c hc => successor_lt hg hvis.found hc)
          hvis.flow hmerge hP₁ fun c hc =>
            hstep b block s exit c List.mem_cons_self hvis.found (hP b s hpop.entry) hvis.effect hc
      obtain ⟨hlast, hevents⟩ := ih hw₂
        (fun c block s t d hs => hstep c block s t d (List.mem_cons_of_mem _ hs)) hP₂
      refine ⟨hlast, fun c t ht => ?_⟩
      rcases List.mem_cons.mp ht with e | ht
      · cases e
        exact hP b s hpop.entry
      · exact hevents c t ht

/-- **What a visit leaves stays below the entry states of the successors**, however the run goes
on. -/
theorem arrives {w w' : Worklist} {events : List Event} (h : Run m g w events w')
    (hw : m.Fits g w) {b : Nat} {s : State} (hs : .visiting b s ∈ events) :
    ∃ block exit, g.blocks[b]? = some block ∧ m.effectAlong s block.positions = .ok exit ∧
      ∀ c ∈ block.successors, ∃ e, w'.Entry c e ∧ exit ≤ e := by
  induction h with
  | refl w => cases hs
  | step hp hv hrun ih =>
      obtain ⟨hw₂, block, exit, hvis⟩ := visited_of_visit hg hw hp hv
      rcases List.mem_cons.mp hs with e | hs
      · cases e
        refine ⟨block, exit, hvis.found, hvis.effect, fun c hc => ?_⟩
        obtain ⟨e₂, he₂, hle₂⟩ := hvis.flowed.arrives c hc
        obtain ⟨e', he', hle⟩ := (hrun.fits hg hw₂).2 c e₂ he₂
        exact ⟨e', he', le_trans hle₂ hle⟩
      · exact ih hw₂ hs

end Run

/-! ### Covering -/

/-- What a block leaves in its entry state lies below the entry states of its successors, unless
the block is to be visited. -/
def Covers (m : Method) (g : Graph) (w : Worklist) : Prop :=
  ∀ b e, w.Entry b e → b ∉ w.stack → ∃ block exit, g.blocks[b]? = some block ∧
    m.effectAlong e block.positions = .ok exit ∧
    ∀ c ∈ block.successors, ∃ e', w.Entry c e' ∧ exit ≤ e'

/-- A visit keeps the graph covered. -/
theorem covers_visit {w w₁ w₂ : Worklist} {b : Nat} {s : State} (hw : m.Fits g w)
    (hp : w.pop = .ok (b, s, w₁)) (hv : m.visit g w₁ b s = .ok w₂) (hc : m.Covers g w) :
    m.Covers g w₂ := by
  obtain ⟨hw₂, block, exit, hvis⟩ := visited_of_visit hg hw hp hv
  have hpop := Worklist.popped_of_pop hp
  intro c e he hnot
  have hkept : w.Entry c e := by
    rw [Worklist.Entry, ← hpop.entries, ← hvis.flowed.kept c hnot]
    exact he
  by_cases hb : c = b
  · -- The block just visited: what it leaves has arrived.
    subst hb
    obtain rfl := hkept.unique hpop.entry
    exact ⟨block, exit, hvis.found, hvis.effect, hvis.flowed.arrives⟩
  · have hstack : c ∉ w.stack := by
      rw [hpop.stack, List.mem_cons]
      rintro (h | h)
      · exact hb h
      · exact hnot (hvis.flowed.stack c h)
    -- It was covered before, and the entry states of its successors only rise.
    obtain ⟨block', exit', hb', he', hsucc⟩ := hc c e hkept hstack
    refine ⟨block', exit', hb', he', fun d hd => ?_⟩
    obtain ⟨e₁, he₁, hle₁⟩ := hsucc d hd
    obtain ⟨e₂, he₂, hle₂⟩ := hvis.flowed.rises d e₁
      (by rw [Worklist.Entry, hpop.entries]; exact he₁)
    exact ⟨e₂, he₂, le_trans hle₁ hle₂⟩

/-- **Every run keeps the graph covered.** -/
theorem Run.covers {w w' : Worklist} {events : List Event} (h : Run m g w events w')
    (hw : m.Fits g w) (hc : m.Covers g w) : m.Covers g w' := by
  induction h with
  | refl w => exact hc
  | step hp hv _ ih =>
      exact ih (visited_of_visit hg hw hp hv).1 (covers_visit hg hw hp hv hc)

/-! ### Solving -/

/-- **Solving makes a run** from the state on entry, if there is one: to a worklist that is empty,
or to one whose next block has an effect that faults. -/
theorem solve_runs :
    (∃ f, m.initialState = .error f ∧ m.solve g = ([], .error f)) ∨
    ∃ s₀ w₀ events w, m.start g = .ok w₀ ∧ m.Started g s₀ w₀ ∧ Run m g w₀ events w ∧
      ((w.isEmpty = true ∧ m.solve g = (events, .ok w)) ∨
        ∃ b t w₁ block f, w.pop = .ok (b, t, w₁) ∧ g.blocks[b]? = some block ∧
          m.effectAlong t block.positions = .error f ∧
          m.solve g = (events ++ [.visiting b t], .error f)) := by
  cases hs : m.initialState with
  | error f =>
      have hstart : m.start g = .error f := by simp [start, hs, bind, Except.bind]
      refine .inl ⟨f, rfl, ?_⟩
      unfold solve
      split
      · next f' h => rw [hstart] at h; cases h; rfl
      · next w h => rw [hstart] at h; cases h
  | ok s₀ =>
      obtain ⟨w₀, hstart, hst⟩ := start_of_initialState hg hs
      have hsolve : m.solve g =
          m.settle g m.registers.size.toNat w₀ (within_start hstart) := by
        unfold solve
        split
        · next f h => rw [hstart] at h; cases h
        · next w h => rw [hstart] at h; cases h; rfl
      obtain ⟨events, w, hrun, hend⟩ := settle_cases (m := m) (g := g) w₀ (within_start hstart)
      have hw := (hrun.fits hg hst.fits).1
      refine .inr ⟨s₀, w₀, events, w, hstart, hst, hrun, ?_⟩
      -- A pop of a sound worklist does not fault, and a visit only where the effect does.
      rcases hend with ⟨hempty, e⟩ | ⟨hne, f, hp, -⟩ | ⟨b, t, w₁, f, hp, hv, e⟩
      · exact .inl ⟨hempty, hsolve.trans e⟩
      · obtain ⟨b, t, w₁, hp'⟩ := hw.pop hne
        rw [hp] at hp'
        cases hp'
      · rcases visit_cases hg hw hp with ⟨-, -, w₂, hv', -⟩ | ⟨block, f', hb, he, hv'⟩
        · rw [hv] at hv'
          cases hv'
        · obtain rfl : f = f' := Except.error.inj (hv.symm.trans hv')
          exact .inr ⟨b, t, w₁, block, f, hp, hb, he, hsolve.trans e⟩

end Built

end Method

end BytecodeVerifier
