import BytecodeVerifier.Proofs.Worklist
import Mathlib.Order.Bounds.Basic

/-!
# History — a worklist loses nothing of what was joined into it

Joins and pops come in any order, and states arrive in a block whilst it waits on the stack, after
it was popped, or to no effect.  **Whatever was done with a worklist, it has the account of it
right** (`session_accounts`): an entry state is the least upper bound, slot by slot, of all states
ever joined into its block, and a block which is not on the stack was last popped with the very
entry state it has.

A `Session` is anything that may be done, the latest action first.  `Accounts` is what every session
keeps: what one join keeps is `Accounts.join`, and what one pop keeps is `Accounts.pop`.
-/

namespace BytecodeVerifier.Dataflow.Worklist

/-- What was done with a worklist. -/
inductive Action where
  /-- A state was joined into a block. -/
  | joined (block : Nat) (state : State)
  /-- A block was popped, in a state. -/
  | popped (block : Nat) (state : State)
  deriving DecidableEq, Repr

/-- The states ever joined into a block. -/
def Joins (history : List Action) (b : Nat) : Set State := {s | .joined b s ∈ history}

/-- The state in which a block was last popped. -/
def lastPop (b : Nat) : List Action → Option State
  | [] => none
  | .joined _ _ :: earlier => lastPop b earlier
  | .popped c s :: earlier => if c = b then some s else lastPop b earlier

/-- What may be done with a worklist of `k` blocks and `n` registers, the latest action first, and
the worklist then: it is made with the state of a start block, and then states are joined into
blocks and blocks popped, in any order. -/
inductive Session (n k : Nat) : List Action → Worklist → Prop where
  | new {start : Nat} {s : State} {w : Worklist} : start < k → s.size = n →
      new k start s = .ok w → Session n k [.joined start s] w
  | join {history : List Action} {w w' : Worklist} {b : Nat} {s : State} :
      Session n k history w → b < k → s.size = n → w.join b s = .ok w' →
      Session n k (.joined b s :: history) w'
  | pop {history : List Action} {w w' : Worklist} {b : Nat} {s : State} :
      Session n k history w → w.pop = .ok (b, s, w') → Session n k (.popped b s :: history) w'

/-- A worklist has what was joined into it, and owes a visit to every block whose entry state is
another one than when it was last popped. -/
structure Accounts (n k : Nat) (history : List Action) (w : Worklist) : Prop where
  sound : w.Sound n k
  joined : ∀ b, (∃ e, w.Entry b e) ↔ (Joins history b).Nonempty
  isLUB : ∀ b e, w.Entry b e → ∀ i, IsLUB ((·.valueAt i) '' Joins history b) (e.valueAt i)
  settled : ∀ b e, w.Entry b e → b ∉ w.stack → lastPop b history = some e

/-! ### What was joined -/

theorem joins_joined_same (history : List Action) (b : Nat) (s : State) :
    Joins (.joined b s :: history) b = insert s (Joins history b) := by
  ext t
  simp [Joins]

theorem joins_joined_other (history : List Action) {b c : Nat} (s : State) (h : b ≠ c) :
    Joins (.joined c s :: history) b = Joins history b := by
  ext t
  simp [Joins, h]

theorem joins_popped (history : List Action) (b c : Nat) (s : State) :
    Joins (.popped c s :: history) b = Joins history b := by
  ext t
  simp [Joins]

/-! ### One action -/

theorem accounts_empty (n k : Nat) : Accounts n k [] (empty k) := by
  have hnone := not_entry_empty k
  refine ⟨sound_empty n k, fun b => ?_, fun b e he => absurd he (hnone b e),
    fun b e he => absurd he (hnone b e)⟩
  constructor
  · rintro ⟨e, he⟩
    exact absurd he (hnone b e)
  · rintro ⟨s, hs⟩
    exact absurd hs List.not_mem_nil

namespace Accounts

variable {n k : Nat} {history : List Action} {w w' : Worklist} {b : Nat} {s : State}

/-- **A join is accounted for**: it succeeds, and what the block had is joined with the state. -/
theorem join (h : Accounts n k history w) (hb : b < k) (hs : s.size = n) :
    ∃ w', w.join b s = .ok w' ∧ Accounts n k (.joined b s :: history) w' := by
  obtain ⟨w', hjoin, hw', hj⟩ := h.sound.join hb hs
  have hothers : ∀ c, c ≠ b → ∀ e, w'.Entry c e ↔ w.Entry c e := fun c hc e => by
    rw [Entry, Entry, hj.others c hc]
  refine ⟨w', hjoin, hw', fun c => ?_, fun c e he i => ?_, fun c e he hstack => ?_⟩
  · by_cases hc : c = b
    · subst hc
      rw [joins_joined_same]
      obtain ⟨e, he, -⟩ := hj.arrives h.sound hs
      exact ⟨fun _ => Set.insert_nonempty s _, fun _ => ⟨e, he⟩⟩
    · rw [joins_joined_other _ _ hc, ← h.joined c]
      exact exists_congr (hothers c hc)
  · by_cases hc : c = b
    · subst hc
      rw [joins_joined_same, Set.image_insert_eq]
      by_cases hold : ∃ old, w.Entry c old
      · -- The state is merged into the one that was there.
        obtain ⟨old, hold⟩ := hold
        obtain rfl := he.unique (hj.merged old hold)
        rw [State.valueAt_merge (by rw [hs, h.sound.sizes c old hold])]
        have hlub := (h.isLUB c old hold i).insert (s.valueAt i)
        rw [sup_comm] at hlub
        exact hlub
      · -- It is the first one.
        obtain rfl := he.unique (hj.first fun old ho => hold ⟨old, ho⟩)
        rw [h.joined c, Set.not_nonempty_iff_eq_empty] at hold
        rw [hold, Set.image_empty, insert_empty_eq]
        exact isLUB_singleton
    · rw [joins_joined_other _ _ hc]
      exact h.isLUB c e ((hothers c hc e).mp he) i
  · -- A block which is not on the stack has the entry state it had.
    have hkept : w'.entries[c]? = w.entries[c]? := by
      by_cases hc : c = b
      · subst hc
        by_contra hch
        exact hstack (hj.changed hch)
      · exact hj.others c hc
    have he' : w.Entry c e := by
      rw [Entry, ← hkept]
      exact he
    exact h.settled c e he' fun hmem => hstack (hj.stack c hmem)

/-- **A pop is accounted for**: the block is popped in the entry state it has. -/
theorem pop (h : Accounts n k history w) (hpop : w.pop = .ok (b, s, w')) :
    Accounts n k (.popped b s :: history) w' := by
  have hp := popped_of_pop hpop
  have hentry : ∀ c e, w'.Entry c e ↔ w.Entry c e := fun c e => by rw [Entry, Entry, hp.entries]
  refine ⟨h.sound.of_pop hpop, fun c => ?_, fun c e he i => ?_, fun c e he hstack => ?_⟩
  · rw [joins_popped, ← h.joined c]
    exact exists_congr (hentry c)
  · rw [joins_popped]
    exact h.isLUB c e ((hentry c e).mp he) i
  · rw [hentry] at he
    by_cases hc : b = c
    · subst hc
      rw [lastPop, if_pos rfl, he.unique hp.entry]
    · rw [lastPop, if_neg hc]
      refine h.settled c e he fun hmem => ?_
      rw [hp.stack, List.mem_cons] at hmem
      exact hmem.elim (fun e => hc e.symm) hstack

end Accounts

/-! ### Sessions -/

/-- A worklist can be made, and accounts for its start. -/
theorem accounts_new {n k start : Nat} {s : State} (hstart : start < k) (hs : s.size = n) :
    ∃ w, new k start s = .ok w ∧ Accounts n k [.joined start s] w :=
  (accounts_empty n k).join hstart hs

/-- **Every session is accounted for.** -/
theorem Session.accounts {n k : Nat} {history : List Action} {w : Worklist}
    (h : Session n k history w) : Accounts n k history w := by
  induction h with
  | new hstart hs hnew =>
      obtain ⟨w, hnew', hw⟩ := accounts_new hstart hs
      obtain rfl := Except.ok.inj (hnew'.symm.trans hnew)
      exact hw
  | join _ hb hs hjoin ih =>
      obtain ⟨w', hjoin', hw'⟩ := ih.join hb hs
      obtain rfl := Except.ok.inj (hjoin'.symm.trans hjoin)
      exact hw'
  | pop _ hpop ih => exact ih.pop hpop

theorem entryOf_eq_some_iff {w : Worklist} {b : Nat} {e : State} :
    w.entryOf b = .ok (some e) ↔ w.Entry b e :=
  ⟨entryOf_eq_ok, entryOf_of_entry⟩

theorem Sound.exists_entryOf {n k : Nat} {w : Worklist} (hw : w.Sound n k) {b : Nat} (hb : b < k) :
    ∃ entry, w.entryOf b = .ok entry ∧ ((∃ e, w.Entry b e) ↔ entry.isSome = true) := by
  have hlt : b < w.entries.size := by rw [hw.blocks]; exact hb
  have hget : w.entries[b]? = some w.entries[b] := Array.getElem?_eq_getElem hlt
  refine ⟨w.entries[b], by rw [entryOf, hget], ?_⟩
  simp [Entry, hget, Option.isSome_iff_exists]

/-- **A worklist loses no update.**  Whatever is done with a worklist of `k` blocks and `n`
registers, joins and pops succeed; the stack holds just the pending blocks, each once; the visited
blocks are those with an entry state, and those into which a state was ever joined; an entry state
is the least upper bound, slot by slot, of all states joined into its block; and a visited block
which is not on the stack has the entry state in which it was last popped. -/
theorem session_accounts (n k : Nat) :
    (∀ start s, start < k → s.size = n → ∃ w, new k start s = .ok w) ∧
    ∀ history w, Session n k history w →
      (∀ b s, b < k → s.size = n → ∃ w', w.join b s = .ok w') ∧
      (w.isEmpty = false → ∃ b s w', w.pop = .ok (b, s, w')) ∧
      w.stack.Nodup ∧ (∀ b, b ∈ w.stack ↔ w.pending.contains b = true) ∧
      (∀ b < k, ∃ entry, w.entryOf b = .ok entry ∧
        (w.visited.contains b = true ↔ entry.isSome = true) ∧
        (entry.isSome = true ↔ (Joins history b).Nonempty)) ∧
      (∀ b e, w.entryOf b = .ok (some e) → e.size = n ∧
        ∀ i, IsLUB ((·.valueAt i) '' Joins history b) (e.valueAt i)) ∧
      ∀ b, w.visited.contains b = true → b ∉ w.stack →
        ∃ e, w.entryOf b = .ok (some e) ∧ lastPop b history = some e := by
  constructor
  · intro start s hstart hs
    obtain ⟨w, hw, -⟩ := accounts_new hstart hs
    exact ⟨w, hw⟩
  · intro history w h
    have hw := h.accounts
    refine ⟨fun b s hb hs => ?_, fun hne => hw.sound.pop (by simp [hne]), hw.sound.nodup,
      fun b => (hw.sound.pending b).symm, fun b hb => ?_, fun b e he => ?_, fun b hv hstack => ?_⟩
    · obtain ⟨w', hjoin, -⟩ := hw.join hb hs
      exact ⟨w', hjoin⟩
    · obtain ⟨entry, hentry, hsome⟩ := hw.sound.exists_entryOf hb
      exact ⟨entry, hentry, (hw.sound.visited b).trans hsome, hsome.symm.trans (hw.joined b)⟩
    · rw [entryOf_eq_some_iff] at he
      exact ⟨hw.sound.sizes b e he, hw.isLUB b e he⟩
    · obtain ⟨e, he⟩ := (hw.sound.visited b).mp hv
      exact ⟨e, entryOf_of_entry he, hw.settled b e he hstack⟩

/-- Of two blocks the second is joined with a float, popped, joined with an int, and popped
again. -/
def retried : List Action :=
  [.popped 1 ⟨#[.conflict]⟩, .joined 1 ⟨#[.int]⟩, .popped 1 ⟨#[.float]⟩, .joined 1 ⟨#[.float]⟩,
    .joined 0 ⟨#[.int]⟩]

theorem retried_accounts : ∃ w, Session 1 2 retried w ∧ w.entryOf 1 = .ok (some ⟨#[.conflict]⟩) ∧
    w.visited.contains 1 = true ∧ 1 ∉ w.stack ∧
    (∀ i, IsLUB ((·.valueAt i) '' Joins retried 1) (State.valueAt ⟨#[.conflict]⟩ i)) ∧
    ∃ e, w.entryOf 1 = .ok (some e) ∧ lastPop 1 retried = some e := by
  have session : Session 1 2 retried _ :=
    .pop (.join (.pop (.join (.new (by decide) rfl rfl) (by decide) rfl rfl) rfl) (by decide) rfl
      rfl) rfl
  obtain ⟨-, -, -, -, -, isLUB, settled⟩ := (session_accounts 1 2).2 _ _ session
  exact ⟨_, session, rfl, rfl, by decide, (isLUB 1 _ rfl).2, settled 1 rfl (by decide)⟩

end BytecodeVerifier.Dataflow.Worklist
