import BytecodeVerifier.BitSet
import BytecodeVerifier.Dataflow.State

/-!
# Worklists — the blocks still to be visited

A worklist holds the entry state known for every block and a stack of blocks to be visited, each at
most once.  Joining a state into a block schedules the block when its entry state changes.  Every
join that schedules a block uses up some of the worklist's `potential`, and so does every pop; this
is why following the flow of a method ends.
-/

namespace BytecodeVerifier.Dataflow

/-- The progress of a dataflow analysis. -/
structure Worklist where
  /-- The blocks which have been scheduled at least once. -/
  visited : BitSet
  /-- The blocks on the stack. -/
  pending : BitSet
  /-- The entry state of each block, once one is known. -/
  entries : Array (Option State)
  /-- The blocks to be visited, the next one first. -/
  stack : List Nat
  deriving Repr, Inhabited

namespace Worklist

/-- The worklist on which nothing is known of any block. -/
def empty (blocks : Nat) : Worklist := ⟨.empty, .empty, Array.replicate blocks none, []⟩

/-- There is no block to visit. -/
def isEmpty (w : Worklist) : Bool := w.stack.isEmpty

/-- The entry state known for a block. -/
def entryOf (w : Worklist) (b : Nat) : Except Fault (Option State) :=
  match w.entries[b]? with
  | some e => .ok e
  | none => .error .outOfBounds

/-- The entry state of a block once another state flows in, and whether it is another one. -/
def merged (entry : Option State) (s : State) : Except Fault (State × Bool) :=
  match entry with
  | some e => e.join s
  | none => .ok (s, true)

/-- The worklist on which a block has the given entry state. -/
def record (w : Worklist) (b : Nat) (s : State) : Worklist :=
  { w with entries := w.entries.setIfInBounds b (some s) }

/-- The worklist with a block on top of its stack. -/
def schedule (w : Worklist) (b : Nat) : Worklist :=
  { w with visited := w.visited.insert b, pending := w.pending.insert b, stack := b :: w.stack }

/-- The worklist after a state has flowed into a block. -/
def join (w : Worklist) (b : Nat) (s : State) : Except Fault Worklist := do
  let entry ← w.entryOf b
  let (state, changed) ← merged entry s
  let w' := if changed then w.record b state else w
  if (changed || !w.visited.contains b) && !w.pending.contains b then
    return w'.schedule b
  else
    return w'

/-- The worklist on which only the given block has been reached, with the given state. -/
def new (blocks start : Nat) (s : State) : Except Fault Worklist := (empty blocks).join start s

/-- The worklist on which only the given block has been reached; there must be room for the entry
states, 32 bytes for each block. -/
def setUp (blocks start : Nat) (s : State) : Except Fault Worklist := do
  reserve blocks 32
  new blocks start s

/-- The block to visit next, its entry state, and what is left. -/
def pop (w : Worklist) : Except Fault (Nat × State × Worklist) :=
  match w.stack with
  | [] => .error .outOfBounds
  | b :: stack => do
    let entry ← w.entryOf b
    let s ← unwrap entry
    return (b, s, { w with pending := w.pending.remove b, stack := stack })

/-- How a worklist is written. -/
def text (w : Worklist) : String :=
  let entry : Option State → String
    | some s => s.text
    | none => "⊥"
  " ".intercalate (w.entries.toList.zipIdx.map fun (e, b) => s!"#{b}:" ++ entry e)

/-! ### Sizes of entry states -/

/-- No entry state has more than `n` registers. -/
def Within (n : Nat) (w : Worklist) : Prop :=
  ∀ (b : Nat) (s : State), w.entries[b]? = some (some s) → s.size ≤ n

theorem within_empty (n blocks : Nat) : (empty blocks).Within n := by
  intro b s h
  simp [empty, Array.getElem?_replicate] at h

theorem Within.record {n : Nat} {w : Worklist} (h : w.Within n) (b : Nat) {s : State}
    (hs : s.size ≤ n) : (w.record b s).Within n := by
  intro c t ht
  simp only [Worklist.record, Array.getElem?_setIfInBounds] at ht
  split at ht
  · split at ht
    · cases ht; exact hs
    · cases ht
  · exact h c t ht

theorem entryOf_eq_ok {w : Worklist} {b : Nat} {e : Option State} (h : w.entryOf b = .ok e) :
    w.entries[b]? = some e := by
  unfold entryOf at h
  split at h
  · next heq => cases h; exact heq
  · cases h

theorem merged_size {n : Nat} {entry : Option State} {s t : State} {changed : Bool}
    (he : ∀ e, entry = some e → e.size ≤ n) (hs : s.size ≤ n)
    (h : merged entry s = .ok (t, changed)) : t.size ≤ n := by
  cases entry with
  | none => cases h; exact hs
  | some e =>
      simp only [merged, State.join] at h
      split at h
      · cases h; simpa using he e rfl
      · cases h

/-- The cases of a join: the entry state is recorded or kept, and the block scheduled or not. -/
theorem join_cases {w w' : Worklist} {b : Nat} {s : State} (h : w.join b s = .ok w') :
    ∃ entry t changed, w.entries[b]? = some entry ∧ merged entry s = .ok (t, changed) ∧
      (((changed || !w.visited.contains b) && !w.pending.contains b) = true ∧
          w' = (if changed then w.record b t else w).schedule b ∨
        w' = if changed then w.record b t else w) := by
  unfold join at h
  cases he : w.entryOf b with
  | error f => rw [he] at h; cases h
  | ok entry =>
      rw [he] at h
      simp only [bind, Except.bind] at h
      cases hm : merged entry s with
      | error f => rw [hm] at h; cases h
      | ok p =>
          obtain ⟨t, changed⟩ := p
          rw [hm] at h
          simp only [] at h
          refine ⟨entry, t, changed, entryOf_eq_ok he, hm, ?_⟩
          split at h
          · next hc => cases h; exact .inl ⟨hc, rfl⟩
          · cases h; exact .inr rfl

theorem Within.join {n : Nat} {w w' : Worklist} {b : Nat} {s : State} (hw : w.Within n)
    (hs : s.size ≤ n) (h : w.join b s = .ok w') : w'.Within n := by
  obtain ⟨entry, t, changed, he, hm, hcases⟩ := join_cases h
  have ht : t.size ≤ n := merged_size (fun e h => hw b e (by rw [he, h])) hs hm
  have hr : (if changed then w.record b t else w).Within n := by
    cases changed
    · exact hw
    · exact hw.record b ht
  rcases hcases with ⟨_, rfl⟩ | rfl
  · exact hr
  · exact hr

/-! ### The potential -/

/-- How far the entry state of a block can still rise; a block not reached is below every state of
`n` registers. -/
def weight (n : Nat) : Option State → Nat
  | none => 2 * n + 1
  | some s => s.slack

/-- How far some entry states can still rise. -/
def riseOf (n : Nat) : List (Option State) → Nat
  | [] => 0
  | e :: es => weight n e + riseOf n es

/-- How far the entry states can still rise. -/
def rise (n : Nat) (w : Worklist) : Nat := riseOf n w.entries.toList

/-- The number of blocks never scheduled. -/
def unvisited (w : Worklist) : Nat := w.visited.missing w.entries.size

/-- What bounds the pops still to come. -/
def potential (n : Nat) (w : Worklist) : Nat :=
  2 * w.rise n + 2 * w.unvisited + w.stack.length

theorem riseOf_set_lt {n : Nat} {es : List (Option State)} {i : Nat} {old new : Option State}
    (h : es[i]? = some old) (hlt : weight n new < weight n old) :
    riseOf n (es.set i new) < riseOf n es := by
  induction es generalizing i with
  | nil => simp at h
  | cons e es ih =>
      cases i with
      | zero =>
          simp only [List.getElem?_cons_zero, Option.some.injEq] at h
          subst h
          simp only [List.set_cons_zero, riseOf]
          omega
      | succ i =>
          have := ih (i := i) (by simpa using h)
          simp only [List.set_cons_succ, riseOf]
          omega

/-- Recording a changed entry state lowers what the entry states can rise by. -/
theorem rise_record_lt {n : Nat} {w : Worklist} {b : Nat} {s t : State} {entry : Option State}
    (hs : s.size ≤ n) (he : w.entries[b]? = some entry) (hm : merged entry s = .ok (t, true)) :
    (w.record b t).rise n < w.rise n := by
  have hlt : weight n (some t) < weight n entry := by
    cases entry with
    | none =>
        cases hm
        have := s.slack_le
        simp only [weight]
        omega
    | some e =>
        simp only [merged, State.join] at hm
        split at hm
        · simp only [Except.ok.injEq, Prod.mk.injEq, decide_eq_true_eq] at hm
          obtain ⟨rfl, hne⟩ := hm
          exact State.slack_merge_lt hne
        · cases hm
  have hget : w.entries.toList[b]? = some entry := by rw [Array.getElem?_toList, he]
  rw [rise, record, Array.toList_setIfInBounds]
  exact riseOf_set_lt hget hlt

theorem unvisited_record (w : Worklist) (b : Nat) (s : State) :
    (w.record b s).unvisited = w.unvisited := by
  simp [unvisited, record]

theorem unvisited_schedule (w : Worklist) (b : Nat) :
    (w.schedule b).unvisited = (w.visited.insertAll [b]).missing w.entries.size := rfl

theorem unvisited_schedule_le (w : Worklist) (b : Nat) :
    (w.schedule b).unvisited ≤ w.unvisited := by
  rw [unvisited_schedule]
  exact BitSet.missing_insertAll_le ..

theorem unvisited_schedule_lt {w : Worklist} {b : Nat} (hb : b < w.entries.size)
    (hv : w.visited.contains b = false) : (w.schedule b).unvisited < w.unvisited := by
  rw [unvisited_schedule]
  exact BitSet.missing_insertAll_lt List.mem_cons_self hb hv

theorem rise_schedule (n : Nat) (w : Worklist) (b : Nat) : (w.schedule b).rise n = w.rise n := rfl

/-- A join never raises the potential. -/
theorem potential_join_le {n : Nat} {w w' : Worklist} {b : Nat} {s : State} (hs : s.size ≤ n)
    (h : w.join b s = .ok w') : w'.potential n ≤ w.potential n := by
  obtain ⟨entry, t, changed, he, hm, hcases⟩ := join_cases h
  have hb : b < w.entries.size := by
    rw [Array.getElem?_eq_some_iff] at he
    exact he.1
  unfold potential
  cases changed with
  | true =>
      have hrise := rise_record_lt hs he hm
      have hun := unvisited_record w b t
      rcases hcases with ⟨_, rfl⟩ | rfl
      · have hle := unvisited_schedule_le (w.record b t) b
        rw [if_pos rfl, rise_schedule]
        simp only [schedule, record, List.length_cons] at *
        omega
      · rw [if_pos rfl]
        simp only [record] at *
        omega
  | false =>
      rcases hcases with ⟨hc, rfl⟩ | rfl
      · simp only [Bool.false_or, Bool.and_eq_true, Bool.not_eq_true'] at hc
        have hlt := unvisited_schedule_lt hb hc.1
        rw [if_neg Bool.false_ne_true, rise_schedule]
        simp only [schedule, List.length_cons] at *
        omega
      · exact Nat.le_refl _

/-- The parts of a pop. -/
theorem pop_cases {w w' : Worklist} {b : Nat} {s : State} (h : w.pop = .ok (b, s, w')) :
    ∃ stack, w.stack = b :: stack ∧ w.entries[b]? = some (some s) ∧
      w' = { w with pending := w.pending.remove b, stack := stack } := by
  unfold pop at h
  split at h
  · cases h
  · next c stack hstack =>
      cases he : w.entryOf c with
      | error f => rw [he] at h; cases h
      | ok entry =>
          rw [he] at h
          simp only [bind, Except.bind] at h
          cases entry with
          | none => cases h
          | some t =>
              simp only [unwrap] at h
              cases h
              exact ⟨stack, hstack, entryOf_eq_ok he, rfl⟩

/-- A pop lowers the potential. -/
theorem potential_pop_lt {n : Nat} {w w' : Worklist} {b : Nat} {s : State}
    (h : w.pop = .ok (b, s, w')) : w'.potential n < w.potential n := by
  obtain ⟨stack, hstack, _, rfl⟩ := pop_cases h
  simp only [potential, rise, unvisited, hstack, List.length_cons]
  omega

theorem Within.pop {n : Nat} {w w' : Worklist} {b : Nat} {s : State} (hw : w.Within n)
    (h : w.pop = .ok (b, s, w')) : s.size ≤ n ∧ w'.Within n := by
  obtain ⟨stack, _, he, rfl⟩ := pop_cases h
  exact ⟨hw b s he, hw⟩

end Worklist

end BytecodeVerifier.Dataflow
