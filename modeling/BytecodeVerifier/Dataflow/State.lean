import BytecodeVerifier.Value
import BytecodeVerifier.Register

/-!
# States — what the registers hold at one point of a method

A state gives every register of a frame a value.  States join slot by slot.  The joined state has
the size of the first, so the second must not be longer.  `State.slack` measures how far a state can
still rise: a join that changes a state lowers it.
-/

namespace BytecodeVerifier.Dataflow

/-- The values held by the registers of a frame. -/
structure State where
  slots : Array Value
  deriving DecidableEq, Repr, Inhabited

namespace State

/-- The state in which no register has been written. -/
def blank (size : Nat) : State := ⟨Array.replicate size .uninitialized⟩

/-- The state of `size` registers none of which has been written; there must be room for it, one
byte for each register. -/
def setUp (size : Nat) : Except Fault State := do
  reserve size 1
  return blank size

/-- The number of registers. -/
def size (s : State) : Nat := s.slots.size

/-- What a slot holds; nothing is written beyond the frame. -/
def valueAt (s : State) (i : Nat) : Value := s.slots.getD i .uninitialized

/-- What a register holds. -/
def get (s : State) (r : Register) : Except Fault Value :=
  match s.slots[r.toNat]? with
  | some v => .ok v
  | none => .error .outOfBounds

/-- The state with another value in a register. -/
def set (s : State) (r : Register) (v : Value) : Except Fault State :=
  if r.toNat < s.size then .ok ⟨s.slots.setIfInBounds r.toNat v⟩ else .error .outOfBounds

/-- The slots of one state, each joined with that of another. -/
def merge (s t : State) : State := ⟨s.slots.mapIdx fun i v => v.join (t.valueAt i)⟩

/-- The join of two states, the second not longer than the first, and whether it differs from the
first. -/
def join (s t : State) : Except Fault (State × Bool) :=
  if t.size ≤ s.size then .ok (s.merge t, decide (s.merge t ≠ s)) else .error .outOfBounds

/-- The slots which have been written, in ascending order, each with what it holds. -/
def written (s : State) : List (Nat × Value) :=
  (s.slots.foldl
    (fun (i, found) v => (i + 1, if v = .uninitialized then found else (i, v) :: found))
    (0, [])).2.reverse

/-- How a state is written: registers never written are left out. -/
def text (s : State) : String :=
  "\x7b" ++ ",".intercalate (s.written.map fun (i, v) => s!"v{i}:{v.symbol}") ++ "\x7d"

/-! ### Sizes -/

@[simp] theorem size_blank (n : Nat) : (blank n).size = n := by simp [blank, size]

theorem size_set {s t : State} {r : Register} {v : Value} (h : s.set r v = .ok t) :
    t.size = s.size := by
  unfold set at h
  split at h
  · cases h; simp [size]
  · cases h

@[simp] theorem size_merge (s t : State) : (s.merge t).size = s.size := by simp [merge, size]

/-! ### How far a state can rise -/

/-- The number of steps by which some values can still rise. -/
def slackOf : List Value → Nat
  | [] => 0
  | v :: vs => (2 - v.rank) + slackOf vs

/-- The number of steps by which the slots of a state can still rise. -/
def slack (s : State) : Nat := slackOf s.slots.toList

theorem slackOf_le (vs : List Value) : slackOf vs ≤ 2 * vs.length := by
  induction vs with
  | nil => exact Nat.le_refl _
  | cons v vs ih =>
      rw [slackOf, List.length_cons]
      omega

theorem slack_le (s : State) : s.slack ≤ 2 * s.size := by
  rw [size, ← Array.length_toList]
  exact slackOf_le _

theorem slackOf_mapIdx_join_le (vs : List Value) (f : Nat → Value) :
    slackOf (vs.mapIdx fun i v => v.join (f i)) ≤ slackOf vs := by
  induction vs generalizing f with
  | nil => exact Nat.le_refl _
  | cons v vs ih =>
      have hv := Value.rank_le_rank_join v (f 0)
      have hvs := ih fun i => f (i + 1)
      rw [List.mapIdx_cons, slackOf, slackOf]
      omega

theorem slackOf_mapIdx_join_lt {vs : List Value} {f : Nat → Value}
    (h : (vs.mapIdx fun i v => v.join (f i)) ≠ vs) :
    slackOf (vs.mapIdx fun i v => v.join (f i)) < slackOf vs := by
  induction vs generalizing f with
  | nil => exact absurd rfl h
  | cons v vs ih =>
      have hle := slackOf_mapIdx_join_le vs fun i => f (i + 1)
      have htwo := Value.rank_le_two (v.join (f 0))
      rw [List.mapIdx_cons, slackOf, slackOf]
      by_cases hv : v.join (f 0) = v
      · have htail : (vs.mapIdx fun i v => v.join (f (i + 1))) ≠ vs := fun e =>
          h (by rw [List.mapIdx_cons, e, hv])
        have hlt := ih htail
        rw [hv]
        omega
      · have hlt := Value.rank_lt_rank_join hv
        omega

/-- A join that changes a state brings it closer to the top. -/
theorem slack_merge_lt {s t : State} (h : s.merge t ≠ s) : (s.merge t).slack < s.slack := by
  have e : (s.merge t).slots.toList = s.slots.toList.mapIdx fun i v => v.join (t.valueAt i) := by
    simp [merge]
  rw [slack, slack, e]
  refine slackOf_mapIdx_join_lt fun e' => h ?_
  rw [State.mk.injEq, ← Array.toList_inj, e, e']

end State

end BytecodeVerifier.Dataflow
