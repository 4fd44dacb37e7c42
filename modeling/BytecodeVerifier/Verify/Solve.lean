import BytecodeVerifier.Dataflow.Worklist
import BytecodeVerifier.ControlFlow.Build
import BytecodeVerifier.Verify.Effect

/-!
# Solving — the entry state of every block

Blocks are taken off a worklist one at a time; the state a block leaves flows into its successors,
which are scheduled again when their entry state changes.  This settles because a pop uses up some
of the worklist's potential and no join restores it.  Every visit is recorded.
-/

namespace BytecodeVerifier

open Dataflow ControlFlow

/-- What happens whilst a method is verified. -/
inductive Event where
  /-- The structure of the method is at fault. -/
  | malformed (violation : Violation)
  /-- A block is visited, with the entry state known so far. -/
  | visiting (block : Nat) (state : State)
  /-- A block is left out, because control cannot reach it. -/
  | skipping (block : Nat)
  /-- An instruction of a block is at fault. -/
  | rejecting (block : Nat) (violation : Violation)
  deriving DecidableEq, Repr, Inhabited

/-- How an event is written, of a method with the given name. -/
def Event.text (name : String) : Event → String
  | malformed v => s!"rejected {name} (cfg): {v.text}"
  | visiting b s => s!"visiting {name} block #{b} {s.text}"
  | skipping b => s!"skipping unreachable {name} block #{b}"
  | rejecting b v => s!"rejected {name} (block #{b}): {v.text}"

namespace Dataflow.Worklist

/-- The worklist after a state has flowed into several blocks, one after the other. -/
def flowInto (w : Worklist) (s : State) (blocks : List Nat) : Except Fault Worklist :=
  blocks.foldlM (fun w b => w.join b s) w

theorem Within.flowInto {n : Nat} {s : State} (hs : s.size ≤ n) {blocks : List Nat}
    {w w' : Worklist} (hw : w.Within n) (h : w.flowInto s blocks = .ok w') :
    w'.Within n ∧ w'.potential n ≤ w.potential n := by
  induction blocks generalizing w with
  | nil => cases h; exact ⟨hw, Nat.le_refl _⟩
  | cons b blocks ih =>
      unfold Worklist.flowInto at h
      rw [List.foldlM_cons] at h
      obtain ⟨w₁, h₁, h⟩ := exists_of_bind_eq_ok h
      have ⟨hin, hle⟩ := ih (hw.join hs h₁) h
      exact ⟨hin, Nat.le_trans hle (potential_join_le hs h₁)⟩

end Dataflow.Worklist

namespace Method

/-- A block is visited in a state: what it leaves flows into its successors. -/
def visit (m : Method) (g : Graph) (w : Worklist) (b : Nat) (s : State) : Except Fault Worklist :=
  match g.blocks[b]? with
  | none => .error .outOfBounds
  | some block => do
    let exit ← m.effectAlong s block.positions
    w.flowInto exit block.successors

/-- A visit keeps the sizes of entry states, and never raises the potential. -/
theorem within_visit {n : Nat} {m : Method} {g : Graph} {w w' : Worklist} {b : Nat} {s : State}
    (hs : s.size ≤ n) (hw : w.Within n) (h : m.visit g w b s = .ok w') :
    w'.Within n ∧ w'.potential n ≤ w.potential n := by
  unfold visit at h
  split at h
  · cases h
  · obtain ⟨exit, he, h⟩ := exists_of_bind_eq_ok h
    exact hw.flowInto (by rw [Method.size_effectAlong he]; exact hs) h

/-- The visits made until no block is left on the worklist, and the worklist then. -/
def settle (m : Method) (g : Graph) (n : Nat) (w : Worklist) (hw : w.Within n) :
    List Event × Except Fault Worklist :=
  if w.isEmpty then ([], .ok w)
  else
    match hp : w.pop with
    | .error f => ([], .error f)
    | .ok (b, s, w₁) =>
      match hv : m.visit g w₁ b s with
      | .error f => ([.visiting b s], .error f)
      | .ok w₂ =>
        let rest := settle m g n w₂ (within_visit (hw.pop hp).1 (hw.pop hp).2 hv).1
        (.visiting b s :: rest.1, rest.2)
termination_by w.potential n
decreasing_by
  exact Nat.lt_of_le_of_lt (within_visit (hw.pop hp).1 (hw.pop hp).2 hv).2
    (Worklist.potential_pop_lt hp)

/-- The worklist on which only the entry block has been reached, in the state on entry. -/
def start (m : Method) (g : Graph) : Except Fault Worklist := do
  let s ← m.initialState
  Worklist.new g.size 0 s

theorem within_start {m : Method} {g : Graph} {w : Worklist} (h : m.start g = .ok w) :
    w.Within m.registers.size.toNat := by
  unfold start at h
  obtain ⟨s, hs, h⟩ := exists_of_bind_eq_ok h
  exact (Worklist.within_empty _ _).join (Nat.le_of_eq (size_initialState hs)) h

/-- The visits made from the entry on, and the settled worklist. -/
def solve (m : Method) (g : Graph) : List Event × Except Fault Worklist :=
  match h : m.start g with
  | .error f => ([], .error f)
  | .ok w => m.settle g m.registers.size.toNat w (within_start h)

end Method

end BytecodeVerifier
