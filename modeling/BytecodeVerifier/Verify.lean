import BytecodeVerifier.Verify.Check
import BytecodeVerifier.Verify.Solve

/-!
# Verification

A method is verified in three steps: its structure is checked and its graph built, the entry states
of its blocks are settled, and then the instructions of every reachable block are checked in order.
The first violation rejects the method.  `Method.verify` is the verdict; `Method.examine` also gives
the events on the way, and may be asked to stop before the entry states are settled.
-/

namespace BytecodeVerifier

open Dataflow ControlFlow

/-- Why there is no report. -/
inductive Interruption where
  /-- An operation could not be carried out. -/
  | fault (f : Fault)
  /-- The verification was cancelled. -/
  | cancelled
  deriving DecidableEq, Repr, Inhabited

/-- The block which holds an instruction. -/
def ControlFlow.Graph.blockHolding (g : Graph) (pc : Nat) : Except Fault Nat :=
  match g.blockOf[pc]? with
  | some b => .ok b
  | none => .error .outOfBounds

namespace Method

/-- Checks a block from its entry state on. -/
def inspectBlock (m : Method) (w : Worklist) (b : Block) : Except Fault (Option Violation) := do
  let entry ← w.entryOf b.index
  let s ← unwrap entry
  m.checkAlong s b.positions

/-- Checks the visited ones among some blocks, in order, up to the first violation. -/
def inspect (m : Method) (g : Graph) (w : Worklist) : List Block → List Event × Except Fault Report
  | [] => ([], .ok .verified)
  | b :: bs =>
    if w.visited.contains b.index then
      match m.inspectBlock w b with
      | .error f => ([], .error f)
      | .ok none => m.inspect g w bs
      | .ok (some v) =>
        match g.blockHolding v.index with
        | .error f => ([], .error f)
        | .ok holder => ([.rejecting holder v], .ok (.rejected v))
    else
      let rest := m.inspect g w bs
      (.skipping b.index :: rest.1, rest.2)

/-- The events of verifying a method whose structure is sound, and the verdict. -/
def judge (m : Method) (g : Graph) : List Event × Except Fault Report :=
  match m.solve g with
  | (events, .error f) => (events, .error f)
  | (events, .ok w) =>
    let rest := m.inspect g w g.blocks.toList
    (events ++ rest.1, rest.2)

/-- The events of verifying a method, and the verdict. -/
def trace (m : Method) : List Event × Except Fault Report :=
  match Graph.build m.registers m.code with
  | .error v => ([.malformed v], .ok (.rejected v))
  | .ok g => m.judge g

/-- The verdict on a method. -/
def verify (m : Method) : Except Fault Report := m.trace.2

/-- The events of verifying a method and the verdict, unless it is cancelled: a cancelled
verification still rejects a malformed method, and stops before the first visit. -/
def examine (m : Method) (cancelled : Bool) : List Event × Except Interruption Report :=
  if cancelled then
    match Graph.build m.registers m.code with
    | .error v => ([.malformed v], .ok (.rejected v))
    | .ok g =>
      match m.start g with
      | .error f => ([], .error (.fault f))
      | .ok _ => ([], .error .cancelled)
  else
    let run := m.trace
    (run.1, run.2.mapError .fault)

end Method

end BytecodeVerifier
