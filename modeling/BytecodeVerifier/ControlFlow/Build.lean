import BytecodeVerifier.ControlFlow.Graph
import BytecodeVerifier.ControlFlow.Structure

/-!
# Building the graph of a method

A block starts at the first instruction, at every target of an instruction which ends a block, and
after every such instruction.  It ends where the next one starts.  Its successors follow from its
last instruction.
-/

namespace BytecodeVerifier.ControlFlow

/-- The positions at which blocks start. -/
def leaders (code : Array Instruction) : BitSet :=
  code.toList.zipIdx.foldl
    (fun starts (i, pc) =>
      if i.isTerminal then
        let starts := starts.insertAll (i.targets.map UInt64.toNat)
        if pc + 1 < code.size then starts.insert (pc + 1) else starts
      else starts)
    (BitSet.empty.insert 0)

/-- The intervals which the given starts cut out of `n` positions. -/
def intervals (n : Nat) : List Nat → List (Nat × Nat)
  | [] => []
  | [start] => [(start, n)]
  | start :: stop :: starts => (start, stop) :: intervals n (stop :: starts)

/-- For each position, the number of the interval which holds it. -/
def numbering (parts : List (Nat × Nat)) : Array Nat :=
  (parts.zipIdx.flatMap fun ((start, stop), i) => List.replicate (stop - start) i).toArray

/-- The blocks which follow a block that ends before `stop`, without repetition. -/
def exits (code : Array Instruction) (blockOf : Array Nat) (stop : Nat) : List Nat :=
  match code[stop - 1]? with
  | none => []
  | some last =>
    let next := if last.falls && stop < code.size then blockOf[stop]?.toList else []
    (next ++ last.targets.filterMap fun t => blockOf[t.toNat]?).eraseDups

/-- Adds block `i` to the predecessors of each of its successors, after those found before. -/
def record (preds : Array (List Nat)) (i : Nat) (successors : List Nat) : Array (List Nat) :=
  successors.foldl (fun preds c => preds.modify c (· ++ [i])) preds

/-- The predecessors of the blocks whose successors are given, recorded edge by edge. -/
def predecessorsOf (outgoing : List (List Nat)) : Array (List Nat) :=
  outgoing.zipIdx.foldl (fun preds (successors, i) => record preds i successors)
    (Array.replicate outgoing.length [])

/-- The graph of code whose structure is sound; without any code, one empty block. -/
def connect (code : Array Instruction) : Graph :=
  if code.isEmpty then ⟨#[⟨0, 0, 0, [], []⟩], #[]⟩
  else
    let parts := intervals code.size (leaders code).elements
    let blockOf := numbering parts
    let outgoing := parts.map fun (_, stop) => exits code blockOf stop
    let incoming := predecessorsOf outgoing
    let blocks := (parts.zip outgoing).zipIdx.map fun (((start, stop), successors), i) =>
      (⟨i, start, stop, successors, incoming.getD i []⟩ : Block)
    ⟨blocks.toArray, blockOf⟩

/-- The graph of a method's code, or the first violation of its structure. -/
def Graph.build (file : Register.File) (code : Array Instruction) : Except Violation Graph :=
  match structuralViolation? file code with
  | some v => .error v
  | none => .ok (connect code)

end BytecodeVerifier.ControlFlow
