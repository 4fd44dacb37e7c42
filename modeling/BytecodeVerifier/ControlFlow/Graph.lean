import BytecodeVerifier.BitSet

/-!
# Control-flow graphs

A graph divides the code of a method into blocks, intervals of instructions which control enters at
the start only and leaves at the end only.  Block 0 is the entry.  `Graph.reachable` follows the
edges from there; every round either marks a block that was not marked or takes one off the stack.
-/

namespace BytecodeVerifier.ControlFlow

/-- A block: the instructions from `start` up to, and not including, `stop`. -/
structure Block where
  index : Nat
  start : Nat
  stop : Nat
  /-- Where control may go next: the block after this one first, then the targets. -/
  successors : List Nat
  /-- The blocks which have this one among their successors. -/
  predecessors : List Nat
  deriving DecidableEq, Repr, Inhabited

/-- The number of instructions of a block. -/
def Block.length (b : Block) : Nat := b.stop - b.start

/-- The positions of the instructions of a block. -/
def Block.positions (b : Block) : List Nat := List.range' b.start b.length

/-- The blocks of a method and, for each instruction, the block which holds it. -/
structure Graph where
  blocks : Array Block
  blockOf : Array Nat
  deriving DecidableEq, Repr, Inhabited

namespace Graph

/-- The number of blocks. -/
def size (g : Graph) : Nat := g.blocks.size

/-- The successors of a block. -/
def successors (g : Graph) (b : Nat) : List Nat :=
  match g.blocks[b]? with
  | some block => block.successors
  | none => []

/-! ### Reachability -/

/-- The successors of a block which are not marked yet. -/
def fresh (g : Graph) (marked : BitSet) (b : Nat) : List Nat :=
  (g.successors b).filter fun c => c < g.size && !marked.contains c

/-- The marked blocks and all those reached from the blocks on the stack through unmarked ones. -/
def explore (g : Graph) (marked : BitSet) : List Nat → BitSet
  | [] => marked
  | b :: stack =>
    let next := g.fresh marked b
    g.explore (marked.insertAll next) (next.reverse ++ stack)
termination_by stack => (marked.missing g.size, stack.length)
decreasing_by
  cases hn : g.fresh marked b with
  | nil => exact Prod.Lex.right _ (by simp)
  | cons c rest =>
      have hmem : c ∈ g.fresh marked b := by rw [hn]; exact List.mem_cons_self
      have hc := (List.mem_filter.mp hmem).2
      simp at hc
      exact Prod.Lex.left _ _ (BitSet.missing_insertAll_lt List.mem_cons_self hc.1 hc.2)

/-- The blocks reachable from the entry. -/
def reachable (g : Graph) : BitSet := g.explore (BitSet.empty.insert 0) [0]

/-- The blocks not reachable from the entry, in ascending order. -/
def unreachable (g : Graph) : List Nat :=
  (List.range g.size).filter fun b => !g.reachable.contains b

/-! ### Text -/

/-- How a block is written. -/
def blockText (b : Block) : String :=
  s!"#{b.index} [{b.start},{b.stop})" ++
    if b.successors.isEmpty then "" else " ->" ++ String.join (b.successors.map fun c => s!" #{c}")

/-- How a graph is written: a line for each block. -/
def text (g : Graph) : String := "\n".intercalate (g.blocks.toList.map blockText)

end Graph

end BytecodeVerifier.ControlFlow
