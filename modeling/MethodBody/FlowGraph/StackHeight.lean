import MethodBody.Walk

/-!
# Stack heights

The stack height at the start of a block follows from the height at the start of any block with an
edge to it. In valid code all ways into a block agree on that height, so each block is visited once,
with the height of the first way found. The maximum is taken over the blocks reached from the first
one, and each block counts with its own peak.
-/

namespace MethodBody

/-- A block to be visited with a stack height at its start. -/
structure Arrival where
  /-- The block. -/
  block : Label
  /-- The stack height at the start of the block. -/
  height : Int32
deriving DecidableEq, Repr

/-- Where control gets from an arrival, along the edges that it takes. -/
def Node.departures (node : Node) (arrival : Arrival) : List Arrival :=
  node.flowEdges.map fun edge => ⟨edge.successor, edge.entryHeight arrival.height⟩

namespace FlowGraph

/-- Along the edges that control takes. A block cannot be entered with less than nothing on the
stack. -/
def heightWalk (graph : FlowGraph) : Walk Arrival where
  graph
  extra := []
  label := Arrival.block
  refusal arrival :=
    if arrival.height < 0 then some (.stackUnderflow arrival.block)
    else if (graph.node? arrival.block).isNone then some (.unknownLabel arrival.block)
    else none
  follow node arrival := .ok (node.departures arrival)
  follow_mem := by
    intro node arrival items found next member
    obtain rfl := Except.ok.inj found
    obtain ⟨edge, taken, rfl⟩ := List.mem_map.mp member
    exact List.mem_append_left _ (List.mem_map.mpr ⟨edge, node.mem_of_mem_flowEdges taken, rfl⟩)

/-- Record the height at the start of a block that is reached. -/
def reach (graph : FlowGraph) (arrival : Arrival) : FlowGraph :=
  graph.update arrival.block fun node =>
    { node with inputHeight := arrival.height, flags.reachable := true }

/-- The largest stack height in a block that is entered with the given height. -/
def peak (graph : FlowGraph) (arrival : Arrival) : Int32 :=
  match graph.node? arrival.block with
  | some node => arrival.height + node.peakHeight
  | none => arrival.height

/-- Record the stack height at the start of every block that the first one reaches. The answer is
the largest height in any of them. -/
def computeMaxStack : Action FlowGraph Nat := do
  match ← Action.inspect firstBlock? with
  | none => pure 0
  | some first =>
    let _ ← getNode first
    let sweep ← Action.inspect fun graph => graph.heightWalk.run ⟨first, 0⟩
    modify fun graph => sweep.entered.foldl reach graph
    Action.check sweep.failure
    let height ← Action.inspect fun graph => (sweep.visited.map graph.peak).foldl max 0
    Action.report (.maxStack height)
    pure height.toNatClampNeg

end FlowGraph

end MethodBody
