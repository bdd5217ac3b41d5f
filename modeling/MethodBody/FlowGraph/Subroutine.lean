import MethodBody.Walk

/-!
# Subroutines

Nothing in the instruction that returns from a subroutine says where control goes, so a block that
ends with it has no edges at first. A block that calls a subroutine has an edge to its continuation,
where the subroutine will return to, and an edge into the subroutine.

The analysis first gives every block its subroutine: the body of the method is what the first block
reaches without calling, a subroutine is what its entry reaches without calling, and a block that
several of them reach belongs to the one found first. Then it adds the edges along which control
returns: from each return that a call reaches, unless it belongs to the subroutine of the caller
itself, to the continuation of the call.
-/

namespace MethodBody

namespace Node

/-- The block returns from another subroutine than the given one. -/
def returnsFromOther (node : Node) (subroutine : Option SubroutineId) : Bool :=
  node.flags.endsSubroutine && node.subroutine ≠ subroutine

/-- Add the edge to the continuation of a call from the given subroutine, if the block returns from
another one. -/
def addReturn (node : Node) (subroutine : Option SubroutineId) (continuation : Label) : Node :=
  if node.returnsFromOther subroutine then
    node.prepend ⟨.jump node.outputHeight, continuation⟩
  else node

/-- The successors of a block within its subroutine, unless it was assigned to one before. -/
def unassignedSuccessors (node : Node) : Except Error (List Label) :=
  if node.subroutine.isNone then node.bodySuccessors else .ok []

/-- The block that an edge to a continuation was added to has no other successors but that one. -/
theorem successors_addReturn_subset (node : Node) (subroutine : Option SubroutineId)
    (continuation : Label) {label : Label}
    (member : label ∈ (node.addReturn subroutine continuation).edges.map (·.successor)) :
    label ∈ node.edges.map (·.successor) ++ [continuation] := by
  unfold addReturn at member
  split at member
  · simp only [prepend, List.map_cons, List.mem_cons] at member
    rcases member with rfl | member
    · exact List.mem_append_right _ List.mem_cons_self
    · exact List.mem_append_left _ member
  · exact List.mem_append_left _ member

end Node

namespace FlowGraph

/-- The block exists and belongs to no subroutine yet. -/
def isUnassigned (graph : FlowGraph) (label : Label) : Bool :=
  (graph.node? label).any (·.subroutine.isNone)

/-- From block to block without calling, no further than blocks that belong to no subroutine. -/
def regionWalk (graph : FlowGraph) : Walk Label where
  graph
  extra := []
  label block := block
  refusal _ := none
  follow node _ := node.unassignedSuccessors
  follow_mem := by
    intro node _ items found next member
    unfold Node.unassignedSuccessors at found
    split at found
    · exact List.mem_append_left _ (node.mem_of_mem_bodySuccessors found member)
    · obtain rfl := Except.ok.inj found
      simp at member

/-- From block to block without calling, and along the edges to the continuation as soon as they
are added. -/
def returnWalk (graph : FlowGraph) (subroutine : Option SubroutineId) (continuation : Label) :
    Walk Label where
  graph
  extra := [continuation]
  label block := block
  refusal _ := none
  follow node _ := (node.addReturn subroutine continuation).bodySuccessors
  follow_mem := by
    intro node _ items found next member
    exact node.successors_addReturn_subset subroutine continuation
      (Node.mem_of_mem_bodySuccessors _ found member)

/-- Assign the blocks that an entry reaches, and that belong to no subroutine yet, to a subroutine.
The answer is their number. -/
def mark (entry : Label) (subroutine : SubroutineId) : Action FlowGraph Nat := do
  let sweep ← Action.inspect fun graph => graph.regionWalk.run entry
  let region ← Action.inspect fun graph => sweep.visited.filter graph.isUnassigned
  modify (·.updateAll region fun node => { node with subroutine := some subroutine })
  Action.check sweep.failure
  Action.report (.marked region.length entry subroutine)
  pure region.length

/-- Add the edges from the returns that an entry reaches to the continuation of a call. The answer
is their number. -/
def addReturns (entry caller : Label) : Action FlowGraph Nat := do
  let node ← getNode caller
  let (continuation, _) ← Action.ofExcept node.callEdges
  let continuation := continuation.successor
  let sweep ← Action.inspect fun graph => (graph.returnWalk node.subroutine continuation).run entry
  let returns ← Action.inspect fun graph => sweep.visited.filter fun block =>
    (graph.node? block).any (·.returnsFromOther node.subroutine)
  modify (·.updateAll returns (·.addReturn node.subroutine continuation))
  Action.check sweep.failure
  Action.report (.returning returns.length entry continuation)
  pure returns.length

/-- The subroutine that a block calls. -/
def callee (block : Label) : Action FlowGraph Label := do
  let (_, entry) ← Action.read fun graph => graph.node block >>= (·.callEdges)
  pure entry.successor

/-- If a block belongs to the current subroutine and calls one that is not marked yet, mark that
one. The answer is the last subroutine marked. -/
def markCallee (current last : SubroutineId) (block : Label) : Action FlowGraph SubroutineId := do
  let node ← getNode block
  if node.flags.callsSubroutine && node.subroutine = some current then
    let entry ← callee block
    if (← getNode entry).subroutine.isNone then
      let _ ← mark entry last.next
      pure last.next
    else pure last
  else pure last

/-- Mark the subroutines that blocks of the current subroutine call, if there is such a subroutine.
The answer is the last subroutine marked. -/
def markCallees (blocks : List Label) (last current : SubroutineId) :
    Action FlowGraph SubroutineId :=
  if current.number ≤ last.number then Action.fold (markCallee current) last blocks
  else pure last

/-- Add the edges along which control returns from the subroutine that a block calls, if it calls
one. -/
def closeCall (block : Label) : Action FlowGraph Unit := do
  if (← getNode block).flags.callsSubroutine then
    let _ ← addReturns (← callee block) block

/-- The numbers that subroutines can have. Every subroutine besides the body of the method has an
entry of its own, so there is at most one more subroutine than there are labels. -/
def subroutineIds (graph : FlowGraph) : List SubroutineId :=
  (List.range' 1 (graph.nodes.size + 1)).map SubroutineId.mk

/-- Find all subroutines and add the edges along which control returns from them. The answer is
their number, the body of the method included. -/
def analyzeSubroutines : Action FlowGraph Nat := do
  match ← Action.inspect firstBlock? with
  | none => pure 0
  | some first =>
    let _ ← mark first .main
    let blocks ← Action.inspect (·.blocks.toList)
    let last ← Action.fold (markCallees blocks) .main (← Action.inspect subroutineIds)
    Action.forEach blocks closeCall
    pure last.number

end FlowGraph

end MethodBody
