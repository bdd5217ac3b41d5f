import MethodBody.Assembler
import MethodBody.FlowGraph.StackHeight
import MethodBody.FlowGraph.Subroutine

/-!
# Finishing a method

A method is finished if control cannot run off its end and every label that control can be
transferred to has its place. Then the edges to the handlers are added, the subroutines are found,
the maxima are computed and the tables are filled in.
-/

namespace MethodBody.Assembler

/-- The open block, if control could run off the end of the method in it. An empty block at the very
end does no harm if nothing leads to it. -/
def unfinishedBlock? (assembler : Assembler) : Option Label := do
  let block ← assembler.openBlock
  let node ← assembler.graph.node? block.label
  if node.offset? = some assembler.code.cursor && !block.isFallenInto && !node.flags.jumpTarget then
    none
  else some block.label

/-- The labels that are referred to and have no place, in order of creation. -/
def unplacedTargets (assembler : Assembler) : List Label :=
  (assembler.graph.nodes.toList.filter fun node =>
    !node.isPlaced && (0 < node.pending || node.flags.jumpTarget)).map (·.label)

/-- Why the method cannot be finished yet. -/
def unfinished? (assembler : Assembler) : Option Error :=
  let block := assembler.unfinishedBlock?
  let labels := assembler.unplacedTargets
  let stop := assembler.code.cursor
  if block.isSome || !labels.isEmpty then some (.unfinished block labels)
  else if assembler.settings.maxCodeLength < stop then some (.codeTooLong stop)
  else none

/-- The blocks from one label up to another, which must be blocks in this order. -/
def protectedBlocks (graph : FlowGraph) (handler : Handler) : Except Error (List Label) :=
  match graph.blocks.idxOf? handler.start, graph.blocks.idxOf? handler.stop with
  | some first, some last =>
    if first < last then .ok (graph.blocks.extract first last).toList
    else .error (.invalidRange handler.start handler.stop)
  | _, _ => .error (.invalidRange handler.start handler.stop)

/-- Add the edges from the blocks that a handler protects. -/
def addHandlerEdges (handler : Handler) : Action FlowGraph Unit := do
  let blocks ← Action.read (protectedBlocks · handler)
  Action.forEach blocks fun block => FlowGraph.addHandler block handler.handler

/-- Find the subroutines, if there are any. -/
def findSubroutines : Action Assembler Unit := do
  if ← Action.inspect Assembler.callsSubroutines then
    let count ← onGraph FlowGraph.analyzeSubroutines
    Action.report (.subroutines (count - 1))

/-- The number as a word of two bytes, which it must fit. -/
def toWord (value : Nat) (refusal : Error) : Except Error UInt16 :=
  if value < 65536 then .ok (UInt16.ofNat value) else .error refusal

/-- The sizes of the stack and of the local variables. -/
def maxima : Action Assembler Maxima := do
  if ← Action.inspect (·.settings.computeMaxima) then
    let height ← onGraph FlowGraph.computeMaxStack
    let count ← Action.inspect Assembler.localsNeeded
    let stack ← Action.ofExcept (toWord height (.stackTooLarge height))
    let locals ← Action.ofExcept (toWord count (.localsTooLarge count))
    pure { stack, locals }
  else Action.inspect Assembler.declared

/-- The offset of a label as the tables hold it. -/
def tableOffset (assembler : Assembler) (label : Label) : Except Error UInt16 := do
  let node ← assembler.graph.node label
  let offset ← node.offset
  toWord offset (.codeTooLong offset)

/-- The rows of the exception table. -/
def handlerRows (assembler : Assembler) : Except Error (List HandlerRow) :=
  assembler.handlers.toList.mapM fun handler => do
    let start ← assembler.tableOffset handler.start
    let stop ← assembler.tableOffset handler.stop
    let entry ← assembler.tableOffset handler.handler
    pure { start, stop, handler := entry, catchType := handler.catchType }

/-- The rows of the line number table. -/
def lineRows (assembler : Assembler) : Except Error (List LineRow) :=
  if assembler.settings.emitLines then
    assembler.lines.toList.mapM fun mark => do
      let start ← assembler.tableOffset mark.label
      pure { start, line := mark.line }
  else .ok []

/-- Finish the method. -/
def finish : Action Assembler MethodCode := do
  Action.check (← Action.inspect unfinished?)
  modify closeBlock
  let handlers ← Action.inspect (·.handlers.toList)
  Action.forEach handlers fun handler => onGraph (addHandlerEdges handler)
  findSubroutines
  let maxima ← maxima
  let handlers ← Action.read handlerRows
  let lines ← Action.read lineRows
  let assembler ← get
  if assembler.needsWidening then Action.report .needsWidening
  pure
    { code := assembler.code
      maxima
      handlers
      lines
      needsWidening := assembler.needsWidening
      graph := assembler.graph }

end MethodBody.Assembler
