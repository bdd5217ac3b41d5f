import MethodBody.FlowGraph
import MethodBody.LocalInstruction
import MethodBody.MethodCode

/-!
# Assembling a method

An assembler takes the instructions of one method from the first to the last. It keeps the bytes
written so far, what is known about the labels, and the block that is being written. A block starts
at each label that is placed, unless only debug information refers to it, and after each instruction
that may or may not jump. After an instruction that never goes on there is no open block until the
next label is placed; what is written there is dead and leaves the flow graph alone.
-/

namespace MethodBody

/-- What a finished method is to contain. -/
structure Settings where
  /-- Compute the sizes of the stack and of the local variables, instead of taking declared ones. -/
  computeMaxima : Bool := true
  /-- Put the source lines into a table. -/
  emitLines : Bool := true
  /-- The largest number of bytes that code may have. -/
  maxCodeLength : Nat := 65535
deriving DecidableEq, Repr

/-- The block that is being written. -/
structure OpenBlock where
  /-- The label of the block. -/
  label : Label
  /-- The stack height now, above the start of the block. -/
  height : Int32 := 0
  /-- The largest stack height so far, above the start of the block. -/
  peak : Int32 := 0
  /-- Control falls into the block from the one before. -/
  isFallenInto : Bool := false
deriving DecidableEq, Repr

/-- The block after an instruction that changes the stack height. -/
def OpenBlock.adjust (block : OpenBlock) (delta : Int32) : OpenBlock :=
  { block with height := block.height + delta, peak := max block.peak (block.height + delta) }

/-- A range of blocks to be protected by a handler. -/
structure Handler where
  /-- The first protected block. -/
  start : Label
  /-- The first block behind the protected ones. -/
  stop : Label
  /-- The block that handles exceptions. -/
  handler : Label
  /-- The class of the exceptions to catch as a constant index, or zero for all of them. -/
  catchType : UInt16
deriving DecidableEq, Repr

/-- A source line attached to a label. -/
structure LineMark where
  /-- The label. -/
  label : Label
  /-- The number of the line. -/
  line : UInt16
deriving DecidableEq, Repr

/-- A method in the course of being written. -/
structure Assembler where
  /-- What the finished method is to contain. -/
  settings : Settings
  /-- The instructions written so far. -/
  code : Buffer
  /-- The labels and the control flow between their blocks. -/
  graph : FlowGraph
  /-- The block that is being written, unless the next instruction is dead. -/
  openBlock : Option OpenBlock
  /-- The number of local slots that the parameters and the instructions so far take. -/
  localsNeeded : Nat
  /-- The sizes to use if none are computed. -/
  declared : Maxima
  /-- The protected ranges, in the order in which they were added. -/
  handlers : Array Handler
  /-- The source lines, in the order in which they were added. -/
  lines : Array LineMark
  /-- A subroutine has been called. -/
  callsSubroutines : Bool
  /-- Some branch was given its unsigned form. -/
  needsWidening : Bool
deriving DecidableEq, Repr

namespace Assembler

/-- A method without instructions, whose first block is open. -/
def start (settings : Settings) (parameterSlots : UInt16) : Assembler where
  settings
  code := .empty
  graph := { nodes := #[{ label := .start, placement := .placed 0 }], blocks := #[.start] }
  openBlock := some { label := .start }
  localsNeeded := parameterSlots.toNat
  declared := {}
  handlers := #[]
  lines := #[]
  callsSubroutines := false
  needsWidening := false

/-- Append bytes to the code. -/
def append (assembler : Assembler) (bytes : List UInt8) : Assembler :=
  { assembler with code := assembler.code.append bytes }

/-- Change what is known about a label. -/
def update (assembler : Assembler) (label : Label) (change : Node → Node) : Assembler :=
  { assembler with graph := assembler.graph.update label change }

/-- Change the stack height of the open block. -/
def adjust (assembler : Assembler) (delta : Int32) : Assembler :=
  { assembler with openBlock := assembler.openBlock.map (·.adjust delta) }

/-- Add an edge that leaves the open block with its stack as it is. -/
def addEdge (assembler : Assembler) (successor : Label) : Assembler :=
  match assembler.openBlock with
  | none => assembler
  | some block =>
    { assembler with
      graph := assembler.graph.prepend block.label ⟨.jump block.height, successor⟩ }

/-- Record the stack heights of the open block and leave it. -/
def closeBlock (assembler : Assembler) : Assembler :=
  match assembler.openBlock with
  | none => assembler
  | some block =>
    { assembler with
      openBlock := none
      graph := assembler.graph.update block.label fun node =>
        { node with outputHeight := block.height, peakHeight := block.peak } }

/-- Open the block that starts at a label, with no other block open. -/
def openAt (assembler : Assembler) (label : Label) (isFallenInto : Bool) : Assembler :=
  { assembler with
    openBlock := some { label, isFallenInto }
    graph := assembler.graph.pushBlock label }

/-- Open the block that starts at a label. An open block falls into it. -/
def startBlock (assembler : Assembler) (label : Label) : Assembler :=
  match assembler.openBlock with
  | none => assembler.openAt label false
  | some _ => (assembler.addEdge label).closeBlock.openAt label true

/-- Run an action on the code. -/
def onCode {α : Type} (action : Action Buffer α) : Action Assembler α :=
  Action.focus Assembler.code (fun assembler code => { assembler with code }) action

/-- Run an action on the flow graph. -/
def onGraph {α : Type} (action : Action FlowGraph α) : Action Assembler α :=
  Action.focus Assembler.graph (fun assembler graph => { assembler with graph }) action

/-- The offset of the next instruction. -/
def cursor : Action Assembler Nat :=
  Action.inspect (·.code.cursor)

/-- What is known about a label that must exist. -/
def getNode (label : Label) : Action Assembler Node :=
  Action.read (·.graph.node label)

/-- Create a label with the given flags. -/
def create (flags : Flags) : Action Assembler Label := do
  let label ← Action.inspect (·.graph.nextLabel)
  modify fun assembler => { assembler with graph := assembler.graph.create flags }
  pure label

/-- Create a label. -/
def freshLabel : Action Assembler Label := create {}

/-- Create a label that only debug information refers to. It becomes an ordinary label when it is
jumped to before it is placed. -/
def freshDebugLabel : Action Assembler Label := create { debugOnly := true }

/-- Place a label at the cursor and fill in the references that wait for it. -/
def place (label : Label) : Action Assembler Unit := do
  let node ← getNode label
  let offset ← cursor
  let (placed, rewritten) ← onCode (node.place offset)
  modify (·.update label fun _ => placed)
  modify fun assembler => { assembler with needsWidening := assembler.needsWidening || rewritten }
  Action.report (.placed label offset)
  unless node.flags.debugOnly do
    modify (·.startBlock label)

/-- Note that control can be transferred to a label, which must be able to start a block. -/
def markTarget (label : Label) : Action Assembler Unit :=
  onGraph <| FlowGraph.revise label fun node =>
    if node.flags.debugOnly && node.isPlaced then .error (.debugOnlyTarget label)
    else .ok { node with flags.debugOnly := false, flags.jumpTarget := true }

/-- Write the distance from an instruction to a label at the cursor. -/
def refer (target : Label) (source : Nat) (width : Width) : Action Assembler Unit := do
  let node ← getNode target
  let node ← onCode (node.refer source width)
  modify (·.update target fun _ => node)

/-- The opcode needs an operation of its own, since it transfers control within the method. -/
def needsOwnOperation (opcode : Opcode) : Bool :=
  opcode.isJump || opcode == Opcode.ret || opcode == Opcode.tableSwitch
    || opcode == Opcode.lookupSwitch

/-- Write an instruction that goes on with the next one or leaves the method, given its bytes and
what it adds to the stack height. -/
def instruction (bytes : List UInt8) (delta : Int32) : Action Assembler Unit :=
  match bytes with
  | [] => pure ()
  | opcode :: _ => do
    if needsOwnOperation opcode then throw (.transfersControl opcode)
    modify fun assembler => (assembler.append bytes).adjust delta
    if Opcode.isTerminal opcode then modify closeBlock

/-- Close the open block with a return from a subroutine. -/
def endSubroutine (assembler : Assembler) : Assembler :=
  match assembler.openBlock with
  | none => assembler
  | some block =>
    assembler.closeBlock.update block.label fun node => { node with flags.endsSubroutine := true }

/-- Take at least the given number of local slots. -/
def needLocals (assembler : Assembler) (count : Nat) : Assembler :=
  { assembler with localsNeeded := max assembler.localsNeeded count }

/-- Write an instruction on a local variable. -/
def localInstruction (instruction : LocalInstruction) : Action Assembler Unit := do
  modify fun assembler => (assembler.append instruction.encode).adjust instruction.delta
  modify (·.needLocals instruction.localsNeeded)
  if let .ret _ := instruction then modify endSubroutine

/-- Attach a source line to a label. -/
def addLine (label : Label) (line : UInt16) : Action Assembler Unit := do
  let _ ← getNode label
  modify (·.update label (·.addLine line))
  modify fun assembler => { assembler with lines := assembler.lines.push { label, line } }

/-- Note that a label bounds a protected range, so a block has to start there. -/
def markBound (label : Label) : Action Assembler Unit :=
  onGraph <| FlowGraph.revise label fun node =>
    .ok (if node.isPlaced then node else { node with flags.debugOnly := false })

/-- Protect the blocks from one label up to another with a handler. -/
def addHandler (handler : Handler) : Action Assembler Unit := do
  markBound handler.start
  markBound handler.stop
  markTarget handler.handler
  modify fun assembler => { assembler with handlers := assembler.handlers.push handler }

/-- Declare the sizes of the stack and of the local variables. -/
def declare (maxima : Maxima) : Action Assembler Unit :=
  modify fun assembler => { assembler with declared := maxima }

end Assembler

end MethodBody
