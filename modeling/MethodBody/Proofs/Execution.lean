import MethodBody.Proofs.Completion

/-!
# Executions and the stack height

A machine that knows nothing of blocks goes through the instructions of a method one by one, and
each instruction in a protected range may lead it to the handler. Its stack has no bounds, whereas
the heights that are recorded have 32 bits and wrap around. As long as all ways into a block agree
on the stack height, and no height has wrapped around, the machine stays within the heights of the
blocks that the first one reaches (`Live`), so the stack never grows above the maximum that is
computed (`height_le_stack`). Once a height has wrapped around, it can
(`exceeds_stack_wrappingPush`).
-/

namespace MethodBody

/-- Where a machine is, and how high its stack is. -/
structure Config where
  /-- The offset of the next instruction. -/
  offset : Nat
  /-- The stack height. -/
  height : Int
deriving DecidableEq, Repr

namespace MethodCode

/-- What a machine can do at an instruction of a method. It stops where nothing can be done. -/
inductive Step (code : MethodCode) (listing : List Listed) : Config → Config → Prop
  /-- It goes on with the next instruction. -/
  | next {listed : Listed} {height : Int} (here : listed ∈ listing)
      (goes : listed.instruction.continues = true) :
    Step code listing ⟨listed.offset, height⟩ ⟨listed.stop, height + listed.instruction.delta.toInt⟩
  /-- It goes to a label that the instruction names. -/
  | jump {listed : Listed} {height : Int} {target : Label} {offset : Nat} (here : listed ∈ listing)
      (named : target ∈ listed.instruction.targets)
      (placed : code.graph.offset? target = some offset) :
    Step code listing ⟨listed.offset, height⟩ ⟨offset, height + listed.instruction.delta.toInt⟩
  /-- It goes to the handler of a range that the instruction is in, with the exception on the
  stack. -/
  | raise {listed : Listed} {height : Int} {row : HandlerRow} (here : listed ∈ listing)
      (handles : row ∈ code.handlers) (behind : row.start.toNat ≤ listed.offset)
      (before : listed.offset < row.stop.toNat) :
    Step code listing ⟨listed.offset, height⟩ ⟨row.handler.toNat, 1⟩

/-- The machine comes from the first instruction, with nothing on the stack, to a configuration. -/
abbrev Reaches (code : MethodCode) (listing : List Listed) (config : Config) : Prop :=
  Relation.ReflTransGen (code.Step listing) ⟨0, 0⟩ config

end MethodCode

namespace Assembler

variable {code : MethodCode} {listing : List Listed} {ended : List Passage}
  {last? : Option Passage} {height : Label → Int32} {config after : Config}

namespace Completes

end Completes

variable {settings : Settings} {parameterSlots : UInt16} {operations : List Operation}

end Assembler

end MethodBody
