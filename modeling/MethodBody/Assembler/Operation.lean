import MethodBody.Assembler.Jump
import MethodBody.Assembler.Switch

/-!
# Operations

The requests that an assembler takes, as data. A run is a list of operations; one that fails is
followed by the next, with whatever it changed before it failed.
-/

namespace MethodBody

/-- A request to an assembler. -/
inductive Operation where
  /-- Create a label. -/
  | freshLabel
  /-- Create a label that only debug information refers to. -/
  | freshDebugLabel
  /-- Place a label at the cursor. -/
  | place (label : Label)
  /-- Write an instruction that goes on with the next one or leaves the method. -/
  | instruction (bytes : List UInt8) (delta : Int32)
  /-- Write an instruction on a local variable. -/
  | localInstruction (instruction : LocalInstruction)
  /-- Write a jump. -/
  | jump (opcode : Opcode) (target : Label)
  /-- Write a switch over consecutive keys. -/
  | tableSwitch (low high : Int32) (fallback : Label) (targets : List Label)
  /-- Write a switch over any keys. -/
  | lookupSwitch (fallback : Label) (cases : List Case)
  /-- Attach a source line to a label. -/
  | addLine (label : Label) (line : UInt16)
  /-- Protect a range of blocks with a handler. -/
  | addHandler (handler : Handler)
  /-- Declare the sizes of the stack and of the local variables. -/
  | declare (maxima : Maxima)
deriving DecidableEq, Repr

namespace Operation

/-- An action that creates no label. -/
def withoutLabel (action : Action Assembler Unit) : Action Assembler (Option Label) := do
  action
  pure none

/-- Do what is requested. The answer is the label created, if any. -/
def perform : Operation → Action Assembler (Option Label)
  | freshLabel => some <$> Assembler.freshLabel
  | freshDebugLabel => some <$> Assembler.freshDebugLabel
  | place label => withoutLabel (Assembler.place label)
  | instruction bytes delta => withoutLabel (Assembler.instruction bytes delta)
  | localInstruction request => withoutLabel (Assembler.localInstruction request)
  | jump opcode target => withoutLabel (Assembler.jump opcode target)
  | tableSwitch low high fallback targets =>
    withoutLabel (Assembler.tableSwitch low high fallback targets)
  | lookupSwitch fallback cases => withoutLabel (Assembler.lookupSwitch fallback cases)
  | addLine label line => withoutLabel (Assembler.addLine label line)
  | addHandler handler => withoutLabel (Assembler.addHandler handler)
  | declare maxima => withoutLabel (Assembler.declare maxima)

end Operation

namespace Assembler

/-- The state after an operation, whether it failed or not. -/
def after (assembler : Assembler) (operation : Operation) : Assembler :=
  (operation.perform.run assembler).state

/-- The state after all operations of a run. -/
def afterAll (assembler : Assembler) (operations : List Operation) : Assembler :=
  operations.foldl after assembler

end Assembler

end MethodBody
