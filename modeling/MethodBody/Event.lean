import MethodBody.Label
import MethodBody.Offset
import MethodBody.Opcode
import MethodBody.Width

/-!
# Events

What an operation reports while it runs. Events are the result of an operation like its value; no
operation reads them.
-/

namespace MethodBody

/-- How much an event matters to a reader. -/
inductive Level where
  /-- A step of the work. -/
  | trace
  /-- A result worth knowing. -/
  | debug
deriving DecidableEq, Repr

/-- The name of the level. -/
def Level.text : Level → String
  | trace => "TRACE"
  | debug => "DEBUG"

/-- A report of something done. -/
inductive Event where
  /-- A label got its offset. -/
  | placed (label : Label) (offset : Nat)
  /-- A jump was written. -/
  | jump (opcode : Opcode) (source : Nat) (target : Label)
  /-- A reference made before its target was placed is being filled in. -/
  | patching (width : Width) (source target : Nat)
  /-- A branch that is too long is being rewritten to its unsigned form. -/
  | rewriting (source : Nat) (distance : Int) (old new : Opcode)
  /-- Blocks were assigned to a subroutine. -/
  | marked (count : Nat) (entry : Label) (subroutine : SubroutineId)
  /-- Edges were added from the returns of a subroutine to the continuation of a call. -/
  | returning (count : Nat) (entry continuation : Label)
  /-- The subroutines were counted, the body of the method apart. -/
  | subroutines (count : Nat)
  /-- The maximum stack height was found. -/
  | maxStack (height : Int32)
  /-- The finished code holds unsigned forms. -/
  | needsWidening
deriving DecidableEq, Repr

namespace Event

/-- How much the event matters. -/
def level : Event → Level
  | placed .. | jump .. | patching .. | returning .. => .trace
  | rewriting .. | marked .. | subroutines _ | maxStack _ | needsWidening => .debug

/-- The event in words. -/
def message : Event → String
  | placed label offset => s!"Placed {label.text} at {Offset.text offset}"
  | jump opcode source target =>
    s!"Jump {opcode.text} at {Offset.text source} to {target.text}"
  | patching width source target =>
    s!"Patching {width.text} reference from {Offset.text source} to {Offset.text target}"
  | rewriting source distance old new =>
    s!"Jump at {Offset.text source} overflows by {distance}, rewriting {old.text} to {new.text}"
  | marked count entry subroutine =>
    s!"Marked {count} blocks from {entry.text} as subroutine {subroutine.number}"
  | returning count entry continuation =>
    s!"Added {count} return edges from subroutine {entry.text} to {continuation.text}"
  | subroutines count => s!"Found {count} subroutines"
  | maxStack height => s!"Computed max stack size {height}"
  | needsWidening => "Method code contains jumps that need widening"

/-- The level and the words of the event. -/
def text (event : Event) : String :=
  s!"{event.level.text} {event.message}"

end Event

end MethodBody
