import MethodBody.Label
import MethodBody.Offset
import MethodBody.Opcode

/-!
# Errors

Why an operation was refused, and the wording of each cause. The last three causes are misuse: the
caller named something that does not exist, so nothing further can be said about its request.
-/

namespace MethodBody

/-- The cause of a refusal. -/
inductive Error where
  /-- The bytes do not fit into the region they are written to. -/
  | shortWrite
  /-- The offset of a label was asked for before the label was placed. -/
  | unplaced (label : Label)
  /-- The label was placed before. -/
  | placedTwice (label : Label)
  /-- The distance to a placed label does not fit its operand. -/
  | distanceOverflow (source target : Nat)
  /-- The opcode of a reference that is too long has no unsigned form. -/
  | notABranch (source : Nat) (opcode : Opcode)
  /-- The opcode to jump with is no jump. -/
  | notAJump (opcode : Opcode)
  /-- The opcode of a plain instruction transfers control. -/
  | transfersControl (opcode : Opcode)
  /-- The target was placed for debugging only, so no block starts there. -/
  | debugOnlyTarget (label : Label)
  /-- A block that calls a subroutine lacks the two edges of a call. -/
  | malformedCaller (block : Label) (edges : Nat)
  /-- More is popped on the way into a block than was pushed. -/
  | stackUnderflow (label : Label)
  /-- The labels of a protected range are no blocks in this order. -/
  | invalidRange (start stop : Label)
  /-- Control can run off the end, or labels that are referred to have no place. -/
  | unfinished (openBlock : Option Label) (unplaced : List Label)
  /-- The code does not fit into the permitted length. -/
  | codeTooLong (offset : Nat)
  /-- The maximum stack height does not fit its field. -/
  | stackTooLarge (height : Nat)
  /-- The number of local slots does not fit its field. -/
  | localsTooLarge (count : Nat)
  /-- The label was not created by this graph. -/
  | unknownLabel (label : Label)
  /-- The bytes to read or to overwrite do not all lie in the buffer. -/
  | outsideBuffer (offset : Nat)
  /-- No position is a multiple of zero. -/
  | zeroAlignment
deriving DecidableEq, Repr

namespace Error

/-- The request names something that does not exist. -/
def isMisuse : Error → Bool
  | unknownLabel _ | outsideBuffer _ | zeroAlignment => true
  | _ => false

/-- The cause in words. -/
def message : Error → String
  | shortWrite => "IO error: failed to write whole buffer"
  | unplaced label => s!"label {label.text} has not been placed yet"
  | placedTwice label => s!"label {label.text} was placed twice"
  | distanceOverflow source target =>
    s!"jump from {Offset.text source} to {Offset.text target} does not fit in a 16-bit offset"
  | notABranch source opcode =>
    s!"opcode {opcode.text} at {Offset.text source} is not a narrow branch"
  | notAJump opcode => s!"opcode {opcode.text} is not a jump"
  | transfersControl opcode =>
    s!"opcode {opcode.text} transfers control and cannot be pushed as a plain instruction"
  | debugOnlyTarget label => s!"debug-only label {label.text} cannot be a jump target"
  | malformedCaller block edges =>
    s!"subroutine caller {block.text} has {edges} outgoing edges (expected at least 2)"
  | stackUnderflow label => s!"stack underflow entering {label.text}"
  | invalidRange start stop =>
    s!"exception handler range {start.text}..{stop.text} does not span placed blocks"
  | unfinished openBlock labels =>
    let block := Label.optionText openBlock
    let missing := Label.listText labels
    s!"method code not finished (open block {block}, unplaced labels {missing})"
  | codeTooLong offset => s!"method code is too long ({Offset.text offset})"
  | stackTooLarge height => s!"maximum stack size is too large ({Offset.text height})"
  | localsTooLarge count => s!"maximum locals size is too large ({Offset.text count})"
  | unknownLabel label => s!"label {label.text} does not exist"
  | outsideBuffer offset => s!"bytes at {Offset.text offset} lie outside the buffer"
  | zeroAlignment => "cannot align to a multiple of zero"

end Error

end MethodBody
