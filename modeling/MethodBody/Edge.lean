import MethodBody.Label

/-!
# Edges of a flow graph

An edge belongs to the block it leaves. Stack heights on edges count from the start of that block,
so an edge says what its successor starts with once the height at the start of the block is known.
Stack heights have 32 bits, here and wherever else they are added up, and a sum that does not fit
wraps around.
-/

namespace MethodBody

/-- How control passes along an edge. -/
inductive Transfer where
  /-- With the stack as it is, at this height above the start of the block. -/
  | jump (height : Int32)
  /-- To a handler, which starts with nothing but the exception on the stack. -/
  | exception
deriving DecidableEq, Repr

/-- A way for control to leave a block. -/
structure Edge where
  /-- How control passes. -/
  transfer : Transfer
  /-- The label of the block that control passes to. -/
  successor : Label
deriving DecidableEq, Repr

/-- The stack height at the start of the successor, for a height at the start of the block. -/
def Edge.entryHeight (edge : Edge) (height : Int32) : Int32 :=
  match edge.transfer with
  | .jump above => height + above
  | .exception => 1

end MethodBody
