import MethodBody.FlowGraph
import MethodBody.Format

/-!
# Finished method code

The code of a method with its maxima and the two tables that refer to offsets in the code. Whatever
the tables hold is what a class file would hold, so offsets are words of two bytes.
-/

namespace MethodBody

/-- A protected range of the code and its handler. -/
structure HandlerRow where
  /-- The offset of the first protected byte. -/
  start : UInt16
  /-- The offset after the last protected byte. -/
  stop : UInt16
  /-- The offset of the handler. -/
  handler : UInt16
  /-- The class of the exceptions to catch as a constant index, or zero for all of them. -/
  catchType : UInt16
deriving DecidableEq, Repr

/-- The rows of an exception table, field by field. -/
def HandlerRow.format : Format HandlerRow :=
  (Format.word.pair (Format.word.pair (Format.word.pair Format.word))).map
    (fun (start, stop, handler, catchType) => { start, stop, handler, catchType })
    (fun row => (row.start, row.stop, row.handler, row.catchType))

/-- An offset in the code and its source line. -/
structure LineRow where
  /-- The offset of the first instruction of the line. -/
  start : UInt16
  /-- The number of the line. -/
  line : UInt16
deriving DecidableEq, Repr

/-- The rows of a line number table, field by field. -/
def LineRow.format : Format LineRow :=
  (Format.word.pair Format.word).map
    (fun (start, line) => { start, line })
    (fun row => (row.start, row.line))

/-- The largest sizes that the stack and the local variables take. -/
structure Maxima where
  /-- The largest stack height. -/
  stack : UInt16 := 0
  /-- The number of local slots. -/
  locals : UInt16 := 0
deriving DecidableEq, Repr

/-- A finished method. -/
structure MethodCode where
  /-- The instructions. -/
  code : Buffer
  /-- The sizes of the stack and of the local variables. -/
  maxima : Maxima
  /-- The protected ranges, in the order in which they were added. -/
  handlers : List HandlerRow
  /-- The source lines, in the order in which they were added. -/
  lines : List LineRow
  /-- The code holds branches in their unsigned form, which have to be widened. -/
  needsWidening : Bool
  /-- The flow graph, with all that the analyses found. -/
  graph : FlowGraph

end MethodBody
