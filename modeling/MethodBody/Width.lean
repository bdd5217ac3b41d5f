import MethodBody.BigEndian

/-!
# Widths of distances

A jump holds the distance to its target in an operand of two bytes or of four.
-/

namespace MethodBody

/-- The size of the operand that holds a distance. -/
inductive Width where
  /-- Two bytes. -/
  | narrow
  /-- Four bytes. -/
  | wide
deriving DecidableEq, Repr

namespace Width

/-- The number of bytes of the operand. -/
def size : Width → Nat
  | narrow => 2
  | wide => 4

/-- The name of the width. -/
def text : Width → String
  | narrow => "Narrow"
  | wide => "Wide"

/-- The distance is a signed number of this width. -/
abbrev Fits (width : Width) (distance : Int) : Prop :=
  BigEndian.FitsSigned width.size distance

/-- The operand that holds a distance. -/
def operand (width : Width) (distance : Int) : List UInt8 :=
  BigEndian.encodeSigned width.size distance

/-- An operand fills its width. -/
@[simp]
theorem length_operand (width : Width) (distance : Int) :
    (width.operand distance).length = width.size :=
  BigEndian.length_encodeSigned _ _

end Width

end MethodBody
