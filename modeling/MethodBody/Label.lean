/-!
# Handles

Labels and subroutines of one method are named by numbers given out in order.
-/

namespace MethodBody

/-- The handle of a label: its place among the labels of the method, in order of creation. -/
structure Label where
  /-- The number of labels created before this one. -/
  index : Nat
deriving DecidableEq, Repr, Inhabited

namespace Label

/-- The label of the first block of a method. -/
def start : Label := ⟨0⟩

/-- The label created after this one. -/
def next (label : Label) : Label := ⟨label.index + 1⟩

/-- A label is shown as its number behind the letter l. -/
def text (label : Label) : String :=
  s!"l{label.index}"

/-- Labels in brackets, separated by commas. -/
def listText (labels : List Label) : String :=
  "[" ++ String.intercalate ", " (labels.map text) ++ "]"

/-- A label that may be missing. -/
def optionText : Option Label → String
  | none => "None"
  | some label => s!"Some({label.text})"

end Label

/-- The number of a subroutine, counted from the body of the method. -/
structure SubroutineId where
  /-- One for the body of the method, then one more for each subroutine found. -/
  number : Nat
deriving DecidableEq, Repr, Inhabited

namespace SubroutineId

/-- The body of the method. -/
def main : SubroutineId := ⟨1⟩

/-- The subroutine found after this one. -/
def next (subroutine : SubroutineId) : SubroutineId := ⟨subroutine.number + 1⟩

end SubroutineId

end MethodBody
