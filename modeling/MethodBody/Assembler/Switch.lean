import MethodBody.Assembler

/-!
# Switches

A switch pops a key and jumps to the label of that key, or to a fallback. Its operands are aligned
to a multiple of four, and all its distances are wide and count from its opcode.
-/

namespace MethodBody

/-- The label to jump to for one key. -/
structure Case where
  /-- The key. -/
  key : Int32
  /-- The label. -/
  target : Label
deriving DecidableEq, Repr

namespace Assembler

/-- Write a word of four bytes. -/
def emitWord (value : Int) : Action Assembler Unit :=
  modify (·.append (BigEndian.encodeSigned 4 value))

/-- Write the opcode of a switch and the distance to its fallback. The answer is the offset of the
opcode. -/
def beginSwitch (opcode : Opcode) (fallback : Label) : Action Assembler Nat := do
  let source ← cursor
  modify (·.append [opcode])
  modify fun assembler => { assembler with code := assembler.code.align 4 }
  refer fallback source .wide
  pure source

/-- End the open block with a switch, given all its labels. -/
def endSwitch (targets : List Label) : Action Assembler Unit := do
  modify (·.adjust (-1))
  Action.forEach targets fun target => do
    markTarget target
    modify (·.addEdge target)
  modify closeBlock

/-- Write a switch over consecutive keys. There should be a label for each key from the lowest to
the highest. -/
def tableSwitch (low high : Int32) (fallback : Label) (targets : List Label) :
    Action Assembler Unit := do
  let source ← beginSwitch Opcode.tableSwitch fallback
  emitWord low.toInt
  emitWord high.toInt
  Action.forEach targets fun target => refer target source .wide
  endSwitch (fallback :: targets)

/-- The cases by increasing key. Cases with the same key keep their order. -/
def sortCases (cases : List Case) : List Case :=
  cases.mergeSort fun left right => left.key ≤ right.key

/-- Write a switch over any keys. The machine wants them in increasing order. -/
def lookupSwitch (fallback : Label) (cases : List Case) : Action Assembler Unit := do
  let sorted := sortCases cases
  let source ← beginSwitch Opcode.lookupSwitch fallback
  emitWord sorted.length
  Action.forEach sorted fun one => do
    emitWord one.key.toInt
    refer one.target source .wide
  endSwitch (fallback :: sorted.map (·.target))

end Assembler

end MethodBody
