import MethodBody.Assembler

/-!
# Jumps

A jump names a label, placed or not. The distance to a placed label is known: if it is too long for
a narrow operand, the jump is written so that a wide operand holds it. The operand of a jump to a
label without an offset has the width of its opcode, and the label fills it in when it is placed.
-/

namespace MethodBody

/-- How a jump is written. -/
inductive JumpForm where
  /-- The opcode, then the distance. -/
  | plain (opcode : Opcode) (width : Width)
  /-- The opposite branch over a wide jump. -/
  | inverted (inverse : Opcode)
deriving DecidableEq, Repr

/-- How to write a jump to a label that may be farther back than a narrow operand can say. -/
def Opcode.jumpForm? (opcode : Opcode) (far : Bool) : Option JumpForm :=
  let base := opcode.base
  if !far then some (.plain opcode (if base = opcode then .narrow else .wide))
  else if base = goto then some (.plain gotoWide .wide)
  else if base = jsr then some (.plain jsrWide .wide)
  else base.inverse?.map .inverted

/-- The label is placed farther before the offset than a narrow operand can say. -/
def Node.isFarBefore (node : Node) (source : Nat) : Bool :=
  match node.offset? with
  | some target => Offset.distance target source < -32768
  | none => false

namespace Assembler

/-- Write a jump in the given form. The opposite branch jumps over its own three bytes and the five
of the wide jump. -/
def emitJump (form : JumpForm) (target : Label) : Action Assembler Unit := do
  match form with
  | .plain opcode width =>
    let source ← cursor
    modify (·.append [opcode])
    refer target source width
  | .inverted inverse =>
    modify (·.append (inverse :: Width.narrow.operand 8))
    let source ← cursor
    modify (·.append [Opcode.gotoWide])
    refer target source .wide

/-- End the open block with the call of a subroutine. The subroutine finds the return address on
the stack. What follows the call is a new block, which the subroutine returns to. -/
def call (block : OpenBlock) (entry : Label) : Action Assembler Unit := do
  modify fun assembler => { assembler with callsSubroutines := true }
  modify (·.update entry fun node => { node with flags.startsSubroutine := true })
  modify (·.update block.label fun node => { node with flags.callsSubroutine := true })
  modify fun assembler => { assembler with
    graph := assembler.graph.prepend block.label ⟨.jump (block.height + 1), entry⟩ }
  place (← create {})

/-- End the open block with a jump. What follows a conditional one is a new block. -/
def branch (base : Opcode) (target : Label) (nextIsTarget : Bool) : Action Assembler Unit := do
  modify (·.adjust base.jumpDelta)
  modify (·.addEdge target)
  if base = Opcode.goto then modify closeBlock
  else place (← create { jumpTarget := nextIsTarget })

/-- Write a jump to a label. -/
def jump (opcode : Opcode) (target : Label) : Action Assembler Unit := do
  unless opcode.isJump do throw (.notAJump opcode)
  markTarget target
  let source ← cursor
  let node ← getNode target
  let some form := opcode.jumpForm? (node.isFarBefore source)
    | throw (.notAJump opcode)
  emitJump form target
  Action.report (.jump opcode source target)
  match ← Action.inspect Assembler.openBlock with
  | none => pure ()
  | some block =>
    if opcode.base = Opcode.jsr then call block target
    else branch opcode.base target (form matches .inverted _)

end Assembler

end MethodBody
