import MethodBody.Assembler.Finish
import MethodBody.Assembler.Operation

/-!
# Listings

A listing holds the instructions that a run of operations writes, each as it was requested and with
the offset of its opcode. Which instruction an operation writes follows from the operation and the
state before it (`Operation.emitted?`), so a listing says nothing about how bytes are written or
filled in later. The bytes of an instruction are described in pieces: bytes that never change, and
places for the distance to a label.
-/

namespace MethodBody

/-- A stretch of the code. -/
inductive Piece where
  /-- Bytes that do not depend on any label. -/
  | literal (bytes : List UInt8)
  /-- A branch with a narrow operand for the distance to a label. -/
  | branch (opcode : Opcode) (target : Label)
  /-- A wide operand for the distance from an opcode to a label. -/
  | distance (source : Nat) (target : Label)
deriving DecidableEq, Repr

/-- A distance in the code, from an instruction to a label. -/
structure Mention where
  /-- The label. -/
  target : Label
  /-- The offset of the opcode that the distance is counted from. -/
  source : Nat
  /-- The offset of the operand. -/
  site : Nat
  /-- The opcode that was written at the source, if the operand is narrow. A wide operand has
  none. -/
  branch? : Option Opcode
deriving DecidableEq, Repr

/-- An instruction as it was requested. -/
inductive Instruction where
  /-- One that goes on with the next instruction or leaves the method, given its bytes and what it
  adds to the stack height. -/
  | plain (bytes : List UInt8) (delta : Int32)
  /-- One that names a slot of the local variables. -/
  | onLocal (instruction : LocalInstruction)
  /-- A jump in the form it was written in. -/
  | jump (opcode : Opcode) (form : JumpForm) (target : Label)
  /-- A switch over consecutive keys. -/
  | tableSwitch (low high : Int32) (fallback : Label) (targets : List Label)
  /-- A switch over the keys of the cases, in order. -/
  | lookupSwitch (fallback : Label) (cases : List Case)
deriving DecidableEq, Repr

namespace Piece

/-- The number of bytes. -/
def size : Piece → Nat
  | literal bytes => bytes.length
  | branch .. => 1 + Width.narrow.size
  | distance .. => Width.wide.size

/-- The distance in a piece that starts at the given offset. -/
def mention? (offset : Nat) : Piece → Option Mention
  | literal _ => none
  | branch opcode target => some ⟨target, offset, offset + 1, some opcode⟩
  | distance source target => some ⟨target, source, offset, none⟩

/-- The distances in pieces of which the first starts at the given offset. -/
def mentions : (offset : Nat) → List Piece → List Mention
  | _, [] => []
  | offset, piece :: rest => (piece.mention? offset).toList ++ mentions (offset + piece.size) rest

/-- The number of bytes of all pieces. -/
def totalSize : List Piece → Nat
  | [] => 0
  | piece :: rest => piece.size + totalSize rest

end Piece

namespace Mention

/-- The distance that the code holds. A narrow operand is signed behind the opcode that was written
and unsigned behind the unsigned form of that opcode. -/
def distance? (mention : Mention) (code : Buffer) : Option Int :=
  match mention.branch? with
  | none => (code.readSigned mention.site Width.wide.size).toOption
  | some opcode =>
    if code.byte? mention.source = some opcode then
      (code.readSigned mention.site Width.narrow.size).toOption
    else if code.byte? mention.source = opcode.unsignedForm? then
      (code.readUnsigned mention.site Width.narrow.size).toOption.map Int.ofNat
    else none

end Mention

namespace Instruction

/-- The opcode of a switch, whose opcode has the given offset, and the zeros up to its operands. -/
def switchHead (opcode : Opcode) (offset : Nat) : List UInt8 :=
  opcode :: List.replicate (Buffer.padding 4 (offset + 1)) 0

/-- The bytes of an instruction, given the offset of its opcode. -/
def pieces (offset : Nat) : Instruction → List Piece
  | plain bytes _ => [.literal bytes]
  | onLocal instruction => [.literal instruction.encode]
  | jump _ (.plain opcode .narrow) target => [.branch opcode target]
  | jump _ (.plain opcode .wide) target => [.literal [opcode], .distance offset target]
  | jump _ (.inverted inverse) target =>
    [.literal (inverse :: Width.narrow.operand 8), .literal [Opcode.gotoWide],
      .distance (offset + 3) target]
  | tableSwitch low high fallback targets =>
    .literal (switchHead Opcode.tableSwitch offset) :: .distance offset fallback ::
      .literal (BigEndian.encodeSigned 4 low.toInt) ::
      .literal (BigEndian.encodeSigned 4 high.toInt) ::
      targets.map (.distance offset)
  | lookupSwitch fallback cases =>
    .literal (switchHead Opcode.lookupSwitch offset) :: .distance offset fallback ::
      .literal (BigEndian.encodeSigned 4 cases.length) ::
      cases.flatMap fun one =>
        [.literal (BigEndian.encodeSigned 4 one.key.toInt), .distance offset one.target]

/-- The labels that control can be transferred to. -/
def targets : Instruction → List Label
  | plain .. | onLocal _ => []
  | jump _ _ target => [target]
  | tableSwitch _ _ fallback targets => fallback :: targets
  | lookupSwitch fallback cases => fallback :: cases.map (·.target)

/-- What the instruction adds to the stack height. -/
def delta : Instruction → Int32
  | plain _ delta => delta
  | onLocal instruction => instruction.delta
  | jump opcode _ _ => opcode.jumpDelta
  | tableSwitch .. | lookupSwitch .. => -1

/-- Control can go on with the next instruction. -/
def continues : Instruction → Bool
  | plain [] _ => true
  | plain (opcode :: _) _ => !Opcode.isTerminal opcode
  | onLocal (.ret _) => false
  | onLocal _ => true
  | jump opcode _ _ => opcode.isConditional
  | tableSwitch .. | lookupSwitch .. => false

end Instruction

namespace Operation

/-- The labels that an operation names. -/
def labels : Operation → List Label
  | freshLabel | freshDebugLabel | instruction .. | localInstruction _ | declare _ => []
  | place label => [label]
  | jump _ target => [target]
  | tableSwitch _ _ fallback targets => fallback :: targets
  | lookupSwitch fallback cases => fallback :: cases.map (·.target)
  | addLine label _ => [label]
  | addHandler handler => [handler.start, handler.stop, handler.handler]

/-- The instruction that an operation writes, unless it writes none. Nothing is written for a jump
that is refused. A switch is written before its labels are found to be targets or not. -/
def emitted? (assembler : Assembler) : Operation → Option Instruction
  | instruction [] _ => none
  | instruction (opcode :: rest) delta =>
    if Assembler.needsOwnOperation opcode then none else some (.plain (opcode :: rest) delta)
  | localInstruction request => some (.onLocal request)
  | jump opcode target => do
    let node ← assembler.graph.node? target
    if opcode.isJump && !(node.flags.debugOnly && node.isPlaced) then
      let form ← opcode.jumpForm? (node.isFarBefore assembler.code.cursor)
      some (.jump opcode form target)
    else none
  | tableSwitch low high fallback targets => some (.tableSwitch low high fallback targets)
  | lookupSwitch fallback cases => some (.lookupSwitch fallback (Assembler.sortCases cases))
  | freshLabel | freshDebugLabel | place _ | addLine .. | addHandler _ | declare _ => none

end Operation

/-- An instruction in its place. -/
structure Listed where
  /-- The offset of the opcode. -/
  offset : Nat
  /-- The instruction. -/
  instruction : Instruction
deriving DecidableEq, Repr

namespace Listed

/-- The bytes of the instruction. -/
def pieces (listed : Listed) : List Piece := listed.instruction.pieces listed.offset

/-- The distances in the instruction. -/
def mentions (listed : Listed) : List Mention := Piece.mentions listed.offset listed.pieces

/-- The offset behind the instruction. -/
def stop (listed : Listed) : Nat := listed.offset + Piece.totalSize listed.pieces

end Listed

/-- The offset of a label, if it has one. -/
def FlowGraph.offset? (graph : FlowGraph) (label : Label) : Option Nat :=
  (graph.node? label).bind Node.offset?

namespace Assembler

/-- The instruction that an operation writes, in its place. -/
def listed? (assembler : Assembler) (operation : Operation) : Option Listed :=
  (operation.emitted? assembler).map fun instruction => ⟨assembler.code.cursor, instruction⟩

/-- The instructions that the operations of a run write, in order. -/
def listing (assembler : Assembler) : List Operation → List Listed
  | [] => []
  | operation :: rest =>
    (assembler.listed? operation).toList ++ (assembler.after operation).listing rest

/-- The instructions follow each other without a gap, and the first has the given offset. -/
def Contiguous : (start : Nat) → List Listed → Prop
  | _, [] => True
  | start, listed :: rest => listed.offset = start ∧ Contiguous listed.stop rest

/-- Each operation names labels that exist when it is performed. -/
def NamesKnown (assembler : Assembler) : List Operation → Prop
  | [] => True
  | operation :: rest =>
    (∀ label ∈ operation.labels, (assembler.graph.node? label).isSome) ∧
      (assembler.after operation).NamesKnown rest

/-- No operation fails. -/
def Succeeds (assembler : Assembler) : List Operation → Prop
  | [] => True
  | operation :: rest =>
    (operation.perform.run assembler).answer.isOk ∧ (assembler.after operation).Succeeds rest

/-- Whether the labels exist can be decided operation by operation. -/
instance decidableNamesKnown : (assembler : Assembler) → (operations : List Operation) →
    Decidable (assembler.NamesKnown operations)
  | _, [] => .isTrue trivial
  | assembler, operation :: rest =>
    have := decidableNamesKnown (assembler.after operation) rest
    inferInstanceAs (Decidable (_ ∧ _))

/-- Whether no operation fails can be decided operation by operation. -/
instance decidableSucceeds : (assembler : Assembler) → (operations : List Operation) →
    Decidable (assembler.Succeeds operations)
  | _, [] => .isTrue trivial
  | assembler, operation :: rest =>
    have := decidableSucceeds (assembler.after operation) rest
    inferInstanceAs (Decidable (_ ∧ _))

end Assembler

end MethodBody
