import MethodBody.BigEndian
import MethodBody.Opcode

/-!
# Instructions on local variables

Loads, stores, increments and the return from a subroutine name a slot of the local variables.
Each has up to three forms: one byte for the first four slots, an opcode with one byte for the
slot, and a widened one with two bytes. The shortest form that holds the operands is written.
-/

namespace MethodBody

/-- What a local variable holds. -/
inductive ValueKind where
  | int
  | long
  | float
  | double
  | reference
deriving DecidableEq, Repr

namespace ValueKind

/-- The order of the kinds among the opcodes that load or store them. -/
def position : ValueKind → UInt8
  | int => 0
  | long => 1
  | float => 2
  | double => 3
  | reference => 4

/-- The slots taken by a value, on the stack and among the local variables. -/
def slots : ValueKind → Nat
  | long | double => 2
  | int | float | reference => 1

end ValueKind

/-- An instruction that names a slot of the local variables. -/
inductive LocalInstruction where
  /-- Push the variable on the stack. -/
  | load (kind : ValueKind) (slot : UInt16)
  /-- Pop the variable off the stack. -/
  | store (kind : ValueKind) (slot : UInt16)
  /-- Add a constant to an integer variable. -/
  | increment (slot : UInt16) (amount : Int16)
  /-- Continue at the return address in the variable. -/
  | ret (slot : UInt16)
deriving DecidableEq, Repr

namespace LocalInstruction

/-- The opcode of the forms that write the slot after it. -/
def opcode : LocalInstruction → Opcode
  | load kind _ => Opcode.load + kind.position
  | store kind _ => Opcode.store + kind.position
  | increment .. => Opcode.increment
  | ret _ => Opcode.ret

/-- The slot named. -/
def slot : LocalInstruction → UInt16
  | load _ slot | store _ slot | increment slot _ | ret slot => slot

/-- The number of slots the variable takes. -/
def slots : LocalInstruction → Nat
  | load kind _ | store kind _ => kind.slots
  | increment .. | ret _ => 1

/-- What the instruction adds to the stack height. -/
def delta : LocalInstruction → Int32
  | load kind _ => .ofNat kind.slots
  | store kind _ => -.ofNat kind.slots
  | increment .. | ret _ => 0

/-- The number of local slots a method needs to run the instruction. -/
def localsNeeded (instruction : LocalInstruction) : Nat :=
  instruction.slot.toNat + instruction.slots

/-- The form that writes the slot in one byte. -/
def narrowForm (opcode : Opcode) (slot : UInt16) : List UInt8 :=
  [opcode, slot.toUInt8]

/-- The form that writes the slot in two bytes. -/
def wideForm (opcode : Opcode) (slot : UInt16) : List UInt8 :=
  Opcode.wide :: opcode :: BigEndian.encode 2 slot.toNat

/-- The one-byte opcode of a kind and one of the first four slots. -/
def shortForm (first : Opcode) (kind : ValueKind) (slot : UInt16) : List UInt8 :=
  [first + 4 * kind.position + slot.toUInt8]

/-- The shortest form of an instruction without a one-byte form. -/
def encodeSlot (opcode : Opcode) (slot : UInt16) : List UInt8 :=
  if slot < 256 then narrowForm opcode slot else wideForm opcode slot

/-- The bytes of the shortest form. -/
def encode (instruction : LocalInstruction) : List UInt8 :=
  match instruction with
  | load kind slot =>
    if slot < 4 then shortForm Opcode.loadShort kind slot
    else encodeSlot instruction.opcode slot
  | store kind slot =>
    if slot < 4 then shortForm Opcode.storeShort kind slot
    else encodeSlot instruction.opcode slot
  | increment slot amount =>
    if slot < 256 ∧ BigEndian.FitsSigned 1 amount.toInt then
      narrowForm instruction.opcode slot ++ BigEndian.encodeSigned 1 amount.toInt
    else
      wideForm instruction.opcode slot ++ BigEndian.encodeSigned 2 amount.toInt
  | ret slot => encodeSlot instruction.opcode slot

end LocalInstruction

end MethodBody
