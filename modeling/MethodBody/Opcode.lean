import MethodBody.Hex

/-!
# Opcodes that transfer control

The part of the instruction set that labels, blocks and stack heights depend on. Besides the
opcodes of the machine there are reserved ones, the unsigned forms of the narrow branches: their
two operand bytes are a distance from 0 to 65535. They stand in unfinished code only, where a
forward branch turned out longer than a signed operand can hold, and a later pass widens them.
-/

namespace MethodBody

/-- The first byte of an instruction. -/
abbrev Opcode := UInt8

namespace Opcode

/-- The first of the five opcodes that load a local variable, by kind of value. -/
def load : Opcode := 0x15
/-- The first of the twenty one-byte loads, four slots for each kind of value. -/
def loadShort : Opcode := 0x1a
/-- The first of the five opcodes that store a local variable, by kind of value. -/
def store : Opcode := 0x36
/-- The first of the twenty one-byte stores, four slots for each kind of value. -/
def storeShort : Opcode := 0x3b
/-- Add a constant to a local variable. -/
def increment : Opcode := 0x84
/-- The first branch on one operand. -/
def ifEq : Opcode := 0x99
/-- The last branch on one operand, those on null apart. -/
def ifLe : Opcode := 0x9e
/-- The first branch on two operands. -/
def ifCmpEq : Opcode := 0x9f
/-- The last branch on two operands. -/
def ifSameNe : Opcode := 0xa6
/-- Jump with a narrow operand. -/
def goto : Opcode := 0xa7
/-- Call a subroutine with a narrow operand. -/
def jsr : Opcode := 0xa8
/-- Return from a subroutine. -/
def ret : Opcode := 0xa9
/-- Jump through a table of consecutive keys. -/
def tableSwitch : Opcode := 0xaa
/-- Jump through a sorted table of keys. -/
def lookupSwitch : Opcode := 0xab
/-- The first return from a method. -/
def returnInt : Opcode := 0xac
/-- The last return from a method. -/
def returnVoid : Opcode := 0xb1
/-- Throw an exception. -/
def throw : Opcode := 0xbf
/-- Widens the operands of the local instruction that follows. -/
def wide : Opcode := 0xc4
/-- Branch on null. -/
def ifNull : Opcode := 0xc6
/-- Branch on anything but null. -/
def ifNonNull : Opcode := 0xc7
/-- Jump with a wide operand. -/
def gotoWide : Opcode := 0xc8
/-- Call a subroutine with a wide operand. -/
def jsrWide : Opcode := 0xc9
/-- The reserved wide jump. -/
def gotoReserved : Opcode := 0xdc

/-- From a branch to its unsigned form. -/
def unsignedShift : UInt8 := 49
/-- From a branch on null to its unsigned form. -/
def unsignedNullShift : UInt8 := 20

/-- The branches on null and on anything but null. -/
def isNullBranch (opcode : Opcode) : Bool :=
  opcode == ifNull || opcode == ifNonNull

/-- The opcode takes a signed distance of two bytes. -/
def isNarrowBranch (opcode : Opcode) : Bool :=
  (ifEq ≤ opcode && opcode ≤ jsr) || opcode.isNullBranch

/-- The opcode takes one distance, narrow or wide. -/
def isJump (opcode : Opcode) : Bool :=
  opcode.isNarrowBranch || opcode == gotoWide || opcode == jsrWide

/-- The opcode jumps or goes on with the next instruction. -/
def isConditional (opcode : Opcode) : Bool :=
  (ifEq ≤ opcode && opcode ≤ ifSameNe) || opcode.isNullBranch

/-- The opcode leaves the method. -/
def isTerminal (opcode : Opcode) : Bool :=
  (returnInt ≤ opcode && opcode ≤ returnVoid) || opcode == throw

/-- The narrow opcode that does the same as a wide jump or call; any other opcode is its own. -/
def base (opcode : Opcode) : Opcode :=
  if opcode == gotoWide then goto else if opcode == jsrWide then jsr else opcode

/-- What a jump adds to the stack height. The return address of a call is seen by the subroutine
only, so it is counted on the edge into the subroutine and not here. -/
def jumpDelta (opcode : Opcode) : Int32 :=
  if (ifEq ≤ opcode && opcode ≤ ifLe) || opcode.isNullBranch then -1
  else if ifCmpEq ≤ opcode && opcode ≤ ifSameNe then -2
  else 0

/-- The branch on the opposite condition. Opposite conditions stand in adjacent pairs, which begin
with an even opcode for the branches on null and with an odd one for the others. -/
def inverse? (opcode : Opcode) : Option Opcode :=
  if !opcode.isConditional then none
  else if opcode.isNullBranch then some (opcode ^^^ 1)
  else some (((opcode + 1) ^^^ 1) - 1)

/-- The unsigned form of a narrow branch. -/
def unsignedForm? (opcode : Opcode) : Option Opcode :=
  if !opcode.isNarrowBranch then none
  else if opcode.isNullBranch then some (opcode + unsignedNullShift)
  else some (opcode + unsignedShift)

/-- The opcode behind an unsigned form, or behind the reserved wide jump. -/
def signedForm? (opcode : Opcode) : Option Opcode :=
  if ifEq + unsignedShift ≤ opcode && opcode ≤ jsr + unsignedShift then
    some (opcode - unsignedShift)
  else if ifNull + unsignedNullShift ≤ opcode && opcode ≤ ifNonNull + unsignedNullShift then
    some (opcode - unsignedNullShift)
  else if opcode == gotoReserved then some gotoWide
  else none

/-- An opcode is shown as two hexadecimal digits. -/
def text (opcode : Opcode) : String :=
  "0x" ++ Hex.byte opcode

/-- The opcode behind the unsigned form of a branch is that branch. -/
theorem signedForm?_of_unsignedForm? {opcode unsigned : Opcode}
    (form : opcode.unsignedForm? = some unsigned) : unsigned.signedForm? = some opcode := by
  have all : ∀ value : Fin 256, (unsignedForm? (UInt8.ofFin value)).all
      (fun other => signedForm? other == some (UInt8.ofFin value)) = true := by
    decide +kernel
  have found := all opcode.toFin
  rw [UInt8.ofFin_toFin, form] at found
  simpa using found

end Opcode

end MethodBody
