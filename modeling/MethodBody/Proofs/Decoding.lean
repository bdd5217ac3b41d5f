import MethodBody.Proofs.Blocks
import MethodBody.Proofs.Distances

/-!
# Decoding

Where control goes from an instruction can be read off the bytes of finished code, without a label
or a block (`Buffer.decode?`). Branches in their unsigned form are read as the branches behind them,
and the opposite branch over a wide jump is read as the one conditional branch that it stands for.
Decoding an instruction of the listing returns what was asked for (`Listed.decode?_of_standAt`), and
decoding one instruction after the other leads to the last one of a block
(`lastDecoded?_of_contiguous`).
-/

namespace MethodBody

/-- What the bytes of an instruction say about control. -/
structure Decoded where
  /-- The number of bytes behind the opcode. -/
  operands : Nat
  /-- The offsets that control can be transferred to. -/
  targets : List Int := []
  /-- Control can go on with the next instruction. -/
  continues : Bool := true
deriving DecidableEq, Repr

namespace Decoded

/-- Control goes on with the next instruction and nowhere else. -/
def isStraight (decoded : Decoded) : Bool :=
  decoded.targets.isEmpty && decoded.continues

/-- The offset behind the instruction, given the offset of its opcode. -/
def stop (decoded : Decoded) (offset : Nat) : Nat := offset + 1 + decoded.operands

end Decoded

namespace Opcode

/-- The last opcodes of the groups of opcodes that have equally many bytes behind them. Jumps,
switches and the prefix of widened instructions have no fixed number. -/
def operandGroups : List (Opcode × Option Nat) :=
  [(0x0f, some 0), (0x10, some 1), (0x11, some 2), (0x12, some 1), (0x14, some 2), (0x19, some 1),
    (0x35, some 0), (0x3a, some 1), (0x83, some 0), (0x84, some 2), (0x98, some 0), (0xa8, none),
    (0xa9, some 1), (0xab, none), (0xb1, some 0), (0xb8, some 2), (0xba, some 4), (0xbb, some 2),
    (0xbc, some 1), (0xbd, some 2), (0xbf, some 0), (0xc1, some 2), (0xc3, some 0), (0xc4, none),
    (0xc5, some 3)]

/-- The number of bytes behind an opcode that neither jumps nor widens the next instruction. -/
def operandCount? (opcode : Opcode) : Option Nat :=
  (operandGroups.find? fun group => opcode ≤ group.1).bind (·.2)

/-- The number of bytes behind an opcode that is widened: two for the slot, and two more for the
constant of an increment. -/
def widenedCount? (opcode : Opcode) : Option Nat :=
  if opcode = increment then some 4
  else if (load ≤ opcode && opcode ≤ 0x19) || (store ≤ opcode && opcode ≤ 0x3a) || opcode = ret then
    some 2
  else none

/-- The bytes are one complete instruction that does not jump. -/
def isComplete : List Opcode → Bool
  | [] => false
  | opcode :: operands =>
    if opcode = wide then operands.head?.bind widenedCount? = some (operands.length - 1)
    else opcode.operandCount? = some operands.length

/-- The bytes are a return from a subroutine, widened or not. -/
def isReturn (bytes : List Opcode) : Bool :=
  bytes.head? = some ret || bytes.take 2 = [wide, ret]

/-- The bytes of an instruction that does not jump let control go on with the next one. -/
def goesOn (bytes : List Opcode) : Bool :=
  !bytes.head?.any isTerminal && !isReturn bytes

/-- The opcode behind an unsigned form. Any other opcode is its own. -/
def signed (opcode : Opcode) : Opcode := opcode.signedForm?.getD opcode

end Opcode

namespace Buffer

variable (code : Buffer)

/-- The signed word of `width` bytes at an offset, if there is one. -/
def signed? (offset width : Nat) : Option Int := (code.readSigned offset width).toOption

/-- Signed words of four bytes. Each begins `stride` bytes behind the one before. -/
def words? (stride : Nat) : (offset count : Nat) → Option (List Int)
  | _, 0 => some []
  | offset, count + 1 =>
    (code.signed? offset 4).bind fun word =>
      (words? stride (offset + stride) count).map fun rest => word :: rest

/-- An instruction that does not jump, given its opcode. -/
def decodePlain? (opcode : Opcode) : Option Decoded :=
  opcode.operandCount?.map fun operands =>
    { operands, continues := !opcode.isTerminal && opcode ≠ Opcode.ret }

/-- A widened instruction. -/
def decodeWidened? (offset : Nat) : Option Decoded :=
  (code.byte? (offset + 1)).bind fun (opcode : Opcode) =>
    opcode.widenedCount?.map fun operands =>
      { operands := 1 + operands, continues := opcode ≠ Opcode.ret }

/-- A jump with a wide operand. -/
def decodeFar? (offset : Nat) : Option Decoded :=
  (code.signed? (offset + 1) 4).map fun distance =>
    { operands := 4, targets := [offset + distance], continues := false }

/-- A branch with a narrow operand, given its opcode. If it is conditional and jumps over a wide
jump in front of the limit, the two are one conditional branch. -/
def decodeBranch? (limit offset : Nat) (opcode : Opcode) : Option Decoded :=
  (code.signed? (offset + 1) 2).bind fun distance =>
    if opcode.isConditional ∧ distance = 8 ∧ offset + 8 ≤ limit ∧
        code.byte? (offset + 3) = some Opcode.gotoWide then
      (code.signed? (offset + 4) 4).map fun far =>
        { operands := 7, targets := [offset + 3 + far], continues := true }
    else
      some { operands := 2, targets := [offset + distance], continues := opcode.isConditional }

/-- A branch in its unsigned form, given the opcode behind it. -/
def decodeUnsigned? (offset : Nat) (opcode : Opcode) : Option Decoded :=
  (code.readUnsigned (offset + 1) 2).toOption.map fun (distance : Nat) =>
    { operands := 2, targets := [offset + distance], continues := opcode.isConditional }

/-- A switch over consecutive keys. -/
def decodeTable? (offset : Nat) : Option Decoded :=
  let first := offset + 1 + padding 4 (offset + 1)
  (code.signed? first 4).bind fun fallback =>
    (code.signed? (first + 4) 4).bind fun low =>
      (code.signed? (first + 8) 4).bind fun high =>
        let count := (high - low + 1).toNat
        (code.words? 4 (first + 12) count).map fun distances =>
          { operands := padding 4 (offset + 1) + 12 + 4 * count
            targets := (fallback :: distances).map fun distance => offset + distance
            continues := false }

/-- A switch over any keys. -/
def decodeLookup? (offset : Nat) : Option Decoded :=
  let first := offset + 1 + padding 4 (offset + 1)
  (code.signed? first 4).bind fun fallback =>
    (code.signed? (first + 4) 4).bind fun count =>
      (code.words? 8 (first + 12) count.toNat).map fun distances =>
        { operands := padding 4 (offset + 1) + 8 + 8 * count.toNat
          targets := (fallback :: distances).map fun distance => offset + distance
          continues := false }

/-- The instruction at an offset, unless it calls a subroutine. A conditional branch over a wide
jump is one instruction only if it ends in front of the limit. -/
def decode? (limit offset : Nat) : Option Decoded :=
  (code.byte? offset).bind fun (opcode : Opcode) =>
    if opcode.signed.base = Opcode.jsr then none
    else if opcode.signed = Opcode.gotoWide then code.decodeFar? offset
    else if opcode.isNarrowBranch then code.decodeBranch? limit offset opcode
    else if opcode.signed.isNarrowBranch then code.decodeUnsigned? offset opcode.signed
    else if opcode = Opcode.tableSwitch then code.decodeTable? offset
    else if opcode = Opcode.lookupSwitch then code.decodeLookup? offset
    else if opcode = Opcode.wide then code.decodeWidened? offset
    else decodePlain? opcode

/-- The last one of the instructions from an offset on that are decoded one after the other, up to
the limit or to the first that does not just go on. -/
def lastDecoded? (limit offset : Nat) : Option Decoded :=
  (code.decode? limit offset).bind fun decoded =>
    if decoded.isStraight ∧ decoded.stop offset < limit then
      lastDecoded? limit (decoded.stop offset)
    else some decoded
termination_by limit - offset
decreasing_by
  simp only [Decoded.stop] at *
  omega

end Buffer

/-- Pieces stand in the code, of which the first starts at the given offset, and the operands hold
the distances to their targets. -/
structure Piece.StandAt (offset? : Label → Option Nat) (code : Buffer) (offset : Nat)
    (pieces : List Piece) : Prop where
  /-- The code holds their text. -/
  text : ∃ front back, code.toList = front ++ textAll offset? offset pieces ++ back ∧
    front.length = offset
  /-- The operands hold the distances to their targets. -/
  holds : HoldAll offset? offset pieces

namespace Piece.StandAt

variable {offset? : Label → Option Nat} {code : Buffer} {offset : Nat} {pieces rest : List Piece}
  {piece : Piece}

/-- Pieces in a row stand one behind the other. -/
theorem append {first second : List Piece} (stand : StandAt offset? code offset (first ++ second)) :
    StandAt offset? code offset first ∧
      StandAt offset? code (offset + totalSize first) second := by
  obtain ⟨⟨front, back, split, here⟩, holds⟩ := stand
  rw [textAll_append] at split
  rw [holdAll_append] at holds
  refine ⟨⟨⟨front, textAll offset? (offset + totalSize first) second ++ back, ?_, here⟩, holds.1⟩,
    ⟨⟨front ++ textAll offset? offset first, back, ?_, ?_⟩, holds.2⟩⟩
  · rw [split]
    simp
  · rw [split]
    simp
  · simp [here]

/-- The other pieces stand behind the first. -/
theorem tail (stand : StandAt offset? code offset (piece :: rest)) :
    StandAt offset? code (offset + piece.size) rest := by
  have first : [piece] ++ rest = piece :: rest := rfl
  rw [← first] at stand
  exact stand.append.2

/-- The first piece stands in front. -/
theorem head (stand : StandAt offset? code offset (piece :: rest)) :
    ∃ front back, code.toList = front ++ piece.text offset? front.length ++ back ∧
      front.length = offset ∧ piece.Holds offset? front.length := by
  obtain ⟨⟨front, back, split, rfl⟩, holds⟩ := stand
  refine ⟨front, textAll offset? (front.length + piece.size) rest ++ back, ?_, rfl, holds.1⟩
  rw [split, textAll]
  simp

/-- Bytes that do not depend on a label can be read back. -/
theorem byte? {bytes : List UInt8} {index : Nat}
    (stand : StandAt offset? code offset (.literal bytes :: rest)) (inside : index < bytes.length) :
    code.byte? (offset + index) = bytes[index]? := by
  obtain ⟨front, back, split, rfl, _⟩ := stand.head
  rw [Piece.text, List.append_assoc] at split
  rw [Buffer.byte?_eq_toList, split, List.getElem?_append_right (Nat.le_add_right _ _),
    Nat.add_sub_cancel_left, List.getElem?_append_left inside]

/-- The first byte of those that do not depend on a label. -/
theorem first? {byte : UInt8} {bytes : List UInt8}
    (stand : StandAt offset? code offset (.literal (byte :: bytes) :: rest)) :
    code.byte? offset = some byte :=
  stand.byte? (Nat.succ_pos _)

/-- A word that does not depend on a label can be read back. -/
theorem signed?_literal {front back : List UInt8} {width : Nat} {value : Int}
    (stand : StandAt offset? code offset
      (.literal (front ++ BigEndian.encodeSigned width value ++ back) :: rest))
    (fits : BigEndian.FitsSigned width value) :
    code.signed? (offset + front.length) width = some value := by
  obtain ⟨before, behind, split, rfl, _⟩ := stand.head
  have around : code.toList = (before ++ front) ++ BigEndian.encodeSigned width value
      ++ (back ++ behind) := by
    rw [split, Piece.text]
    simp
  have read := Buffer.readSigned_of_split around fits
  rw [List.length_append] at read
  rw [Buffer.signed?, read]
  rfl

/-- A word that is all of a piece can be read back. -/
theorem signed?_word {width : Nat} {value : Int}
    (stand : StandAt offset? code offset (.literal (BigEndian.encodeSigned width value) :: rest))
    (fits : BigEndian.FitsSigned width value) : code.signed? offset width = some value := by
  have alone : BigEndian.encodeSigned width value
      = [] ++ BigEndian.encodeSigned width value ++ [] := by simp
  rw [alone] at stand
  exact stand.signed?_literal fits

/-- A wide distance can be read back. -/
theorem signed?_distance {source place : Nat} {target : Label}
    (stand : StandAt offset? code offset (.distance source target :: rest))
    (placed : offset? target = some place) :
    code.signed? offset 4 = some (Offset.distance place source) := by
  obtain ⟨front, back, split, rfl, holds⟩ := stand.head
  rw [Piece.text, placed] at split
  have read := Buffer.readSigned_of_split split (holds place placed)
  rw [Width.size] at read
  rw [Buffer.signed?, read]
  rfl

/-- The pieces of an instruction of the listing stand where the instruction does. -/
theorem of_mem {start : Nat} {listing : List Listed} {listed : Listed}
    (contiguous : Assembler.Contiguous start listing)
    (stand : StandAt offset? code start (listing.flatMap Listed.pieces))
    (member : listed ∈ listing) : StandAt offset? code listed.offset listed.pieces := by
  induction listing generalizing start with
  | nil => simp at member
  | cons first rest ih =>
    obtain ⟨rfl, others⟩ := contiguous
    rw [List.flatMap_cons] at stand
    rcases List.mem_cons.mp member with rfl | later
    · exact stand.append.1
    · exact ih others stand.append.2 later

end Piece.StandAt

namespace Opcode

/-- The opcode is read by the number of bytes behind it. -/
def IsOrdinary (opcode : Opcode) : Prop :=
  opcode.signed.base ≠ jsr ∧ opcode.signed ≠ gotoWide ∧ opcode.isNarrowBranch = false ∧
    opcode.signed.isNarrowBranch = false ∧ opcode ≠ tableSwitch ∧ opcode ≠ lookupSwitch ∧
    opcode ≠ wide

instance (opcode : Opcode) : Decidable opcode.IsOrdinary := inferInstanceAs (Decidable (_ ∧ _))

/-- An opcode with a fixed number of bytes behind it is read by that number. -/
theorem isOrdinary_of_operandCount? {opcode : Opcode} {count : Nat}
    (fixed : opcode.operandCount? = some count) : opcode.IsOrdinary := by
  have all : ∀ opcode : Opcode, opcode.operandCount?.isSome = true → opcode.IsOrdinary := by
    decide +kernel
  exact all opcode (by simp [fixed])

/-- A narrow branch is in its signed form, and it is neither a wide jump nor a wide call. -/
theorem of_isNarrowBranch : ∀ {opcode : Opcode}, opcode.isNarrowBranch = true →
    opcode.signed = opcode ∧ opcode.base = opcode ∧ opcode ≠ gotoWide := by
  decide +kernel

/-- The unsigned form of a narrow branch is not itself a narrow branch. -/
theorem not_isNarrowBranch_of_unsignedForm? {opcode unsigned : Opcode}
    (form : opcode.unsignedForm? = some unsigned) : unsigned.isNarrowBranch = false := by
  have all : ∀ opcode : Opcode, opcode.unsignedForm?.all (fun other => !other.isNarrowBranch) := by
    decide +kernel
  have found := all opcode
  simpa [form] using found

/-- A conditional branch is a narrow one and no call. -/
theorem of_isConditional : ∀ {opcode : Opcode}, opcode.isConditional = true →
    opcode.isNarrowBranch = true ∧ opcode ≠ jsr := by
  decide +kernel

end Opcode

namespace Buffer

variable {offset? : Label → Option Nat} {code : Buffer} (limit : Nat) {offset : Nat}
  {rest : List Piece}

/-- An instruction that does not jump is read by the bytes behind its opcode. -/
theorem decode?_of_isComplete {bytes : List UInt8}
    (stand : Piece.StandAt offset? code offset (.literal bytes :: rest))
    (complete : Opcode.isComplete bytes = true) :
    code.decode? limit offset
      = some { operands := bytes.length - 1, continues := Opcode.goesOn bytes } := by
  cases bytes with
  | nil => simp [Opcode.isComplete] at complete
  | cons opcode operands =>
    have first := stand.first?
    simp only [Opcode.isComplete] at complete
    by_cases prefixed : opcode = Opcode.wide
    · subst prefixed
      rw [if_pos rfl, decide_eq_true_eq] at complete
      obtain ⟨widened, head, count⟩ := Option.bind_eq_some_iff.mp complete
      obtain ⟨more, rfl⟩ := List.head?_eq_some_iff.mp head
      have second : code.byte? (offset + 1) = some widened := stand.byte? (by simp)
      have read : code.decode? limit offset = code.decodeWidened? offset := by
        rw [decode?, first]
        rfl
      rw [read, decodeWidened?, second, Option.bind_some, count]
      have terminal : Opcode.wide.isTerminal = false := by decide
      have other : Opcode.wide ≠ Opcode.ret := by decide
      simp [Opcode.goesOn, Opcode.isReturn, terminal, other, Nat.add_comm]
    · rw [if_neg prefixed, decide_eq_true_eq] at complete
      obtain ⟨noCall, notFar, notBranch, notUnsigned, notTable, notLookup, _⟩ :=
        Opcode.isOrdinary_of_operandCount? complete
      rw [decode?, first, Option.bind_some, if_neg noCall, if_neg notFar,
        if_neg (by simp [notBranch]), if_neg (by simp [notUnsigned]), if_neg notTable,
        if_neg notLookup, if_neg prefixed, decodePlain?, complete]
      simp [Opcode.goesOn, Opcode.isReturn, prefixed]

/-- A jump with a wide operand leads to its target. -/
theorem decode?_of_far {target : Label} {place : Nat}
    (stand : Piece.StandAt offset? code offset
      (.literal [Opcode.gotoWide] :: .distance offset target :: rest))
    (placed : offset? target = some place) (near : offset < 0x8000000000000000)
    (close : place < 0x8000000000000000) :
    code.decode? limit offset
      = some { operands := 4, targets := [(place : Int)], continues := false } := by
  have first := stand.first?
  have distance : code.signed? (offset + 1) 4 = some (Offset.distance place offset) :=
    stand.tail.signed?_distance placed
  have read : code.decode? limit offset = code.decodeFar? offset := by
    rw [decode?, first]
    rfl
  have address : (offset : Int) + ((place : Int) - offset) = place := by omega
  rw [read, decodeFar?, distance, Offset.distance_eq_sub close near, Option.map_some, address]

/-- A branch with a narrow operand leads to its target, in its unsigned form or not, unless it
stands in front of a wide jump. -/
theorem decode?_of_branch {opcode : Opcode} {target : Label} {place : Nat}
    (stand : Piece.StandAt offset? code offset (.branch opcode target :: rest))
    (noCall : opcode ≠ Opcode.jsr) (alone : opcode.isConditional = true → limit < offset + 8)
    (placed : offset? target = some place) (near : offset < 0x8000000000000000)
    (close : place < 0x8000000000000000) :
    code.decode? limit offset = some
      { operands := 2, targets := [(place : Int)], continues := opcode.isConditional } := by
  obtain ⟨front, back, split, rfl, branch, holds⟩ := stand.head
  obtain ⟨signed, base, notFar⟩ := Opcode.of_isNarrowBranch branch
  have jumps : opcode.signed.base ≠ Opcode.jsr := by
    rw [signed, base]
    exact noCall
  have distance := Offset.distance_eq_sub close near
  have address : (front.length : Int) + ((place : Int) - front.length) = place := by omega
  rw [Piece.text, placed] at split
  rcases Piece.reads_branch branch split (holds place placed) with
    ⟨first, read⟩ | ⟨unsigned, form, other, first, word, same, read⟩
  · have operand : code.signed? (front.length + 1) 2 = some ((place : Int) - front.length) := by
      rw [signed?, read, distance]
      rfl
    have single : ¬(opcode.isConditional = true ∧ (place : Int) - front.length = 8 ∧
        front.length + 8 ≤ limit ∧ code.byte? (front.length + 3) = some Opcode.gotoWide) := by
      rintro ⟨conditional, _, inside, _⟩
      have before := alone conditional
      omega
    rw [decode?, first, Option.bind_some, if_neg jumps, signed, if_neg notFar, if_pos branch,
      decodeBranch?, operand, Option.bind_some, if_neg single, address]
  · have behind : Opcode.signed unsigned = opcode := by
      rw [Opcode.signed, Opcode.signedForm?_of_unsignedForm? form]
      rfl
    have notBranch := Opcode.not_isNarrowBranch_of_unsignedForm? form
    have operand : (code.readUnsigned (front.length + 1) 2).toOption = some word := by
      rw [read]
      rfl
    have sum : (front.length : Int) + (word : Int) = place := by omega
    rw [decode?, first, Option.bind_some, behind, if_neg (signed ▸ jumps), if_neg notFar,
      if_neg (by simp [notBranch]), if_pos branch, decodeUnsigned?, operand, Option.map_some, sum]

/-- A conditional branch over a wide jump leads to the target of the jump. -/
theorem decode?_of_inverted {inverse : Opcode} {target : Label} {place : Nat}
    (stand : Piece.StandAt offset? code offset (.literal (inverse :: Width.narrow.operand 8) ::
      .literal [Opcode.gotoWide] :: .distance (offset + 3) target :: rest))
    (conditional : inverse.isConditional = true) (inside : offset + 8 ≤ limit)
    (placed : offset? target = some place) (near : offset < 0x7000000000000000)
    (close : place < 0x8000000000000000) :
    code.decode? limit offset
      = some { operands := 7, targets := [(place : Int)], continues := true } := by
  have first := stand.first?
  obtain ⟨branch, noCall⟩ := Opcode.of_isConditional conditional
  obtain ⟨signed, base, notFar⟩ := Opcode.of_isNarrowBranch branch
  have jumps : inverse.signed.base ≠ Opcode.jsr := by
    rw [signed, base]
    exact noCall
  have operand : code.signed? (offset + 1) 2 = some 8 := by
    have literal : inverse :: Width.narrow.operand 8
        = [inverse] ++ BigEndian.encodeSigned 2 8 ++ [] := by simp [Width.operand, Width.size]
    rw [literal] at stand
    exact stand.signed?_literal (by decide)
  have second : code.byte? (offset + 3) = some Opcode.gotoWide := stand.tail.first?
  have far : code.signed? (offset + 4) 4 = some (Offset.distance place (offset + 3)) :=
    stand.tail.tail.signed?_distance placed
  have address : (offset : Int) + 3 + ((place : Int) - ((offset + 3 : Nat) : Int))
      = place := by omega
  rw [decode?, first, Option.bind_some, if_neg jumps, signed, if_neg notFar, if_pos branch,
    decodeBranch?, operand, Option.bind_some, if_pos ⟨conditional, rfl, inside, second⟩, far,
    Offset.distance_eq_sub close (by omega), Option.map_some, address]

/-- The offset of a label that has one. -/
abbrev address (offset? : Label → Option Nat) (label : Label) : Int :=
  ((offset? label).getD 0 : Nat)

/-- All labels have offsets, and none is out of reach of a signed machine word. -/
def AllPlaced (offset? : Label → Option Nat) (labels : List Label) : Prop :=
  ∀ label ∈ labels, ∃ place, offset? label = some place ∧ place < 0x8000000000000000

/-- The distances in the table of a switch lead to its labels. -/
theorem words?_of_table {source : Nat} {targets : List Label}
    (stand : Piece.StandAt offset? code offset (targets.map (.distance source)))
    (placed : AllPlaced offset? targets) (near : source < 0x8000000000000000) :
    code.words? 4 offset targets.length
      = some (targets.map fun target => address offset? target - source) := by
  induction targets generalizing offset with
  | nil => rfl
  | cons target rest ih =>
    obtain ⟨place, has, close⟩ := placed target List.mem_cons_self
    have first := stand.signed?_distance has
    have others :=
      ih stand.tail fun label member => placed label (List.mem_cons_of_mem target member)
    rw [Piece.size, Width.size] at others
    rw [List.length_cons, words?, first, Option.bind_some, others, Option.map_some,
      Offset.distance_eq_sub close near, List.map_cons, address, has, Option.getD_some]

/-- The distances behind the keys of a switch lead to its labels. -/
theorem words?_of_cases {source : Nat} {cases : List Case}
    (stand : Piece.StandAt offset? code offset (cases.flatMap fun one =>
      [.literal (BigEndian.encodeSigned 4 one.key.toInt), .distance source one.target]))
    (placed : AllPlaced offset? (cases.map (·.target))) (near : source < 0x8000000000000000) :
    code.words? 8 (offset + 4) cases.length
      = some ((cases.map (·.target)).map fun target => address offset? target - source) := by
  induction cases generalizing offset with
  | nil => rfl
  | cons one rest ih =>
    rw [List.map_cons] at placed
    obtain ⟨place, has, close⟩ := placed one.target List.mem_cons_self
    have value := stand.tail
    rw [Piece.size, BigEndian.length_encodeSigned] at value
    have first := value.signed?_distance has
    have others := ih value.tail fun label member => placed label (List.mem_cons_of_mem _ member)
    have next : offset + 4 + Width.wide.size + 4 = offset + 4 + 8 := by simp [Width.size]
    rw [Piece.size, next] at others
    rw [List.length_cons, words?, first, Option.bind_some, others, Option.map_some,
      Offset.distance_eq_sub close near, List.map_cons, List.map_cons, address, has,
      Option.getD_some]

/-- The distances counted from the opcode of a switch are the offsets of its labels. -/
theorem map_address (offset? : Label → Option Nat) (targets : List Label) (source : Nat) :
    (targets.map fun target => address offset? target - source).map
        (fun distance : Int => source + distance)
      = targets.map (address offset?) := by
  rw [List.map_map]
  refine List.map_congr_left fun target _ => ?_
  simp only [Function.comp_apply]
  omega

/-- The operands of a switch start behind its opcode and the zeros. -/
theorem size_switchHead (opcode : Opcode) (offset : Nat) :
    offset + (Piece.literal (Instruction.switchHead opcode offset)).size
      = offset + 1 + padding 4 (offset + 1) := by
  simp only [Piece.size, Instruction.switchHead, List.length_cons, List.length_replicate]
  omega

/-- A key is a signed word of four bytes. -/
theorem fitsSigned_toInt (key : Int32) : BigEndian.FitsSigned 4 key.toInt := by
  have lower := key.le_toInt
  have upper := key.toInt_lt
  simp only [BigEndian.FitsSigned, BigEndian.modulus_four]
  omega

/-- The words of a switch over consecutive keys, which start behind the zeros. -/
theorem reads_table {low high : Int32} {fallback : Label} {targets : List Label}
    (stand : Piece.StandAt offset? code offset
      ((Instruction.tableSwitch low high fallback targets).pieces offset))
    (placed : AllPlaced offset? (fallback :: targets)) (near : offset < 0x8000000000000000) :
    let first := offset + 1 + padding 4 (offset + 1)
    code.signed? first 4 = some (address offset? fallback - offset) ∧
      code.signed? (first + 4) 4 = some low.toInt ∧ code.signed? (first + 8) 4 = some high.toInt ∧
      code.words? 4 (first + 12) targets.length
        = some (targets.map fun target => address offset? target - offset) := by
  intro first
  have operands := stand.tail
  rw [size_switchHead] at operands
  obtain ⟨place, has, close⟩ := placed fallback List.mem_cons_self
  have value : Offset.distance place offset = address offset? fallback - offset := by
    rw [Offset.distance_eq_sub close near, address, has, Option.getD_some]
  have fallbackWord := operands.signed?_distance has
  have lowWord := operands.tail.signed?_word (fitsSigned_toInt low)
  have highWord := operands.tail.tail.signed?_word (fitsSigned_toInt high)
  have table := operands.tail.tail.tail
  rw [value] at fallbackWord
  simp only [Piece.size, Width.size, BigEndian.length_encodeSigned, Nat.add_assoc,
    Nat.reduceAdd] at lowWord highWord table
  have words :=
    words?_of_table table (fun label member => placed label (List.mem_cons_of_mem _ member))
    near
  simp only [first, Nat.add_assoc] at fallbackWord ⊢
  exact ⟨fallbackWord, lowWord, highWord, words⟩

/-- The words of a switch over any keys, which start behind the zeros. The distances stand behind
the keys. -/
theorem reads_lookup {fallback : Label} {cases : List Case}
    (stand : Piece.StandAt offset? code offset
      ((Instruction.lookupSwitch fallback cases).pieces offset))
    (short : cases.length < 0x80000000)
    (placed : AllPlaced offset? (fallback :: cases.map (·.target)))
    (near : offset < 0x8000000000000000) :
    let first := offset + 1 + padding 4 (offset + 1)
    code.signed? first 4 = some (address offset? fallback - offset) ∧
      code.signed? (first + 4) 4 = some (cases.length : Int) ∧
      code.words? 8 (first + 12) cases.length
        = some ((cases.map (·.target)).map fun target => address offset? target - offset) := by
  intro first
  have operands := stand.tail
  rw [size_switchHead] at operands
  obtain ⟨place, has, close⟩ := placed fallback List.mem_cons_self
  have value : Offset.distance place offset = address offset? fallback - offset := by
    rw [Offset.distance_eq_sub close near, address, has, Option.getD_some]
  have fits : BigEndian.FitsSigned 4 (cases.length : Int) := by
    simp only [BigEndian.FitsSigned, BigEndian.modulus_four]
    omega
  have fallbackWord := operands.signed?_distance has
  have countWord := operands.tail.signed?_word fits
  have words := words?_of_cases operands.tail.tail
    (fun label member => placed label (List.mem_cons_of_mem _ member)) near
  rw [value] at fallbackWord
  simp only [Piece.size, Width.size, BigEndian.length_encodeSigned, Nat.add_assoc,
    Nat.reduceAdd] at countWord words
  simp only [first, Nat.add_assoc] at fallbackWord ⊢
  exact ⟨fallbackWord, countWord, words⟩

/-- A switch over consecutive keys leads to its labels, if there is one for each key. -/
theorem decode?_of_tableSwitch {low high : Int32} {fallback : Label} {targets : List Label}
    (stand : Piece.StandAt offset? code offset
      ((Instruction.tableSwitch low high fallback targets).pieces offset))
    (whole : (targets.length : Int) = high.toInt - low.toInt + 1)
    (placed : AllPlaced offset? (fallback :: targets)) (near : offset < 0x8000000000000000) :
    code.decode? limit offset = some
      { operands := padding 4 (offset + 1) + 12 + 4 * targets.length
        targets := (fallback :: targets).map (address offset?)
        continues := false } := by
  have first := stand.first?
  have read : code.decode? limit offset = code.decodeTable? offset := by
    rw [decode?, first]
    rfl
  obtain ⟨fallbackWord, lowWord, highWord, words⟩ := reads_table stand placed near
  have count : (high.toInt - low.toInt + 1).toNat = targets.length := by omega
  rw [read, decodeTable?, ← map_address offset? (fallback :: targets) offset]
  simp only
  rw [fallbackWord, Option.bind_some, lowWord, Option.bind_some, highWord, Option.bind_some, count,
    words, Option.map_some]
  rfl

/-- A switch over any keys leads to its labels. -/
theorem decode?_of_lookupSwitch {fallback : Label} {cases : List Case}
    (stand : Piece.StandAt offset? code offset
      ((Instruction.lookupSwitch fallback cases).pieces offset))
    (short : cases.length < 0x80000000)
    (placed : AllPlaced offset? (fallback :: cases.map (·.target)))
    (near : offset < 0x8000000000000000) :
    code.decode? limit offset = some
      { operands := padding 4 (offset + 1) + 8 + 8 * cases.length
        targets := (fallback :: cases.map (·.target)).map (address offset?)
        continues := false } := by
  have first := stand.first?
  have read : code.decode? limit offset = code.decodeLookup? offset := by
    rw [decode?, first]
    rfl
  obtain ⟨fallbackWord, countWord, words⟩ := reads_lookup stand short placed near
  rw [read, decodeLookup?, ← map_address offset? (fallback :: cases.map (·.target)) offset,
    fallbackWord, Option.bind_some, countWord, Option.bind_some, Int.toNat_natCast, words,
    Option.map_some]
  rfl

end Buffer

/-- A jump of one opcode can be written in this form. -/
def JumpForm.Suits (opcode : Opcode) : JumpForm → Prop
  | plain written .narrow => written ≠ Opcode.jsr ∧ written.isConditional = opcode.isConditional
  | plain written .wide => written = Opcode.gotoWide ∧ opcode.isConditional = false
  | inverted inverse => inverse.isConditional = true ∧ opcode.isConditional = true

instance (opcode : Opcode) : (form : JumpForm) → Decidable (form.Suits opcode)
  | .plain _ .narrow => inferInstanceAs (Decidable (_ ∧ _))
  | .plain _ .wide => inferInstanceAs (Decidable (_ ∧ _))
  | .inverted _ => inferInstanceAs (Decidable (_ ∧ _))

/-- The form that is chosen for a jump suits it. -/
theorem Opcode.suits_of_jumpForm? {opcode : Opcode} {far : Bool} {form : JumpForm}
    (jumps : opcode.isJump = true) (noCall : opcode.base ≠ jsr)
    (chosen : opcode.jumpForm? far = some form) : form.Suits opcode := by
  have all : ∀ opcode : Opcode, opcode.isJump = true → opcode.base ≠ jsr →
      ∀ far, (opcode.jumpForm? far).all (fun form => decide (form.Suits opcode)) = true := by
    decide +kernel
  have found := all opcode jumps noCall far
  simpa [chosen] using found

namespace LocalInstruction

/-- An instruction that writes its slot behind the opcode is complete in either form. -/
theorem isComplete_encodeSlot {opcode : Opcode} (slot : UInt16)
    (narrow : opcode.operandCount? = some 1) (wide : opcode.widenedCount? = some 2)
    (returns : opcode.isTerminal = false) :
    Opcode.isComplete (encodeSlot opcode slot) = true ∧
      Opcode.goesOn (encodeSlot opcode slot) = decide (opcode ≠ Opcode.ret) := by
  have notWide : opcode ≠ Opcode.wide := by
    rintro rfl
    exact absurd narrow (by decide)
  have terminal : Opcode.wide.isTerminal = false := by decide
  have other : Opcode.wide ≠ Opcode.ret := by decide
  unfold encodeSlot
  split
  · simp [narrowForm, Opcode.isComplete, Opcode.goesOn, Opcode.isReturn, notWide, narrow, returns]
  · simp [wideForm, Opcode.isComplete, Opcode.goesOn, Opcode.isReturn, wide, terminal, other]

/-- A one-byte instruction is complete. -/
theorem isComplete_shortForm {first : Opcode} {kind : ValueKind} {slot : UInt16} (small : slot < 4)
    (loads : first = Opcode.loadShort ∨ first = Opcode.storeShort) :
    Opcode.isComplete (shortForm first kind slot) = true ∧
      Opcode.goesOn (shortForm first kind slot) = true := by
  have slots : slot = 0 ∨ slot = 1 ∨ slot = 2 ∨ slot = 3 := by
    have less : slot.toNat < 4 := small
    simp only [← UInt16.toNat_inj]
    have zero : (0 : UInt16).toNat = 0 := rfl
    have one : (1 : UInt16).toNat = 1 := rfl
    have two : (2 : UInt16).toNat = 2 := rfl
    have three : (3 : UInt16).toNat = 3 := rfl
    omega
  rcases loads with rfl | rfl <;> rcases slots with rfl | rfl | rfl | rfl <;> cases kind <;> decide

/-- An instruction on a local variable is complete, and control goes on with the next one unless it
returns from a subroutine. -/
theorem isComplete_encode (request : LocalInstruction) :
    Opcode.isComplete request.encode = true ∧
      Opcode.goesOn request.encode = (Instruction.onLocal request).continues := by
  cases request with
  | load kind slot =>
    simp only [encode]
    split
    · rename_i small
      exact isComplete_shortForm small (.inl rfl)
    · cases kind <;> exact isComplete_encodeSlot slot rfl rfl rfl
  | store kind slot =>
    simp only [encode]
    split
    · rename_i small
      exact isComplete_shortForm small (.inr rfl)
    · cases kind <;> exact isComplete_encodeSlot slot rfl rfl rfl
  | increment slot amount =>
    have narrow : Opcode.increment.operandCount? = some 2 := by decide
    have wide : Opcode.increment.widenedCount? = some 4 := by decide
    have terminal : Opcode.increment.isTerminal = false ∧
        Opcode.wide.isTerminal = false := by decide
    have other : Opcode.increment ≠ Opcode.ret ∧ Opcode.increment ≠ Opcode.wide ∧
        Opcode.wide ≠ Opcode.ret := by
      decide
    simp only [encode]
    split
    · simp [narrowForm, opcode, Opcode.isComplete, Opcode.goesOn, Opcode.isReturn, narrow, terminal,
        other, Instruction.continues]
    · simp [wideForm, opcode, Opcode.isComplete, Opcode.goesOn, Opcode.isReturn, wide, terminal,
        other, Instruction.continues]
  | ret slot => exact isComplete_encodeSlot slot rfl rfl rfl

end LocalInstruction

/-- What is written for the instruction can be read back: the bytes of one that does not jump are
complete, a jump has a form that suits it, and a switch over consecutive keys has a label for each
key. -/
def Instruction.IsReadable : Instruction → Prop
  | plain bytes _ => Opcode.isComplete bytes = true ∧ Opcode.isReturn bytes = false
  | jump opcode form _ => form.Suits opcode
  | tableSwitch low high _ targets => (targets.length : Int) = high.toInt - low.toInt + 1
  | onLocal _ | lookupSwitch .. => True

/-- What decoding an instruction should say, given the offsets of the labels. -/
def Listed.decoded (offset? : Label → Option Nat) (listed : Listed) : Decoded where
  operands := Piece.totalSize listed.pieces - 1
  targets := listed.instruction.targets.map (Buffer.address offset?)
  continues := listed.instruction.continues

namespace Listed

variable {offset? : Label → Option Nat} {code : Buffer} {limit : Nat} {listed : Listed}

/-- A decoded instruction goes straight on if the listed one does. -/
@[simp]
theorem isStraight_decoded (offset? : Label → Option Nat) (listed : Listed) :
    (listed.decoded offset?).isStraight = listed.instruction.isStraight := by
  simp [decoded, Decoded.isStraight, Instruction.isStraight]

/-- A decoded instruction ends where the listed one does. -/
theorem stop_decoded (bytes : listed.offset < listed.stop) :
    (listed.decoded offset?).stop listed.offset = listed.stop := by
  rw [stop] at bytes ⊢
  simp only [decoded, Decoded.stop]
  omega

/-- The number of bytes of the labels of a switch. -/
theorem totalSize_table (source : Nat) (targets : List Label) :
    Piece.totalSize (targets.map (.distance source)) = 4 * targets.length := by
  induction targets with
  | nil => rfl
  | cons target rest ih =>
    simp only [List.map_cons, Piece.totalSize_cons, ih, Piece.size, Width.size, List.length_cons]
    omega

/-- The number of bytes of the cases of a switch. -/
theorem totalSize_cases (source : Nat) (cases : List Case) :
    Piece.totalSize (cases.flatMap fun one =>
      [.literal (BigEndian.encodeSigned 4 one.key.toInt), .distance source one.target])
      = 8 * cases.length := by
  induction cases with
  | nil => rfl
  | cons one rest ih =>
    simp only [List.flatMap_cons, Piece.totalSize_append, ih, Piece.totalSize_cons, Piece.size,
      Width.size, BigEndian.length_encodeSigned, Piece.totalSize_nil, List.length_cons]
    omega

/-- The number of bytes of a switch over consecutive keys. -/
theorem totalSize_tableSwitch (low high : Int32) (fallback : Label) (targets : List Label)
    (offset : Nat) :
    Piece.totalSize ((Instruction.tableSwitch low high fallback targets).pieces offset)
      = 1 + (Buffer.padding 4 (offset + 1) + 12 + 4 * targets.length) := by
  simp only [Instruction.pieces, Piece.totalSize_cons, totalSize_table, Piece.size, Width.size,
    Instruction.switchHead, List.length_cons, List.length_replicate, BigEndian.length_encodeSigned]
  omega

/-- The number of bytes of a switch over any keys. -/
theorem totalSize_lookupSwitch (fallback : Label) (cases : List Case) (offset : Nat) :
    Piece.totalSize ((Instruction.lookupSwitch fallback cases).pieces offset)
      = 1 + (Buffer.padding 4 (offset + 1) + 8 + 8 * cases.length) := by
  simp only [Instruction.pieces, Piece.totalSize_cons, totalSize_cases, Piece.size, Width.size,
    Instruction.switchHead, List.length_cons, List.length_replicate, BigEndian.length_encodeSigned]
  omega

/-- A jump is read back in the form in which it was written. A conditional one has to end at the
limit, so that it cannot be taken for the first half of a branch over a wide jump. -/
theorem decode?_of_jump {opcode : Opcode} {form : JumpForm} {target : Label} {offset place : Nat}
    (stand : Piece.StandAt offset? code offset
      ((Instruction.jump opcode form target).pieces offset))
    (suits : form.Suits opcode) (has : offset? target = some place)
    (close : place < 0x8000000000000000)
    (inside : offset
        + Piece.totalSize ((Instruction.jump opcode form target).pieces offset) ≤ limit)
    (near : offset
        + Piece.totalSize ((Instruction.jump opcode form target).pieces offset) < 0x70000000)
    (ends : (Instruction.jump opcode form target).continues = true →
      offset + Piece.totalSize ((Instruction.jump opcode form target).pieces offset) = limit) :
    code.decode? limit offset
      = some (decoded offset? ⟨offset, Instruction.jump opcode form target⟩) := by
  have address : (place : Int) = Buffer.address offset? target := by
    rw [Buffer.address, has, Option.getD_some]
  simp only [decoded, pieces]
  cases form with
  | plain written width =>
    cases width with
    | narrow =>
      obtain ⟨noCall, conditional⟩ := suits
      have size : Piece.totalSize ((Instruction.jump opcode (.plain written .narrow) target).pieces
        offset) = 3 := rfl
      rw [size] at inside near ends
      have alone : written.isConditional = true → limit < offset + 8 := by
        intro branches
        have last := ends (conditional.symm.trans branches)
        omega
      have read := Buffer.decode?_of_branch limit stand noCall alone has (by omega) close
      rw [read, size, address, conditional]
      rfl
    | wide =>
      obtain ⟨rfl, unconditional⟩ := suits
      have size : Piece.totalSize ((Instruction.jump opcode (.plain Opcode.gotoWide .wide)
        target).pieces offset) = 5 := rfl
      rw [size] at near
      have read := Buffer.decode?_of_far limit stand has (by omega) close
      rw [read, size, address, Instruction.continues, unconditional]
      rfl
  | inverted inverse =>
    obtain ⟨conditional, branches⟩ := suits
    have size : Piece.totalSize ((Instruction.jump opcode (.inverted inverse) target).pieces offset)
      = 8 := rfl
    rw [size] at inside near
    have read := Buffer.decode?_of_inverted limit stand conditional inside has (by omega) close
    rw [read, size, address, Instruction.continues, branches]
    rfl

/-- An instruction of the listing is read back from its text. A conditional one has to end at the
limit, so that it cannot be taken for the first half of a branch over a wide jump. -/
theorem decode?_of_standAt (stand : Piece.StandAt offset? code listed.offset listed.pieces)
    (readable : listed.instruction.IsReadable)
    (placed : Buffer.AllPlaced offset? listed.instruction.targets) (inside : listed.stop ≤ limit)
    (near : listed.stop < 0x70000000)
    (ends : listed.instruction.isStraight = false → listed.instruction.continues = true →
      listed.stop = limit) :
    code.decode? limit listed.offset = some (listed.decoded offset?) := by
  obtain ⟨offset, instruction⟩ := listed
  simp only [stop, pieces] at stand placed inside near ends
  cases instruction with
  | plain bytes delta =>
    have read := Buffer.decode?_of_isComplete limit stand readable.1
    have continues : Opcode.goesOn bytes = (Instruction.plain bytes delta).continues := by
      cases bytes with
      | nil => exact absurd readable.1 (by decide)
      | cons opcode operands => simp [Opcode.goesOn, readable.2, Instruction.continues]
    rw [read, continues]
    rfl
  | onLocal request =>
    obtain ⟨complete, continues⟩ := request.isComplete_encode
    have read := Buffer.decode?_of_isComplete limit stand complete
    rw [read, continues]
    rfl
  | jump opcode form target =>
    obtain ⟨place, has, close⟩ := placed target List.mem_cons_self
    exact decode?_of_jump stand readable has close inside near
      (ends (by simp [Instruction.isStraight, Instruction.targets]))
  | tableSwitch low high fallback targets =>
    have read := Buffer.decode?_of_tableSwitch limit stand readable placed (by omega)
    rw [read, decoded, pieces, totalSize_tableSwitch, Nat.add_sub_cancel_left]
    rfl
  | lookupSwitch fallback cases =>
    have size := totalSize_lookupSwitch fallback cases offset
    have read := Buffer.decode?_of_lookupSwitch limit stand (by omega) placed (by omega)
    rw [read, decoded, pieces, size, Nat.add_sub_cancel_left]
    rfl

/-- Decoding instructions that follow each other leads to the last one, if control goes straight
through the others and does not stop in front of the last. -/
theorem lastDecoded?_of_contiguous {start : Nat} {front : List Listed} {final : Listed}
    (contiguous : Assembler.Contiguous start (front ++ [final]))
    (bytes : ∀ listed ∈ front ++ [final], listed.offset < listed.stop)
    (straight : ∀ listed ∈ front, listed.instruction.isStraight = true)
    (read : ∀ listed ∈ front ++ [final],
      code.decode? limit listed.offset = some (listed.decoded offset?))
    (inside : final.stop ≤ limit)
    (ends : final.instruction.isStraight = true → final.stop = limit) :
    code.lastDecoded? limit start = some (final.decoded offset?) := by
  induction front generalizing start with
  | nil =>
    obtain ⟨rfl, _⟩ := contiguous
    have here := read final (by simp)
    have stop : (final.decoded offset?).stop final.offset = final.stop :=
      stop_decoded (bytes final (by simp))
    have last : ¬((final.decoded offset?).isStraight = true ∧
        (final.decoded offset?).stop final.offset < limit) := by
      rintro ⟨goes, short⟩
      rw [isStraight_decoded] at goes
      have limited := ends goes
      omega
    rw [Buffer.lastDecoded?, here, Option.bind_some, if_neg last]
  | cons listed rest ih =>
    obtain ⟨rfl, others⟩ := contiguous
    have here := read listed List.mem_cons_self
    have stop : (listed.decoded offset?).stop listed.offset = listed.stop :=
      stop_decoded (bytes listed List.mem_cons_self)
    have finalBytes := bytes final (by simp)
    have last : final ∈ rest ++ [final] := by simp
    have behind := (stop_le others last).1
    have goes : (listed.decoded offset?).isStraight = true ∧
        (listed.decoded offset?).stop listed.offset < limit := by
      refine ⟨?_, by omega⟩
      rw [isStraight_decoded]
      exact straight listed List.mem_cons_self
    rw [Buffer.lastDecoded?, here, Option.bind_some, if_pos goes, stop]
    exact ih others (fun other member => bytes other (List.mem_cons_of_mem _ member))
      (fun other member => straight other (List.mem_cons_of_mem _ member))
      (fun other member => read other (List.mem_cons_of_mem _ member))

end Listed

namespace Operation

/-- An instruction that is written is complete and returns from no subroutine. -/
def writesWhole : Operation → Bool
  | instruction bytes _ => Opcode.isComplete bytes && !Opcode.isReturn bytes
  | _ => true

/-- A switch over consecutive keys has a label for each key. -/
def fillsTable : Operation → Bool
  | tableSwitch low high _ targets => (targets.length : Int) = high.toInt - low.toInt + 1
  | _ => true

/-- An instruction can be read back if its operation can. -/
theorem isReadable_of_emitted? {assembler : Assembler} {operation : Operation}
    {instruction : Instruction} (whole : operation.writesWhole = true)
    (fills : operation.fillsTable = true) (noCall : operation.isCall = false)
    (emitted : operation.emitted? assembler = some instruction) : instruction.IsReadable := by
  cases operation with
  | instruction bytes delta =>
    cases bytes with
    | nil => simp [emitted?] at emitted
    | cons opcode rest =>
      simp only [emitted?] at emitted
      split at emitted
      · simp at emitted
      · obtain rfl := Option.some.inj emitted
        simpa [writesWhole, Instruction.IsReadable] using whole
  | localInstruction request =>
    obtain rfl := Option.some.inj emitted
    trivial
  | jump opcode target =>
    cases known : assembler.graph.node? target with
    | none => simp [emitted?, known] at emitted
    | some node =>
      simp only [emitted?, known, Option.bind_eq_bind, Option.bind_some] at emitted
      split at emitted
      · rename_i allowed
        obtain ⟨form, chosen, same⟩ := Option.bind_eq_some_iff.mp emitted
        obtain rfl := Option.some.inj same
        simp only [Bool.and_eq_true] at allowed
        exact Opcode.suits_of_jumpForm? allowed.1 (by simpa [isCall] using noCall) chosen
      · simp at emitted
  | tableSwitch low high fallback targets =>
    obtain rfl := Option.some.inj emitted
    simpa [fillsTable, Instruction.IsReadable] using fills
  | lookupSwitch fallback cases =>
    obtain rfl := Option.some.inj emitted
    trivial
  | freshLabel | freshDebugLabel | place _ | addLine _ _ | addHandler _ | declare _ =>
    simp [emitted?] at emitted

end Operation

/-- The instructions of a listing can be read back if the operations of the run can. -/
theorem Assembler.isReadable_of_mem_listing {assembler : Assembler} {operations : List Operation}
    (whole : ∀ operation ∈ operations, operation.writesWhole = true)
    (fills : ∀ operation ∈ operations, operation.fillsTable = true)
    (noCall : ∀ operation ∈ operations, operation.isCall = false) :
    ∀ listed ∈ assembler.listing operations, listed.instruction.IsReadable := by
  induction operations generalizing assembler with
  | nil => simp [listing]
  | cons operation rest ih =>
    intro listed member
    rcases List.mem_append.mp member with first | later
    · obtain ⟨instruction, emitted, rfl⟩ := Option.map_eq_some_iff.mp (Option.mem_toList.mp first)
      exact Operation.isReadable_of_emitted? (whole operation List.mem_cons_self)
        (fills operation List.mem_cons_self) (noCall operation List.mem_cons_self) emitted
    · exact ih (fun other inside => whole other (List.mem_cons_of_mem _ inside))
        (fun other inside => fills other (List.mem_cons_of_mem _ inside))
        (fun other inside => noCall other (List.mem_cons_of_mem _ inside)) listed later

end MethodBody
