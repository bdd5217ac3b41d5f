import MethodBody.LocalInstruction
import MethodBody.Proofs.ClassFile
import MethodBody.Proofs.Effects

/-!
# The forms of instructions on local variables

The machine knows an instruction on a local variable in up to three forms: an opcode for each of the
first four slots, an opcode with one byte for the slot, and the same behind a prefix that makes it
two bytes. The tables of opcodes are those of the machine. What is written for an instruction is
read back as that instruction, whatever follows it (`run_localInstruction_encode`), and no other
form of it is shorter (`length_encode_le`). So instructions that are written one after the other can
only be read in one way.
-/

namespace MethodBody

namespace ClassFile

/-- The opcodes with a slot behind them, and what they do with it. -/
def slotOpcodes : List (Opcode × (UInt16 → LocalInstruction)) :=
  [(0x15, .load .int), (0x16, .load .long), (0x17, .load .float), (0x18, .load .double),
    (0x19, .load .reference), (0x36, .store .int), (0x37, .store .long), (0x38, .store .float),
    (0x39, .store .double), (0x3a, .store .reference), (0xa9, .ret)]

/-- The first of the four opcodes for the first four slots, and what they do with them. -/
def shortOpcodes : List (Opcode × (UInt16 → LocalInstruction)) :=
  [(0x1a, .load .int), (0x1e, .load .long), (0x22, .load .float), (0x26, .load .double),
    (0x2a, .load .reference), (0x3b, .store .int), (0x3f, .store .long), (0x43, .store .float),
    (0x47, .store .double), (0x4b, .store .reference)]

/-- The instruction that an opcode and the slot behind it stand for. -/
def ofSlot? (opcode : Opcode) (slot : UInt16) : Option LocalInstruction :=
  (slotOpcodes.find? fun entry => entry.1 = opcode).map fun entry => entry.2 slot

/-- The instruction that an opcode of its own stands for. -/
def ofShort? (opcode : Opcode) : Option LocalInstruction :=
  (shortOpcodes.find? fun entry => entry.1 ≤ opcode ∧ opcode - entry.1 < 4).map fun entry =>
    entry.2 (opcode - entry.1).toUInt16

/-- An instruction on a local variable behind the prefix that widens it. -/
def widened : Reader LocalInstruction := do
  let opcode ← byte
  let slot ← word
  if opcode = 0x84 then
    let amount ← word
    pure (.increment slot amount.toInt16)
  else ofSlot? opcode slot

/-- An instruction on a local variable. -/
def localInstruction : Reader LocalInstruction := do
  let opcode ← byte
  if opcode = 0xc4 then widened
  else if opcode = 0x84 then
    let slot ← byte
    let amount ← byte
    pure (.increment slot.toUInt16 amount.toInt8.toInt16)
  else
    match ofShort? opcode with
    | some instruction => pure instruction
    | none =>
      let slot ← byte
      ofSlot? opcode slot.toUInt16

variable {bytes rest : List UInt8} {request : LocalInstruction} {opcode : Opcode} {slot : UInt16}

/-- A byte in front is read. -/
@[simp]
theorem run_byte_cons (first : UInt8) : byte.run (first :: rest) = some (first, rest) := rfl

/-- Nothing is read where there is no byte. -/
@[simp]
theorem run_byte_nil : byte.run [] = none := rfl

/-- A word is read back. -/
@[simp]
theorem run_word_encode (value : UInt16) (rest : List UInt8) :
    word.run (BigEndian.encode 2 value.toNat ++ rest) = some (value, rest) :=
  (Format.isReadBy_word _).symm.trans (Format.restores_word value rest)

/-- A word that is read takes two bytes. -/
theorem length_of_run_word {value : UInt16} (read : word.run bytes = some (value, rest)) :
    bytes.length = rest.length + 2 := by
  match bytes with
  | [] | [_] => simp [word, byte, StateT.run, bind, StateT.bind] at read
  | high :: low :: others =>
    obtain ⟨-, rfl⟩ := Prod.mk.inj (Option.some.inj read)
    rfl

/-! ### What is written is read back -/

/-- A constant that fits a byte is what the byte written for it says. -/
theorem exists_byte_of_fitsSigned {amount : Int16} (fits : BigEndian.FitsSigned 1 amount.toInt) :
    ∃ byte : UInt8, BigEndian.encodeSigned 1 amount.toInt = [byte] ∧
      byte.toInt8.toInt16 = amount := by
  obtain ⟨byte, written⟩ := List.length_eq_one_iff.mp (BigEndian.length_encodeSigned 1 amount.toInt)
  refine ⟨byte, written, Int16.toInt_inj.mp ?_⟩
  have signed : byte.toInt8.toInt = BigEndian.decodeSigned [byte] := by
    change byte.toBitVec.toInt = _
    rw [BitVec.toInt_eq_toNat_bmod]
    simp [BigEndian.decodeSigned, BigEndian.decode, BigEndian.modulus]
  rw [Int8.toInt_toInt16, signed, ← written, BigEndian.decodeSigned_encodeSigned fits]

/-- A constant is written as the word with the same bits. -/
theorem encodeSigned_eq_encode (amount : Int16) :
    BigEndian.encodeSigned 2 amount.toInt = BigEndian.encode 2 amount.toUInt16.toNat := by
  have wraps : amount.toInt % 65536 = amount.toUInt16.toNat := by
    change amount.toBitVec.toInt % 65536 = amount.toBitVec.toNat
    rw [BitVec.toInt_eq_toNat_bmod]
    exact Int.bmod_emod.trans (by have bound := amount.toBitVec.isLt; omega)
  simp [BigEndian.encodeSigned, wraps]

/-- A slot that fits a byte is what the byte says. -/
theorem toUInt16_toUInt8_of_lt (low : slot < 256) : slot.toUInt8.toUInt16 = slot := by
  simp [UInt16.mod_eq_of_lt low]

/-- An opcode of its own is read. -/
theorem run_localInstruction_short (named : ofShort? opcode = some request) :
    localInstruction.run (opcode :: rest) = some (request, rest) := by
  have other : ∀ opcode : Opcode, (ofShort? opcode).isSome = true →
      opcode ≠ 0xc4 ∧ opcode ≠ 0x84 := by
    decide +kernel
  obtain ⟨notWide, notIncrement⟩ := other opcode (by simp [named])
  simp [localInstruction, notWide, notIncrement, named]

/-- The shorter of the two forms with a slot behind the opcode is read. -/
theorem run_localInstruction_encodeSlot (named : ofSlot? opcode slot = some request) :
    localInstruction.run (LocalInstruction.encodeSlot opcode slot ++ rest)
      = some (request, rest) := by
  have other : ∀ opcode : Opcode, (slotOpcodes.find? fun entry => entry.1 = opcode).isSome = true →
      opcode ≠ 0xc4 ∧ opcode ≠ 0x84 ∧ ofShort? opcode = none := by
    decide +kernel
  have found : (ofSlot? opcode slot).isSome = true := by simp [named]
  rw [ofSlot?, Option.isSome_map] at found
  obtain ⟨notWide, notIncrement, long⟩ := other opcode found
  unfold LocalInstruction.encodeSlot
  split
  case isTrue low =>
    have same := toUInt16_toUInt8_of_lt low
    simp [localInstruction, LocalInstruction.narrowForm, notWide, notIncrement, long, same, named]
  case isFalse =>
    simp [localInstruction, LocalInstruction.wideForm, widened, Opcode.wide, notIncrement, named]

/-- The shorter of the two forms of an increment is read. -/
theorem run_localInstruction_increment (slot : UInt16) (amount : Int16) :
    localInstruction.run ((LocalInstruction.increment slot amount).encode ++ rest)
      = some (.increment slot amount, rest) := by
  simp only [LocalInstruction.encode]
  split
  case isTrue small =>
    obtain ⟨low, fits⟩ := small
    obtain ⟨byte, written, said⟩ := exists_byte_of_fitsSigned fits
    have same := toUInt16_toUInt8_of_lt low
    simp [localInstruction, LocalInstruction.narrowForm, LocalInstruction.opcode, Opcode.increment,
      written, said, same]
  case isFalse =>
    simp [localInstruction, LocalInstruction.wideForm, LocalInstruction.opcode, Opcode.wide,
      Opcode.increment, widened, encodeSigned_eq_encode]

/-- The opcodes for the first four slots name what they load and store. -/
theorem ofShort?_of_lt (kind : ValueKind) (low : slot < 4) :
    ofShort? (Opcode.loadShort + 4 * kind.position + slot.toUInt8) = some (.load kind slot) ∧
      ofShort? (Opcode.storeShort + 4 * kind.position + slot.toUInt8)
        = some (.store kind slot) := by
  have first : slot = 0 ∨ slot = 1 ∨ slot = 2 ∨ slot = 3 := by
    simp only [← UInt16.toNat_inj]
    have below : slot.toNat < 4 := UInt16.lt_iff_toNat_lt.mp low
    simp
    omega
  rcases first with rfl | rfl | rfl | rfl <;> cases kind <;> decide +kernel

/-- The opcode of an instruction other than an increment names it, with the slot behind it. -/
theorem ofSlot?_opcode (kind : ValueKind) (slot : UInt16) :
    ofSlot? (Opcode.load + kind.position) slot = some (.load kind slot) ∧
      ofSlot? (Opcode.store + kind.position) slot = some (.store kind slot) := by
  cases kind <;> exact ⟨rfl, rfl⟩

/-- The shortest form of an instruction is read back as the instruction. -/
theorem run_localInstruction_encode (request : LocalInstruction) (rest : List UInt8) :
    localInstruction.run (request.encode ++ rest) = some (request, rest) := by
  cases request with
  | load kind slot =>
    simp only [LocalInstruction.encode]
    split
    case isTrue low => exact run_localInstruction_short (ofShort?_of_lt kind low).1
    case isFalse => exact run_localInstruction_encodeSlot (ofSlot?_opcode kind slot).1
  | store kind slot =>
    simp only [LocalInstruction.encode]
    split
    case isTrue low => exact run_localInstruction_short (ofShort?_of_lt kind low).2
    case isFalse => exact run_localInstruction_encodeSlot (ofSlot?_opcode kind slot).2
  | increment slot amount => exact run_localInstruction_increment slot amount
  | ret slot => exact run_localInstruction_encodeSlot rfl

/-! ### No form is shorter -/

/-- With the slot behind the opcode it takes one byte or, behind the prefix, two. -/
theorem length_encodeSlot (opcode : Opcode) (slot : UInt16) :
    (LocalInstruction.encodeSlot opcode slot).length = if slot < 256 then 2 else 4 := by
  unfold LocalInstruction.encodeSlot
  split <;> simp [LocalInstruction.narrowForm, LocalInstruction.wideForm]

/-- A load or a store is not written longer than with the slot behind the opcode. -/
theorem length_encode_load_store (kind : ValueKind) (slot : UInt16) :
    (LocalInstruction.load kind slot).encode.length ≤ (if slot < 256 then 2 else 4) ∧
      (LocalInstruction.store kind slot).encode.length ≤ (if slot < 256 then 2 else 4) := by
  have short : 1 ≤ if slot < 256 then 2 else 4 := by split <;> omega
  simp only [LocalInstruction.encode]
  split
  case isTrue => exact ⟨short, short⟩
  case isFalse => exact ⟨Nat.le_of_eq (length_encodeSlot _ _), Nat.le_of_eq (length_encodeSlot _ _)⟩

/-- What an opcode with a slot behind it stands for is not written longer. -/
theorem length_encode_of_ofSlot? (named : ofSlot? opcode slot = some request) :
    request.encode.length ≤ if slot < 256 then 2 else 4 := by
  have all : ∀ entry ∈ slotOpcodes, (entry.2 slot).encode.length ≤ if slot < 256 then 2 else 4 := by
    have loads (kind : ValueKind) := (length_encode_load_store kind slot).1
    have stores (kind : ValueKind) := (length_encode_load_store kind slot).2
    have returns : (LocalInstruction.ret slot).encode.length ≤ if slot < 256 then 2 else 4 :=
      Nat.le_of_eq (length_encodeSlot _ _)
    simp only [slotOpcodes, List.forall_mem_cons]
    exact ⟨loads _, loads _, loads _, loads _, loads _, stores _, stores _,
      stores _, stores _, stores _, returns, by simp⟩
  obtain ⟨entry, found, rfl⟩ := Option.map_eq_some_iff.mp named
  exact all entry (List.mem_of_find?_eq_some found)

/-- What an opcode of its own stands for is written as an opcode of its own. -/
theorem length_encode_of_ofShort? (named : ofShort? opcode = some request) :
    request.encode.length = 1 := by
  have all : ∀ opcode : Opcode, ∀ request ∈ ofShort? opcode, request.encode.length = 1 := by
    decide +kernel
  exact all opcode request named

/-- A byte says a slot that fits a byte. -/
theorem toUInt16_lt (byte : UInt8) : byte.toUInt16 < 256 := by
  rw [UInt16.lt_iff_toNat_lt]
  simpa using byte.toNat_lt

/-- A constant of one byte is written with one byte behind a slot of one byte. -/
theorem length_encode_increment_of_bytes (slot amount : UInt8) :
    (LocalInstruction.increment slot.toUInt16 amount.toInt8.toInt16).encode.length = 3 := by
  have fits : BigEndian.FitsSigned 1 amount.toInt8.toInt16.toInt := by
    rw [Int8.toInt_toInt16]
    have lower := amount.toInt8.le_toInt
    have upper := amount.toInt8.toInt_lt
    constructor <;> simp only [BigEndian.modulus] <;> omega
  rw [LocalInstruction.encode, if_pos ⟨toUInt16_lt slot, fits⟩]
  simp [LocalInstruction.narrowForm]

/-- What is found in a table of opcodes takes no bytes. -/
theorem run_ofSlot?_eq_some
    (read : StateT.run (ofSlot? opcode slot : Reader LocalInstruction) bytes
      = some (request, rest)) :
    ofSlot? opcode slot = some request ∧ bytes = rest := by
  obtain ⟨found, named, same⟩ := Option.bind_eq_some_iff.mp read
  obtain ⟨rfl, rfl⟩ := Prod.mk.inj (Option.some.inj same)
  exact ⟨named, rfl⟩

/-- An increment is not written longer than behind the prefix. -/
theorem length_encode_increment_le (slot : UInt16) (amount : Int16) :
    (LocalInstruction.increment slot amount).encode.length ≤ 6 := by
  rw [LocalInstruction.encode]
  split <;> simp [LocalInstruction.narrowForm, LocalInstruction.wideForm]

/-- What stands behind the prefix is not written longer. -/
theorem length_encode_of_run_widened (read : widened.run bytes = some (request, rest)) :
    request.encode.length + rest.length ≤ bytes.length + 1 := by
  match bytes with
  | [] => simp [widened] at read
  | opcode :: bytes =>
    simp only [widened, StateT.run_bind, run_byte_cons, Option.bind_eq_bind,
      Option.bind_some] at read
    obtain ⟨⟨slot, behind⟩, slotRead, read⟩ := Option.bind_eq_some_iff.mp read
    have slotSize := length_of_run_word slotRead
    dsimp only at read
    split at read
    case isTrue =>
      rw [StateT.run_bind] at read
      obtain ⟨⟨amount, last⟩, amountRead, read⟩ := Option.bind_eq_some_iff.mp read
      obtain ⟨rfl, rfl⟩ := Prod.mk.inj (Option.some.inj read)
      have amountSize := length_of_run_word amountRead
      have written := length_encode_increment_le slot amount.toInt16
      simp only [List.length_cons] at amountSize ⊢
      omega
    case isFalse =>
      obtain ⟨named, rfl⟩ := run_ofSlot?_eq_some read
      have written := length_encode_of_ofSlot? named
      have bound : (if slot < 256 then 2 else 4) ≤ 4 := by split <;> omega
      simp only [List.length_cons]
      omega

/-- No form of an instruction is shorter than the one that is written. -/
theorem length_encode_le (read : localInstruction.run bytes = some (request, rest)) :
    request.encode.length + rest.length ≤ bytes.length := by
  match bytes with
  | [] => simp [localInstruction] at read
  | opcode :: bytes =>
    simp only [localInstruction, StateT.run_bind, run_byte_cons, Option.bind_eq_bind,
      Option.bind_some] at read
    split at read
    case isTrue => exact length_encode_of_run_widened read
    case isFalse =>
      split at read
      case isTrue =>
        match bytes with
        | [] | [_] => simp at read
        | slot :: amount :: bytes =>
          obtain ⟨rfl, rfl⟩ := Prod.mk.inj (Option.some.inj read)
          have written := length_encode_increment_of_bytes slot amount
          simp only [List.length_cons]
          omega
      case isFalse =>
        split at read
        case h_1 instruction named =>
          obtain ⟨rfl, rfl⟩ := Prod.mk.inj (Option.some.inj read)
          have written := length_encode_of_ofShort? named
          simp only [List.length_cons]
          omega
        case h_2 =>
          match bytes with
          | [] => simp at read
          | slot :: bytes =>
            obtain ⟨named, rfl⟩ := run_ofSlot?_eq_some read
            have written := length_encode_of_ofSlot? named
            rw [if_pos (toUInt16_lt slot)] at written
            simp only [List.length_cons]
            omega

/-! ### Instructions one after the other -/

/-- Every form of an instruction has bytes. -/
theorem length_lt_of_run_localInstruction
    (read : localInstruction.run bytes = some (request, rest)) :
    rest.length < bytes.length := by
  have shortest := length_encode_le read
  have written : request.encode ≠ [] := by
    intro empty
    have again := run_localInstruction_encode request []
    rw [empty] at again
    simp [localInstruction] at again
  have positive := List.length_pos_iff.mpr written
  omega

/-- The instructions that the bytes stand for, if they are nothing but instructions. -/
def localInstructions (bytes : List UInt8) : Option (List LocalInstruction) :=
  if bytes = [] then some []
  else
    match _ : localInstruction.run bytes with
    | none => none
    | some (first, rest) => (localInstructions rest).map (first :: ·)
termination_by bytes.length
decreasing_by exact length_lt_of_run_localInstruction ‹_›

/-- The bytes of an instruction and of others behind it stand for it and for the others. -/
theorem localInstructions_encode_append (request : LocalInstruction) (rest : List UInt8) :
    localInstructions (request.encode ++ rest) = (localInstructions rest).map (request :: ·) := by
  have read := run_localInstruction_encode request rest
  have some : request.encode ++ rest ≠ [] := by
    intro empty
    rw [empty] at read
    simp [localInstruction] at read
  rw [localInstructions, if_neg some]
  split
  case h_1 none => simp [read] at none
  case h_2 first others again =>
    obtain ⟨rfl, rfl⟩ := Prod.mk.inj (Option.some.inj (read.symm.trans again))
    rfl

/-- Instructions on local variables that are written one after the other are read back as these
instructions, and nothing is left. No instruction is written like the front of another, and the
machine knows no form of it that is shorter. -/
theorem localInstructions_flatMap_encode :
    (∀ requests : List LocalInstruction,
      localInstructions (requests.flatMap LocalInstruction.encode) = some requests) ∧
    (∀ first second : LocalInstruction, first.encode <+: second.encode → first = second) ∧
    ∀ (request : LocalInstruction) (form : List UInt8),
      localInstruction.run form = some (request, []) → request.encode.length ≤ form.length := by
  refine ⟨fun requests => ?_, fun first second front => ?_, fun request form read => ?_⟩
  · induction requests with
    | nil => simp [localInstructions]
    | cons request others ih =>
      rw [List.flatMap_cons, localInstructions_encode_append, ih]
      rfl
  · exact eq_of_isPrefix (run_localInstruction_encode first)
      (run_localInstruction_encode second) front
  · exact length_encode_le read

/-- Instructions of every form, and a load in a form that is too long for it. -/
theorem localInstructions_flatMap_encode_forms :
    localInstructions [0x1d, 0xc4, 0x15, 1, 0, 0x84, 1, 0xff, 0xc4, 0x84, 0, 1, 3, 0xe8, 0xa9, 2]
        = some [.load .int 3, .load .int 256, .increment 1 (-1), .increment 1 1000, .ret 2] ∧
      (LocalInstruction.load .int 0).encode.length ≤ [0xc4, 0x15, 0, 0].length := by
  obtain ⟨readBack, _, shortest⟩ := localInstructions_flatMap_encode
  exact ⟨readBack [.load .int 3, .load .int 256, .increment 1 (-1), .increment 1 1000, .ret 2],
    shortest (.load .int 0) [0xc4, 0x15, 0, 0] (by decide +kernel)⟩

end ClassFile

end MethodBody
