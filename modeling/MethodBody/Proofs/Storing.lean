import MethodBody.Proofs.Bytes
import MethodBody.Proofs.Outcome
import Mathlib.Algebra.Ring.Int.Defs
import Mathlib.Algebra.Ring.Nat

/-!
# Reading what was stored

Words, bytes and zeros are appended to a buffer, and words in it are overwritten, in any order. What
stands at an index is the byte that was last written to it, whichever request that was, and only
what is appended makes the buffer larger. So a value is read back as long as no later request writes
over one of its bytes (`performAll_stores`). Which bytes a word has is said by the digits of the
number, without the encoder (`BigEndian.digits`).
-/

namespace MethodBody

namespace BigEndian

/-- The byte at a place of a word that holds the two's complement of an integer, where the first
place is the most significant one. -/
def digit (width : Nat) (value : Int) (place : Nat) : UInt8 :=
  UInt8.ofNat (value / 256 ^ (width - 1 - place) % 256).toNat

/-- The bytes of a word from the first place to the last. -/
def digits (width : Nat) (value : Int) : List UInt8 :=
  (List.range width).map (digit width value)

/-- A word has as many bytes as places. -/
@[simp]
theorem length_digits (width : Nat) (value : Int) : (digits width value).length = width := by
  simp [digits]

/-- A byte is its own only digit. -/
theorem digit_of_byte (byte : UInt8) : digit 1 byte.toNat 0 = byte := by
  have below := byte.toNat_lt
  have same : ((byte.toNat : Int) / 256 ^ 0 % 256).toNat = byte.toNat := by omega
  rw [digit, same, UInt8.ofNat_toNat]

/-- The digits in front of the last one are those of the quotient. -/
theorem digits_succ (width : Nat) (value : Int) :
    digits (width + 1) value = digits width (value / 256) ++ [digit 1 value 0] := by
  rw [digits, List.range_succ, List.map_append, List.map_singleton]
  congr 1
  · apply List.map_congr_left
    intro place member
    have before : place < width := List.mem_range.mp member
    have power : (256 : Int) ^ (width + 1 - 1 - place) = 256 * 256 ^ (width - 1 - place) := by
      rw [show width + 1 - 1 - place = width - 1 - place + 1 by omega, Int.pow_succ, Int.mul_comm]
    rw [digit, digit, power, Int.ediv_ediv_of_nonneg (by decide)]
  · simp [digit]

/-- The bytes in front of the last one are those of the quotient. -/
theorem encodeSigned_succ (width : Nat) (value : Int) :
    encodeSigned (width + 1) value = encodeSigned width (value / 256) ++ [digit 1 value 0] := by
  -- Both residues are differences from one product, so that no product is left for `omega`.
  have residue : value % (256 * modulus width : Int)
      = value - 256 * (modulus width * (value / 256 / modulus width)) := by
    rw [Int.emod_def, Int.mul_assoc, Int.ediv_ediv_of_nonneg (by decide)]
  have quotient := Int.emod_def (value / 256) (modulus width)
  generalize (modulus width : Int) * (value / 256 / modulus width) = whole at residue quotient
  have positive := modulus_pos width
  have nonnegative := Int.emod_nonneg value (show (256 * modulus width : Int) ≠ 0 by omega)
  have front : (value % (256 * modulus width : Int)).toNat / 256
      = (value / 256 % modulus width).toNat := by omega
  have last : (value % (256 * modulus width : Int)).toNat % 256 = (value % 256).toNat := by omega
  have word : ((modulus (width + 1) : Nat) : Int) = 256 * modulus width := Int.natCast_mul 256 _
  have lastByte : UInt8.ofNat (value % (256 * modulus width : Int)).toNat = digit 1 value 0 := by
    rw [← UInt8.ofNat_mod_size', last]
    simp [digit]
  rw [encodeSigned, word, encode, front, lastByte, encodeSigned]

/-- A word is written digit by digit, the most significant one first. -/
theorem encodeSigned_eq_digits (width : Nat) (value : Int) :
    encodeSigned width value = digits width value := by
  induction width generalizing value with
  | zero => rfl
  | succ width ih => rw [encodeSigned_succ, digits_succ, ih]

/-- Reading the two's complement of an integer as a signed word returns the balanced residue of the
integer. -/
theorem decodeSigned_encodeSigned_eq_bmod (width : Nat) (value : Int) :
    decodeSigned (encodeSigned width value) = Int.bmod value (modulus width) := by
  have positive := modulus_pos width
  have lower := Int.emod_nonneg value (show (modulus width : Int) ≠ 0 by omega)
  rw [decodeSigned, length_encodeSigned, decode_encodeSigned_eq_emod, Int.toNat_of_nonneg lower,
    Int.emod_bmod]

end BigEndian

namespace Buffer

variable {buffer : Buffer} {bytes : List UInt8} {offset : Nat}

/-- Appended bytes come to the indices from the size on. -/
theorem byte?_append_eq_or (buffer : Buffer) (bytes : List UInt8) (index : Nat) :
    (buffer.append bytes).byte? index
      = (stamp? buffer.size bytes index).or (buffer.byte? index) := by
  rw [byte?_append_eq, stamp?]
  by_cases before : index < buffer.size
  · rw [if_pos before, if_neg (by omega), Option.none_or]
  · have beyond : buffer.byte? index = none := Array.getElem?_eq_none (Nat.le_of_not_lt before)
    rw [if_neg before, if_pos (by omega), beyond, Option.or_none]

/-- Bytes written over others come to the indices from the offset on. -/
theorem byte?_write_eq_or (inside : offset + bytes.length ≤ buffer.size) (index : Nat) :
    (buffer.write offset bytes).byte? index
      = (stamp? offset bytes index).or (buffer.byte? index) := by
  rw [byte?_write]
  cases stamped : stamp? offset bytes index with
  | none => simp
  | some byte =>
    have reached := isSome_stamp?.mp (Option.isSome_of_eq_some stamped)
    have before : index < buffer.bytes.size := by
      rw [size] at inside
      omega
    have old : buffer.byte? index = some buffer.bytes[index] := Array.getElem?_eq_getElem before
    simp [old]

/-- Bytes that are known one by one are known as a stretch. -/
theorem slice?_of_byte? (inside : offset + bytes.length ≤ buffer.size)
    (each : ∀ place < bytes.length, buffer.byte? (offset + place) = bytes[place]?) :
    buffer.slice? offset bytes.length = some bytes := by
  rw [slice?, if_pos inside]
  apply congrArg some
  rw [size] at inside
  have length : (buffer.bytes.extract offset (offset + bytes.length)).toList.length
      = bytes.length := by
    rw [Array.length_toList, Array.size_extract]
    omega
  apply List.ext_getElem?
  intro place
  by_cases before : place < bytes.length
  · rw [← each place before, byte?]
    simp [before]
  · rw [List.getElem?_eq_none (by omega), List.getElem?_eq_none (by omega)]

/-- Reading the width at the offset returns the value, as much of it as a word can say, and all of
it if it fits. -/
structure Holds (buffer : Buffer) (offset width : Nat) (value : Int) : Prop where
  /-- The unsigned word is the residue of the value. -/
  residue : buffer.readUnsigned offset width = .ok (value % (BigEndian.modulus width : Int)).toNat
  /-- The signed word is the balanced residue of the value. -/
  balanced : buffer.readSigned offset width = .ok (Int.bmod value (BigEndian.modulus width))
  /-- An unsigned value that fits is read back. -/
  unsigned : BigEndian.FitsUnsigned width value →
    buffer.readUnsigned offset width = .ok value.toNat
  /-- A signed value that fits is read back. -/
  signed : BigEndian.FitsSigned width value → buffer.readSigned offset width = .ok value

/-- A value is read where its digits are. -/
theorem holds_of_digits {width : Nat} {value : Int} (inside : offset + width ≤ buffer.size)
    (each : ∀ place < width,
      buffer.byte? (offset + place) = some (BigEndian.digit width value place)) :
    buffer.Holds offset width value := by
  have length := BigEndian.length_encodeSigned width value
  have stretch : buffer.slice? offset (BigEndian.encodeSigned width value).length
      = some (BigEndian.encodeSigned width value) := by
    refine slice?_of_byte? (by rwa [length]) fun place before => ?_
    rw [length] at before
    rw [each place before, BigEndian.encodeSigned_eq_digits, BigEndian.digits]
    simp [before]
  rw [length] at stretch
  have unsigned := readUnsigned_of_slice? stretch
  have signed := readSigned_of_slice? stretch
  refine ⟨?_, ?_, fun fits => ?_, fun fits => ?_⟩
  · rw [unsigned, BigEndian.decode_encodeSigned_eq_emod]
  · rw [signed, BigEndian.decodeSigned_encodeSigned_eq_bmod]
  · have same := BigEndian.decode_encodeSigned fits
    rw [unsigned]
    exact congrArg Except.ok (by omega)
  · rw [signed, BigEndian.decodeSigned_encodeSigned fits]

/-- Padding leads to the next multiple of the alignment, and not beyond it. -/
theorem padding_least {alignment : Nat} (positive : alignment ≠ 0) (offset : Nat) :
    alignment ∣ offset + padding alignment offset ∧ padding alignment offset < alignment := by
  have below : offset % alignment < alignment := Nat.mod_lt _ (by omega)
  refine ⟨?_, Nat.mod_lt _ (by omega)⟩
  rw [padding]
  rcases Nat.eq_zero_or_pos (offset % alignment) with multiple | between
  · rw [multiple, Nat.sub_zero, Nat.mod_self]
    exact Nat.dvd_of_mod_eq_zero multiple
  · have whole := Nat.div_add_mod offset alignment
    rw [Nat.mod_eq_of_lt (by omega)]
    exact ⟨offset / alignment + 1, by rw [Nat.mul_add]; omega⟩

end Buffer

/-- A request to write to a buffer. -/
inductive Writing where
  /-- Append a word. -/
  | word (width : Nat) (value : Int)
  /-- Append bytes. -/
  | bytes (given : List UInt8)
  /-- Append zeros up to a multiple of the alignment. -/
  | padding (alignment : Nat)
  /-- Overwrite a word. -/
  | patch (offset width : Nat) (value : Int)
deriving DecidableEq, Repr

/-- A request, and the size of the buffer when its turn comes. -/
structure Turn where
  /-- The size of the buffer. -/
  size : Nat
  /-- The request. -/
  writing : Writing
deriving DecidableEq, Repr

namespace Turn

variable {turn : Turn} {offset width place : Nat} {value : Int}

/-- The bytes that are written. -/
def text : Turn → List UInt8
  | ⟨_, .word width value⟩ => BigEndian.digits width value
  | ⟨_, .bytes given⟩ => given
  | ⟨size, .padding alignment⟩ => List.replicate (Buffer.padding alignment size) 0
  | ⟨_, .patch _ width value⟩ => BigEndian.digits width value

/-- The index that the first byte is written to. -/
def site : Turn → Nat
  | ⟨_, .patch offset _ _⟩ => offset
  | ⟨size, _⟩ => size

/-- The number of bytes that are appended. -/
def growth : Turn → Nat
  | ⟨_, .patch ..⟩ => 0
  | turn => turn.text.length

/-- The byte that is written to an index. -/
def byte? (turn : Turn) (index : Nat) : Option UInt8 :=
  Buffer.stamp? turn.site turn.text index

/-- The alignment is not zero, and the word to overwrite lies in the buffer. -/
def Admitted : Turn → Prop
  | ⟨_, .padding alignment⟩ => alignment ≠ 0
  | ⟨size, .patch offset width _⟩ => offset + width ≤ size
  | _ => True

instance : DecidablePred Admitted
  | ⟨_, .padding _⟩ => inferInstanceAs (Decidable (_ ≠ _))
  | ⟨_, .patch ..⟩ => inferInstanceAs (Decidable (_ ≤ _))
  | ⟨_, .word ..⟩ => inferInstanceAs (Decidable True)
  | ⟨_, .bytes _⟩ => inferInstanceAs (Decidable True)

/-- The value is written to the offset in the given width. Each of the bytes that are appended as
they are, and each zero, is a value of its own. -/
inductive Puts : Turn → (offset width : Nat) → (value : Int) → Prop where
  /-- A word that is appended. -/
  | word {size width : Nat} {value : Int} : Puts ⟨size, .word width value⟩ size width value
  /-- A byte that is appended. -/
  | byte {size place : Nat} {given : List UInt8} {byte : UInt8}
    (found : given[place]? = some byte) :
    Puts ⟨size, .bytes given⟩ (size + place) 1 byte.toNat
  /-- A zero that is appended. -/
  | zero {size alignment place : Nat} (before : place < Buffer.padding alignment size) :
    Puts ⟨size, .padding alignment⟩ (size + place) 1 0
  /-- A word that is overwritten. -/
  | patch {size offset width : Nat} {value : Int} :
    Puts ⟨size, .patch offset width value⟩ offset width value

/-- A value lies in the buffer once it is written. -/
theorem Puts.inside (puts : turn.Puts offset width value) (admitted : turn.Admitted) :
    offset + width ≤ turn.size + turn.growth := by
  cases puts with
  | word => simp [growth, text]
  | byte found =>
    obtain ⟨before, -⟩ := List.getElem?_eq_some_iff.mp found
    simp only [growth, text]
    omega
  | zero before =>
    simp only [growth, text, List.length_replicate]
    omega
  | patch => exact admitted

/-- A value is written digit by digit. -/
theorem Puts.byte?_eq_digit (puts : turn.Puts offset width value) (before : place < width) :
    turn.byte? (offset + place) = some (BigEndian.digit width value place) := by
  rw [Turn.byte?, Buffer.stamp?]
  cases puts with
  | word => simp [site, text, BigEndian.digits, before]
  | byte found =>
    obtain rfl : place = 0 := by omega
    simp [site, text, found, BigEndian.digit_of_byte]
  | zero inside =>
    obtain rfl : place = 0 := by omega
    simp [site, text, inside, BigEndian.digit]
  | patch => simp [site, text, BigEndian.digits, before]

/-- The byte that is written to an index by the last of the requests that write one there. -/
def lastByte? (turns : List Turn) (index : Nat) : Option UInt8 :=
  turns.reverse.findSome? (byte? · index)

/-- Later requests write over earlier ones. -/
theorem lastByte?_append (earlier later : List Turn) (index : Nat) :
    lastByte? (earlier ++ later) index = (lastByte? later index).or (lastByte? earlier index) := by
  rw [lastByte?, List.reverse_append, List.findSome?_append]
  rfl

/-- Later requests write over the first one. -/
theorem lastByte?_cons (turn : Turn) (rest : List Turn) (index : Nat) :
    lastByte? (turn :: rest) index = (lastByte? rest index).or (turn.byte? index) := by
  simp [lastByte?, List.findSome?_append]

/-- A buffer before and after requests that were carried out on it one after the other. -/
structure Stored (before : Buffer) (turns : List Turn) (after : Buffer) : Prop where
  /-- The buffer has grown by what was appended. -/
  size : after.size = before.size + (turns.map growth).sum
  /-- The byte that was last written to an index stands there, or else the one that was there. -/
  bytes : ∀ index, after.byte? index = (lastByte? turns index).or (before.byte? index)
  /-- A value is read back as long as no later request writes over one of its bytes. -/
  values : ∀ earlier turn later, turns = earlier ++ turn :: later → ∀ offset width value,
    turn.Puts offset width value → (∀ place < width, lastByte? later (offset + place) = none) →
    after.Holds offset width value
  /-- Zeros are appended up to the next multiple of the alignment. -/
  aligned : ∀ turn ∈ turns, ∀ alignment, turn.writing = .padding alignment →
    alignment ∣ turn.size + turn.growth ∧ turn.growth < alignment

end Turn

namespace Writing

open Turn (lastByte?)

variable {buffer : Buffer} {writing : Writing} {writings : List Writing} {size : Nat}

/-- Do what is requested. -/
def perform (buffer : Buffer) : Writing → Except Error Buffer
  | word width value => .ok (buffer.appendWord width value)
  | bytes given => .ok (buffer.append given)
  | padding alignment => buffer.pad alignment
  | patch offset width value => buffer.patch offset (BigEndian.encodeSigned width value)

/-- Do what is requested one after the other. -/
def performAll (buffer : Buffer) (writings : List Writing) : Except Error Buffer :=
  writings.foldlM perform buffer

/-- The requests with the sizes that the buffer has when their turns come. -/
def turns : (size : Nat) → List Writing → List Turn
  | _, [] => []
  | size, writing :: rest => ⟨size, writing⟩ :: turns (size + Turn.growth ⟨size, writing⟩) rest

/-- When a turn comes, the buffer has grown by what the earlier ones appended. -/
theorem size_of_turns {earlier later : List Turn} {turn : Turn}
    (split : turns size writings = earlier ++ turn :: later) :
    turn.size = size + (earlier.map Turn.growth).sum := by
  induction writings generalizing size earlier with
  | nil => simp [turns] at split
  | cons writing rest ih =>
    rw [turns] at split
    cases earlier with
    | nil =>
      obtain ⟨rfl, -⟩ := List.cons.inj split
      rfl
    | cons first others =>
      obtain ⟨rfl, further⟩ := List.cons.inj split
      rw [ih further, List.map_cons, List.sum_cons, Nat.add_assoc]

/-- A request that is admitted is carried out: the buffer grows by what is appended, and the bytes
that are written come to their indices. -/
theorem perform_of_admitted (admitted : Turn.Admitted ⟨buffer.size, writing⟩) :
    ∃ after, perform buffer writing = .ok after ∧
      after.size = buffer.size + Turn.growth ⟨buffer.size, writing⟩ ∧
      ∀ index, after.byte? index
        = (Turn.byte? ⟨buffer.size, writing⟩ index).or (buffer.byte? index) := by
  cases writing with
  | word width value =>
    refine ⟨_, rfl, ?_, fun index => ?_⟩
    · simp [Turn.growth, Turn.text]
    · rw [Buffer.appendWord, Buffer.byte?_append_eq_or, BigEndian.encodeSigned_eq_digits]
      rfl
  | bytes given => exact ⟨_, rfl, Buffer.size_append _ _, Buffer.byte?_append_eq_or _ _⟩
  | padding alignment =>
    refine ⟨buffer.align alignment, if_neg admitted, ?_, Buffer.byte?_append_eq_or _ _⟩
    exact Buffer.size_append _ _
  | patch offset width value =>
    have inside : offset + (BigEndian.encodeSigned width value).length ≤ buffer.size := by
      rw [BigEndian.length_encodeSigned]
      exact admitted
    refine ⟨_, if_pos inside, Buffer.size_write _ _ _, fun index => ?_⟩
    rw [Buffer.byte?_write_eq_or inside, BigEndian.encodeSigned_eq_digits]
    rfl

/-- Requests that are admitted are carried out: the buffer grows by all that is appended, and the
bytes that are last written come to their indices. -/
theorem performAll_of_admitted (admitted : ∀ turn ∈ turns buffer.size writings, turn.Admitted) :
    ∃ after, performAll buffer writings = .ok after ∧
      after.size = buffer.size + ((turns buffer.size writings).map Turn.growth).sum ∧
      ∀ index, after.byte? index
        = (lastByte? (turns buffer.size writings) index).or (buffer.byte? index) := by
  induction writings generalizing buffer with
  | nil => exact ⟨buffer, rfl, rfl, fun _ => rfl⟩
  | cons writing rest ih =>
    rw [turns, List.forall_mem_cons] at admitted
    obtain ⟨middle, done, grown, written⟩ := perform_of_admitted admitted.1
    -- The turns of the other requests start from the size that the first one leaves.
    rw [← grown] at admitted
    rw [turns, ← grown]
    obtain ⟨after, others, grownToo, writtenToo⟩ := ih admitted.2
    refine ⟨after, bind_eq_ok.mpr ⟨middle, done, others⟩, ?_, fun index => ?_⟩
    · rw [grownToo, List.map_cons, List.sum_cons]
      omega
    · rw [writtenToo, written, Turn.lastByte?_cons, Option.or_assoc]

/-- Requests to append words, bytes and padding and to overwrite words that are there, in any order,
are all carried out. The buffer grows by exactly what is appended, the byte that was last written to
an index stands there, and a value is read back as long as no later request writes over one of its
bytes. -/
theorem performAll_stores (admitted : ∀ turn ∈ turns buffer.size writings, turn.Admitted) :
    ∃ after, performAll buffer writings = .ok after ∧
      Turn.Stored buffer (turns buffer.size writings) after := by
  obtain ⟨after, done, grown, written⟩ := performAll_of_admitted admitted
  refine ⟨after, done, grown, written, ?_, ?_⟩
  · intro earlier turn later split offset width value puts spared
    have member : turn ∈ turns buffer.size writings := by simp [split]
    have reached := puts.inside (admitted turn member)
    have start := size_of_turns split
    have inside : offset + width ≤ after.size := by
      rw [grown, split, List.map_append, List.sum_append, List.map_cons, List.sum_cons]
      omega
    refine Buffer.holds_of_digits inside fun place before => ?_
    rw [written, split, Turn.lastByte?_append, Turn.lastByte?_cons, spared place before,
      puts.byte?_eq_digit before]
    rfl
  · rintro ⟨size, writing⟩ member alignment rfl
    have zeros : Turn.growth ⟨size, .padding alignment⟩ = Buffer.padding alignment size :=
      List.length_replicate
    rw [zeros]
    exact Buffer.padding_least (admitted _ member) size

/-- Words that are written next to each other and over each other. -/
def overlapping : List Writing :=
  [.word 1 (-89), .word 2 (-1), .padding 4, .word 4 (-2), .patch 1 2 300, .patch 5 2 0xfedc,
    .bytes [1, 2]]

/-- The patches write over the short word and over the middle of the long one. All other values are
read back. The first byte was written with a sign and is read without one, and the second patch is
read in both ways. -/
theorem performAll_stores_overlapping :
    ∃ after, performAll .empty overlapping = .ok after ∧
      after.toList = [0xa7, 1, 44, 0, 0xff, 0xfe, 0xdc, 0xfe, 1, 2] ∧
      after.readUnsigned 0 1 = .ok 0xa7 ∧ after.readSigned 1 2 = .ok 300 ∧
      after.readUnsigned 3 1 = .ok 0 ∧ after.readUnsigned 5 2 = .ok 0xfedc ∧
      after.readSigned 5 2 = .ok (-292) := by
  obtain ⟨after, done, stored⟩ := @performAll_stores .empty overlapping (by decide)
  have listed : (performAll .empty overlapping).toOption.map Buffer.toList
      = some [0xa7, 1, 44, 0, 0xff, 0xfe, 0xdc, 0xfe, 1, 2] := by decide
  rw [done] at listed
  have opcode := stored.values [] ⟨0, .word 1 (-89)⟩ ((turns 0 overlapping).drop 1) rfl 0 1 _
    .word (by decide)
  have zero := stored.values ((turns 0 overlapping).take 2) ⟨3, .padding 4⟩
    ((turns 0 overlapping).drop 3) rfl 3 1 _ (@Turn.Puts.zero 3 4 0 (by decide)) (by decide)
  have short := stored.values ((turns 0 overlapping).take 4) ⟨8, .patch 1 2 300⟩
    ((turns 0 overlapping).drop 5) rfl 1 2 _ .patch (by decide)
  have middle := stored.values ((turns 0 overlapping).take 5) ⟨8, .patch 5 2 0xfedc⟩
    ((turns 0 overlapping).drop 6) rfl 5 2 _ .patch (by decide)
  exact ⟨after, done, Option.some.inj listed, opcode.residue, short.signed (by decide),
    zero.unsigned (by decide), middle.unsigned (by decide), middle.balanced⟩

end Writing

end MethodBody
