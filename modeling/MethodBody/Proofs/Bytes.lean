import MethodBody.Buffer

/-!
# Bytes in the middle of a buffer

The bytes of a buffer are known one by one: a byte that is overwritten is the one that comes to its
index, and every other byte stays what it was (`byte?_write`). Often they are known as a stretch
with something in front of it and something behind it. Reading at the length of the front then
returns the stretch, and overwriting it there with as many bytes exchanges the stretch and keeps the
rest.
-/

namespace MethodBody

namespace BigEndian

/-- Reading the two's complement of an integer as an unsigned word returns the integer modulo the
word size. -/
theorem decode_encodeSigned_eq_emod (width : Nat) (value : Int) :
    decode (encodeSigned width value) = (value % (modulus width : Int)).toNat := by
  have positive := modulus_pos width
  have lower := Int.emod_nonneg value (show (modulus width : Int) ≠ 0 by omega)
  have upper := Int.emod_lt_of_pos value (show (0 : Int) < modulus width by omega)
  rw [encodeSigned, decode_encode, Nat.mod_eq_of_lt (by omega)]

/-- Reading the two's complement of an integer as an unsigned word returns the integer, when it
fits. -/
theorem decode_encodeSigned {width : Nat} {value : Int} (fits : FitsUnsigned width value) :
    (decode (encodeSigned width value) : Int) = value := by
  obtain ⟨lower, upper⟩ := fits
  have same : value % (modulus width : Int) = value := Int.emod_eq_of_lt lower upper
  rw [decode_encodeSigned_eq_emod, same]
  omega

end BigEndian

namespace Buffer

variable {buffer : Buffer} {front old bytes back : List UInt8} {offset index : Nat}

/-- The number of bytes, when they are known. -/
theorem size_of_toList (known : buffer.toList = bytes) : buffer.size = bytes.length := by
  rw [← length_toList, known]

/-- Bytes appended after others are appended with them. -/
theorem append_append (buffer : Buffer) (first second : List UInt8) :
    (buffer.append first).append second = buffer.append (first ++ second) := by
  have same : (buffer.bytes ++ first ++ second).toList
      = (buffer.bytes ++ (first ++ second)).toList := by
    simp
  exact congrArg mk (Array.toList_inj.mp same)

/-- Appending no bytes changes nothing. -/
@[simp]
theorem append_nil (buffer : Buffer) : buffer.append [] = buffer :=
  congrArg mk (Array.toList_inj.mp (by simp))

/-- The byte at an offset is the byte listed there. -/
theorem byte?_eq_toList (buffer : Buffer) (offset : Nat) :
    buffer.byte? offset = buffer.toList[offset]? := by
  simp [byte?, toList]

/-- Bytes that were there stay where they are, and bytes that were appended stand behind them. -/
theorem byte?_append_eq (code : Buffer) (bytes : List UInt8) (index : Nat) :
    (code.append bytes).byte? index
      = if index < code.size then code.byte? index else bytes[index - code.size]? := by
  simp only [byte?_eq_toList, toList_append, List.getElem?_append, length_toList]

/-- Bytes that were appended are found behind the others. -/
theorem byte?_append (code : Buffer) (bytes : List UInt8) (index : Nat) :
    (code.append bytes).byte? (code.size + index) = bytes[index]? := by
  rw [byte?_append_eq, if_neg (by omega), Nat.add_sub_cancel_left]

/-- The byte that comes to an index when the bytes from an offset on are overwritten. -/
def stamp? (offset : Nat) (bytes : List UInt8) (index : Nat) : Option UInt8 :=
  if offset ≤ index then bytes[index - offset]? else none

/-- A byte comes to each index of the stretch that is overwritten. -/
theorem isSome_stamp? :
    (stamp? offset bytes index).isSome = true ↔ offset ≤ index ∧ index < offset + bytes.length := by
  unfold stamp?
  by_cases reached : offset ≤ index
  · rw [if_pos reached, isSome_getElem?]
    omega
  · simp [reached]

/-- Overwriting exchanges the bytes that are there. -/
theorem byte?_write (buffer : Buffer) (offset : Nat) (bytes : List UInt8) (index : Nat) :
    (buffer.write offset bytes).byte? index
      = (buffer.byte? index).map fun old => (stamp? offset bytes index).getD old := by
  induction bytes generalizing buffer offset with
  | nil => simp [write, stamp?]
  | cons byte rest ih =>
    rw [write, ih, byte?, byte?, Array.getElem?_setIfInBounds]
    rcases Nat.lt_trichotomy offset index with before | rfl | behind
    · obtain ⟨distance, rfl⟩ : ∃ distance, index = offset + 1 + distance :=
        ⟨index - (offset + 1), by omega⟩
      have further : offset + 1 + distance - offset = distance + 1 := by omega
      simp [stamp?, further, show offset ≠ offset + 1 + distance by omega,
        show offset ≤ offset + 1 + distance by omega]
    · by_cases inside : offset < buffer.bytes.size
      · simp [stamp?, inside, show ¬ offset + 1 ≤ offset by omega]
      · simp [inside]
    · simp [stamp?, show offset ≠ index by omega, show ¬ offset + 1 ≤ index by omega,
        show ¬ offset ≤ index by omega]

/-- Two buffers with the same bytes are the same. -/
theorem ext_byte? {first second : Buffer}
    (same : ∀ index, first.byte? index = second.byte? index) : first = second :=
  congrArg mk (Array.ext_getElem? same)

/-- It does not matter whether bytes are overwritten before others are appended or afterwards. -/
theorem write_append (inside : offset + bytes.length ≤ buffer.size) (more : List UInt8) :
    (buffer.append more).write offset bytes = (buffer.write offset bytes).append more := by
  apply ext_byte?
  intro index
  rw [byte?_write, byte?_append_eq, byte?_append_eq, byte?_write, size_write]
  by_cases before : index < buffer.size
  · rw [if_pos before, if_pos before]
  · have untouched : stamp? offset bytes index = none := by
      rw [← Option.not_isSome_iff_eq_none, isSome_stamp?]
      omega
    rw [if_neg before, if_neg before, untouched]
    simp

/-- The first byte behind the front. -/
theorem byte?_of_split {byte : UInt8} (split : buffer.toList = front ++ byte :: back) :
    buffer.byte? front.length = some byte := by
  rw [byte?_eq_toList, split]
  simp

/-- The stretch behind the front. -/
theorem slice?_of_split (split : buffer.toList = front ++ bytes ++ back) :
    buffer.slice? front.length bytes.length = some bytes := by
  have size := size_of_toList split
  simp only [List.length_append] at size
  have extracted : (buffer.bytes.extract front.length (front.length + bytes.length)).toList
      = (buffer.toList.drop front.length).take bytes.length := by
    simp [toList]
  rw [slice?, if_pos (by omega), extracted, split]
  simp

/-- Overwriting the stretch behind the front with as many bytes. -/
theorem toList_write (split : buffer.toList = front ++ old ++ back)
    (same : bytes.length = old.length) :
    (buffer.write front.length bytes).toList = front ++ bytes ++ back := by
  induction bytes generalizing buffer front old with
  | nil =>
    obtain rfl : old = [] := List.length_eq_zero_iff.mp same.symm
    exact split
  | cons byte rest ih =>
    obtain ⟨first, others, rfl⟩ := List.exists_cons_of_length_eq_add_one same.symm
    have set :
        ({ buffer with bytes := buffer.bytes.setIfInBounds front.length byte } : Buffer).toList
        = (front ++ [byte]) ++ others ++ back := by
      have listed : (buffer.bytes.setIfInBounds front.length byte).toList
          = buffer.toList.set front.length byte := by
        simp [toList]
      change (buffer.bytes.setIfInBounds front.length byte).toList = _
      rw [listed, split]
      simp
    have shorter : rest.length = others.length := by simpa using same
    have written := ih set shorter
    rw [List.length_append, List.length_singleton] at written
    rw [write, written]
    simp

/-- Bytes that are overwritten at once might have been others from the beginning. -/
theorem write_append_of_length_eq (buffer : Buffer) (same : bytes.length = old.length) :
    (buffer.append old).write buffer.size bytes = buffer.append bytes := by
  have split : (buffer.append old).toList = buffer.toList ++ old ++ [] := by simp
  have written := toList_write split same
  rw [length_toList, List.append_nil, ← toList_append] at written
  exact congrArg mk (Array.toList_inj.mp written)

/-- An unsigned word is read from its bytes. -/
theorem readUnsigned_of_slice? {width : Nat} (stretch : buffer.slice? offset width = some bytes) :
    buffer.readUnsigned offset width = .ok (BigEndian.decode bytes) := by
  rw [readUnsigned, slice, stretch]
  rfl

/-- A signed word is read from its bytes. -/
theorem readSigned_of_slice? {width : Nat} (stretch : buffer.slice? offset width = some bytes) :
    buffer.readSigned offset width = .ok (BigEndian.decodeSigned bytes) := by
  rw [readSigned, slice, stretch]
  rfl

/-- Reading a signed word that was written behind the front. -/
theorem readSigned_of_split {width : Nat} {value : Int}
    (split : buffer.toList = front ++ BigEndian.encodeSigned width value ++ back)
    (fits : BigEndian.FitsSigned width value) :
    buffer.readSigned front.length width = .ok value := by
  have stretch := slice?_of_split split
  rw [BigEndian.length_encodeSigned] at stretch
  rw [readSigned_of_slice? stretch, BigEndian.decodeSigned_encodeSigned fits]

/-- Reading an unsigned word that was written behind the front. -/
theorem readUnsigned_of_split {width : Nat} {value : Int}
    (split : buffer.toList = front ++ BigEndian.encodeSigned width value ++ back)
    (fits : BigEndian.FitsUnsigned width value) :
    buffer.readUnsigned front.length width = .ok value.toNat := by
  have stretch := slice?_of_split split
  rw [BigEndian.length_encodeSigned] at stretch
  have decoded := BigEndian.decode_encodeSigned fits
  rw [readUnsigned_of_slice? stretch]
  exact congrArg Except.ok (by omega)

end Buffer

end MethodBody
