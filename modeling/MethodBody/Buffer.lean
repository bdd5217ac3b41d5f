import MethodBody.BigEndian
import MethodBody.Error

/-!
# Byte buffers

The bytes written so far. Bytes are appended at the cursor, and bytes that are already there can be
overwritten in place. An overwrite keeps the size (`size_write`) and touches nothing outside its
own bytes (`byte?_write_of_outside`).
-/

namespace MethodBody

/-- A growing sequence of bytes. -/
structure Buffer where
  /-- The bytes in order. -/
  bytes : Array UInt8 := #[]
deriving DecidableEq, Repr, Inhabited

namespace Buffer

/-- A buffer without bytes. -/
def empty : Buffer := {}

/-- The bytes as a list. -/
def toList (buffer : Buffer) : List UInt8 := buffer.bytes.toList

/-- The number of bytes. -/
def size (buffer : Buffer) : Nat := buffer.bytes.size

/-- The offset of the next byte to be appended. -/
def cursor (buffer : Buffer) : Nat := buffer.size

/-- Append bytes at the cursor. -/
def append (buffer : Buffer) (bytes : List UInt8) : Buffer :=
  { buffer with bytes := buffer.bytes ++ bytes }

/-- Append a word of the given width, in two's complement. -/
def appendWord (buffer : Buffer) (width : Nat) (value : Int) : Buffer :=
  buffer.append (BigEndian.encodeSigned width value)

/-- The number of bytes from an offset up to the next multiple of the alignment. -/
def padding (alignment offset : Nat) : Nat :=
  (alignment - offset % alignment) % alignment

/-- Append zeros up to the next multiple of the alignment. -/
def align (buffer : Buffer) (alignment : Nat) : Buffer :=
  buffer.append (List.replicate (padding alignment buffer.cursor) 0)

/-- Append zeros up to the next multiple of the alignment, which must not be zero. -/
def pad (buffer : Buffer) (alignment : Nat) : Except Error Buffer :=
  if alignment = 0 then .error .zeroAlignment else .ok (buffer.align alignment)

/-- The `width` bytes from an offset on, if they all lie in the buffer. -/
def slice? (buffer : Buffer) (offset width : Nat) : Option (List UInt8) :=
  if offset + width ≤ buffer.size then
    some (buffer.bytes.extract offset (offset + width)).toList
  else none

/-- The byte at an offset. -/
def byte? (buffer : Buffer) (offset : Nat) : Option UInt8 :=
  buffer.bytes[offset]?

/-- The `width` bytes from an offset on. -/
def slice (buffer : Buffer) (offset width : Nat) : Except Error (List UInt8) :=
  match buffer.slice? offset width with
  | some bytes => .ok bytes
  | none => .error (.outsideBuffer offset)

/-- The unsigned word of `width` bytes at an offset. -/
def readUnsigned (buffer : Buffer) (offset width : Nat) : Except Error Nat :=
  BigEndian.decode <$> buffer.slice offset width

/-- The signed word of `width` bytes at an offset. -/
def readSigned (buffer : Buffer) (offset width : Nat) : Except Error Int :=
  BigEndian.decodeSigned <$> buffer.slice offset width

/-- Overwrite the bytes from an offset on, leaving out those past the end. -/
def write (buffer : Buffer) (offset : Nat) : List UInt8 → Buffer
  | [] => buffer
  | byte :: rest =>
    write { buffer with bytes := buffer.bytes.setIfInBounds offset byte } (offset + 1) rest

/-- Overwrite the bytes from an offset on, which must all lie in the buffer. -/
def patch (buffer : Buffer) (offset : Nat) (bytes : List UInt8) : Except Error Buffer :=
  if offset + bytes.length ≤ buffer.size then .ok (buffer.write offset bytes)
  else .error (.outsideBuffer offset)

/-- The size is the number of bytes listed. -/
@[simp]
theorem length_toList (buffer : Buffer) : buffer.toList.length = buffer.size :=
  Array.length_toList

/-- Appended bytes follow the bytes that were there. -/
@[simp]
theorem toList_append (buffer : Buffer) (bytes : List UInt8) :
    (buffer.append bytes).toList = buffer.toList ++ bytes :=
  Array.toList_appendList

/-- Appending adds the number of bytes appended. -/
@[simp]
theorem size_append (buffer : Buffer) (bytes : List UInt8) :
    (buffer.append bytes).size = buffer.size + bytes.length := by
  simp [← length_toList]

/-- A word adds its width. -/
@[simp]
theorem size_appendWord (buffer : Buffer) (width : Nat) (value : Int) :
    (buffer.appendWord width value).size = buffer.size + width := by
  simp [appendWord]

/-- Overwriting keeps the size. -/
@[simp]
theorem size_write (buffer : Buffer) (offset : Nat) (bytes : List UInt8) :
    (buffer.write offset bytes).size = buffer.size := by
  induction bytes generalizing buffer offset with
  | nil => rfl
  | cons byte rest ih =>
    rw [write, ih]
    simp [size]

/-- Bytes outside an overwrite stay what they were. -/
theorem byte?_write_of_outside {buffer : Buffer} {offset index : Nat} {bytes : List UInt8}
    (outside : index < offset ∨ offset + bytes.length ≤ index) :
    (buffer.write offset bytes).byte? index = buffer.byte? index := by
  induction bytes generalizing buffer offset with
  | nil => rfl
  | cons byte rest ih =>
    rw [List.length_cons] at outside
    rw [write, ih (by omega), byte?, byte?, Array.getElem?_setIfInBounds_ne (by omega)]

end Buffer

end MethodBody
