/-!
# Big-endian words

A word of `width` bytes is written with its most significant byte first. A signed word is the
two's complement of its width. The laws are the number of bytes written (`length_encode`), and
that reading a written word returns it modulo the word size (`decode_encode`), or exactly when it
fits (`decodeSigned_encodeSigned`).
-/

namespace MethodBody.BigEndian

/-- The `width` low-order bytes of a number, most significant first. -/
def encode : (width : Nat) → (value : Nat) → List UInt8
  | 0, _ => []
  | width + 1, value => encode width (value / 256) ++ [UInt8.ofNat value]

/-- The number whose base-256 digits are the bytes, most significant first. -/
def decode (bytes : List UInt8) : Nat :=
  bytes.foldl (fun value byte => value * 256 + byte.toNat) 0

/-- The number of different words of `width` bytes. -/
def modulus : (width : Nat) → Nat
  | 0 => 1
  | width + 1 => 256 * modulus width

/-- The `width` low-order bytes of the two's complement of an integer. -/
def encodeSigned (width : Nat) (value : Int) : List UInt8 :=
  encode width (value % (modulus width : Int)).toNat

/-- The integer whose two's complement the bytes are. -/
def decodeSigned (bytes : List UInt8) : Int :=
  Int.bmod (decode bytes) (modulus bytes.length)

/-- The integer is a signed word of `width` bytes. -/
def FitsSigned (width : Nat) (value : Int) : Prop :=
  -(modulus width : Int) ≤ 2 * value ∧ 2 * value < (modulus width : Int)

/-- The integer is an unsigned word of `width` bytes. -/
def FitsUnsigned (width : Nat) (value : Int) : Prop :=
  0 ≤ value ∧ value < (modulus width : Int)

instance (width : Nat) (value : Int) : Decidable (FitsSigned width value) :=
  inferInstanceAs (Decidable (_ ∧ _))

instance (width : Nat) (value : Int) : Decidable (FitsUnsigned width value) :=
  inferInstanceAs (Decidable (_ ∧ _))

/-- The number of words of two bytes. -/
@[simp]
theorem modulus_two : modulus 2 = 65536 := rfl

/-- The number of words of four bytes. -/
@[simp]
theorem modulus_four : modulus 4 = 4294967296 := rfl

/-- There are words of every width. -/
theorem modulus_pos (width : Nat) : 0 < modulus width := by
  induction width with
  | zero => decide
  | succ width ih =>
    rw [modulus]
    omega

/-- A word of `width` bytes has `width` bytes. -/
@[simp]
theorem length_encode (width value : Nat) : (encode width value).length = width := by
  induction width generalizing value with
  | zero => rfl
  | succ width ih => simp [encode, ih]

/-- A signed word of `width` bytes has `width` bytes. -/
@[simp]
theorem length_encodeSigned (width : Nat) (value : Int) :
    (encodeSigned width value).length = width :=
  length_encode width _

/-- The last byte is the least significant digit. -/
theorem decode_append_singleton (bytes : List UInt8) (byte : UInt8) :
    decode (bytes ++ [byte]) = decode bytes * 256 + byte.toNat := by
  simp [decode]

/-- Reading a written word returns the number modulo the word size. -/
theorem decode_encode (width value : Nat) :
    decode (encode width value) = value % modulus width := by
  induction width generalizing value with
  | zero => simp [encode, decode, modulus, Nat.mod_one]
  | succ width ih =>
    rw [encode, decode_append_singleton, ih, modulus, Nat.mod_mul, UInt8.toNat_ofNat',
      Nat.mul_comm, Nat.add_comm]

/-- Reading a written signed word returns the integer, when it fits. -/
theorem decodeSigned_encodeSigned {width : Nat} {value : Int} (fits : FitsSigned width value) :
    decodeSigned (encodeSigned width value) = value := by
  have positive := modulus_pos width
  obtain ⟨lower, upper⟩ := fits
  rw [decodeSigned, length_encodeSigned, encodeSigned, decode_encode]
  generalize modulus width = size at *
  have nonnegative : 0 ≤ value % (size : Int) := Int.emod_nonneg _ (by omega)
  rw [Int.natCast_emod, Int.toNat_of_nonneg nonnegative, Int.emod_emod, Int.emod_bmod,
    Int.bmod_eq_of_le_mul_two] <;> omega

end MethodBody.BigEndian
