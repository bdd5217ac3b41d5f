/-!
# Hexadecimal text

Bytes are shown as two lower case hexadecimal digits.
-/

namespace MethodBody.Hex

/-- The lower case hexadecimal digit of a number below sixteen. -/
def digit (value : Nat) : Char :=
  if value < 10 then Char.ofNat ('0'.toNat + value) else Char.ofNat ('a'.toNat + (value - 10))

/-- The two digits of a byte. -/
def byte (value : UInt8) : String :=
  String.ofList [digit (value.toNat / 16), digit (value.toNat % 16)]

/-- The bytes in order, separated by single blanks. -/
def spaced (bytes : List UInt8) : String :=
  String.intercalate " " (bytes.map byte)

end MethodBody.Hex
