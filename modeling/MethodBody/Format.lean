import MethodBody.BigEndian
import MethodBody.Error

/-!
# Formats of class file tables

A format writes a value as bytes and reads a value back from the front of a byte list, returning the
bytes after it. The tables of a class file hold rows of big-endian words of two bytes and begin with
the number of their rows, which is itself such a word.
-/

namespace MethodBody

/-- A writer and a reader of one type of value. -/
structure Format (α : Type) where
  /-- The bytes of a value. -/
  encode : α → List UInt8
  /-- A value from the front, and the bytes after it. -/
  decode : List UInt8 → Option (α × List UInt8)

namespace Format

variable {α β : Type}

/-- A word of two bytes. -/
def word : Format UInt16 where
  encode value := BigEndian.encode 2 value.toNat
  decode
    | high :: low :: rest => some (UInt16.ofNat (BigEndian.decode [high, low]), rest)
    | _ => none

/-- Two values, one after the other. -/
def pair (first : Format α) (second : Format β) : Format (α × β) where
  encode value := first.encode value.1 ++ second.encode value.2
  decode bytes := do
    let (left, rest) ← first.decode bytes
    let (right, rest) ← second.decode rest
    pure ((left, right), rest)

/-- The values of one format as those of another type. -/
def map (format : Format α) (build : α → β) (fields : β → α) : Format β where
  encode value := format.encode (fields value)
  decode bytes := do
    let (value, rest) ← format.decode bytes
    pure (build value, rest)

/-- Read a number of rows. -/
def decodeRows (row : Format α) : Nat → List UInt8 → Option (List α × List UInt8)
  | 0, bytes => some ([], bytes)
  | count + 1, bytes => do
    let (first, rest) ← row.decode bytes
    let (others, rest) ← decodeRows row count rest
    pure (first :: others, rest)

/-- The number of rows modulo the size of a word, then the rows in order. -/
def table (row : Format α) : Format (List α) where
  encode rows := word.encode (UInt16.ofNat rows.length) ++ rows.flatMap row.encode
  decode bytes := do
    let (count, rest) ← word.decode bytes
    decodeRows row count.toNat rest

/-- The bytes at the front of a region of the given size, with zeros behind them. -/
def fill (size : Nat) (bytes : List UInt8) : Except Error (List UInt8) :=
  if bytes.length ≤ size then .ok (bytes ++ List.replicate (size - bytes.length) 0)
  else .error .shortWrite

end Format

end MethodBody
