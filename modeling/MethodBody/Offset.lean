/-!
# Offsets

An offset is a position in the bytes of a method, counted from its first byte. Distances between
offsets are measured on a 64-bit machine, where an offset past the signed range counts as negative;
no method is long enough for that to matter (`distance_eq_sub`).
-/

namespace MethodBody.Offset

/-- The offset as a signed 64-bit number. -/
def signed (offset : Nat) : Int :=
  Int.bmod offset 0x10000000000000000

/-- How far the target lies after the source. -/
def distance (target source : Nat) : Int :=
  signed target - signed source

/-- An offset is shown behind an at sign. -/
def text (offset : Nat) : String :=
  s!"@{offset}"

/-- Below the signed range an offset counts as itself. -/
theorem signed_eq {offset : Nat} (small : offset < 0x8000000000000000) : signed offset = offset :=
  Int.bmod_eq_of_le_mul_two (by omega) (by omega)

/-- Below the signed range a distance is the plain difference. -/
theorem distance_eq_sub {target source : Nat} (smallTarget : target < 0x8000000000000000)
    (smallSource : source < 0x8000000000000000) :
    distance target source = (target : Int) - source := by
  rw [distance, signed_eq smallTarget, signed_eq smallSource]

end MethodBody.Offset
