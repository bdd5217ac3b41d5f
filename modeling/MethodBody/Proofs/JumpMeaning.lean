import MethodBody.Proofs.Effects
import MethodBody.Proofs.Decoding

/-!
# What jumps mean to the machine

The machine takes a jump or goes on behind it. What it does depends on the topmost values of its
stack, and each jump takes the values away that it looks at (`Opcode.meanings`). Control that is
carried from one jump to the next leaves a stretch of code in the end (`Buffer.Leaves`). Written in
any form, a jump leaves its own bytes as the machine would take the one opcode that was asked for
(`leaves_iff`): the opposite branch leads over the wide jump exactly if the branch itself would have
gone on.
-/

namespace MethodBody

/-- A value on the stack of the machine. -/
inductive Value where
  /-- An integer. -/
  | int (value : Int32)
  /-- A reference to an object, or null. -/
  | reference (object : Option Nat)
  /-- The offset that a subroutine is to return to. -/
  | returnAddress (offset : Nat)
  /-- A value of a kind that no jump looks at. -/
  | other (word : UInt64)
deriving DecidableEq, Repr

/-- The topmost integer of a stack, and what is left without it. -/
def popInteger? : List Value → Option (Int32 × List Value)
  | .int value :: rest => some (value, rest)
  | _ => none

/-- The topmost reference of a stack, and what is left without it. -/
def popReference? : List Value → Option (Option Nat × List Value)
  | .reference object :: rest => some (object, rest)
  | _ => none

/-- How two integers are compared. -/
inductive Comparison where
  /-- The integers are the same. -/
  | equal
  /-- The integers are different. -/
  | notEqual
  /-- The first is less than the second. -/
  | less
  /-- The first is not less than the second. -/
  | notLess
  /-- The first is greater than the second. -/
  | greater
  /-- The first is not greater than the second. -/
  | notGreater
deriving DecidableEq, Repr

namespace Comparison

/-- Whether the comparison holds of two integers. -/
def test : Comparison → Int32 → Int32 → Bool
  | equal, left, right => left = right
  | notEqual, left, right => left ≠ right
  | less, left, right => left < right
  | notLess, left, right => left ≥ right
  | greater, left, right => left > right
  | notGreater, left, right => left ≤ right

/-- The comparison that holds if this one does not. -/
def opposite : Comparison → Comparison
  | equal => notEqual
  | notEqual => equal
  | less => notLess
  | notLess => less
  | greater => notGreater
  | notGreater => greater

/-- Of a comparison and its opposite, exactly one holds. -/
theorem test_opposite (comparison : Comparison) (left right : Int32) :
    comparison.opposite.test left right = !comparison.test left right := by
  cases comparison with
  | equal | notEqual => simp [opposite, test]
  | less | notGreater => simp [opposite, test, ← decide_not]
  | notLess | greater => simp [opposite, test, ← decide_not]

end Comparison

/-- When the machine takes a jump. -/
inductive Condition where
  /-- The jump is taken whatever is on the stack. -/
  | always
  /-- The topmost integer compares like this with zero. -/
  | zero (comparison : Comparison)
  /-- The integer below the topmost one compares like this with it. -/
  | integers (comparison : Comparison)
  /-- The two topmost references are the same, or they are not. -/
  | references (same : Bool)
  /-- The topmost reference is null, or it is not. -/
  | null (isNull : Bool)
deriving DecidableEq, Repr

namespace Condition

/-- Whether the jump is taken, and what is left of the stack. The stack may not suit the jump. -/
def test (condition : Condition) (stack : List Value) : Option (Bool × List Value) :=
  match condition with
  | always => some (true, stack)
  | zero comparison => (popInteger? stack).map fun (value, rest) => (comparison.test value 0, rest)
  | integers comparison => (popInteger? stack).bind fun (right, below) =>
    (popInteger? below).map fun (left, rest) => (comparison.test left right, rest)
  | references same => (popReference? stack).bind fun (right, below) =>
    (popReference? below).map fun (left, rest) => ((left == right) == same, rest)
  | null isNull => (popReference? stack).map fun (object, rest) => (object.isNone == isNull, rest)

/-- The condition that is met if this one is not, unless this one is always met. -/
def opposite? : Condition → Option Condition
  | always => none
  | zero comparison => some (zero comparison.opposite)
  | integers comparison => some (integers comparison.opposite)
  | references same => some (references !same)
  | null isNull => some (null !isNull)

/-- The opposite condition looks at the same values, and it is met if the condition is not. -/
theorem test_opposite {condition opposite : Condition}
    (opposes : condition.opposite? = some opposite) (stack : List Value) :
    opposite.test stack = (condition.test stack).map fun outcome => (!outcome.1, outcome.2) := by
  have flips (met wanted : Bool) : (met == !wanted) = !(met == wanted) := by
    cases met <;> cases wanted <;> rfl
  cases condition with
  | always => simp [opposite?] at opposes
  | zero comparison =>
    obtain rfl := Option.some.inj opposes
    simp only [test, Comparison.test_opposite, Option.map_map, Function.comp_def]
  | integers comparison =>
    obtain rfl := Option.some.inj opposes
    simp only [test, Comparison.test_opposite, Option.map_bind, Option.map_map, Function.comp_def]
  | references same =>
    obtain rfl := Option.some.inj opposes
    simp only [test, Option.map_bind, Option.map_map, Function.comp_def, flips]
  | null isNull =>
    obtain rfl := Option.some.inj opposes
    simp only [test, Option.map_map, Function.comp_def, flips]

end Condition

/-- What the machine does at a jump. -/
structure Meaning where
  /-- When the jump is taken. -/
  condition : Condition
  /-- The size of the operand. -/
  width : Width := .narrow
  /-- The offset behind the jump is put on the stack if the jump is taken. -/
  pushesReturn : Bool := false
deriving DecidableEq, Repr

/-- Where control is, and what is on the stack. -/
structure Thread where
  /-- The offset of the next instruction. -/
  offset : Nat
  /-- The values on the stack, topmost first. -/
  stack : List Value
deriving DecidableEq, Repr

/-- Where a jump leads, given its target and the offset behind it, and whether it is taken. -/
def Meaning.land (meaning : Meaning) (target behind : Nat) (outcome : Bool × List Value) : Thread :=
  if outcome.1 then
    ⟨target, if meaning.pushesReturn then .returnAddress behind :: outcome.2 else outcome.2⟩
  else ⟨behind, outcome.2⟩

/-- A jump that is taken lands at its target, and one that is not lands behind itself. -/
theorem Meaning.offset_land (meaning : Meaning) (target behind : Nat)
    (outcome : Bool × List Value) :
    (meaning.land target behind outcome).offset = if outcome.1 then target else behind := by
  unfold land
  split <;> rfl

namespace Opcode

/-- The jumps of the machine. -/
def meanings : List (Opcode × Meaning) :=
  [(0x99, { condition := .zero .equal }), (0x9a, { condition := .zero .notEqual }),
    (0x9b, { condition := .zero .less }), (0x9c, { condition := .zero .notLess }),
    (0x9d, { condition := .zero .greater }), (0x9e, { condition := .zero .notGreater }),
    (0x9f, { condition := .integers .equal }), (0xa0, { condition := .integers .notEqual }),
    (0xa1, { condition := .integers .less }), (0xa2, { condition := .integers .notLess }),
    (0xa3, { condition := .integers .greater }), (0xa4, { condition := .integers .notGreater }),
    (0xa5, { condition := .references true }), (0xa6, { condition := .references false }),
    (0xa7, { condition := .always }), (0xa8, { condition := .always, pushesReturn := true }),
    (0xc6, { condition := .null true }), (0xc7, { condition := .null false }),
    (0xc8, { condition := .always, width := .wide }),
    (0xc9, { condition := .always, width := .wide, pushesReturn := true })]

/-- What the machine does at an opcode, if it is that of a jump. -/
def meaning? (opcode : Opcode) : Option Meaning := meanings.lookup opcode

end Opcode

namespace Buffer

/-- The offset that an operand of the given width leads to from a jump, unless that would lie in
front of the code. -/
def jumpTarget? (code : Buffer) (offset : Nat) (width : Width) : Option Nat :=
  (code.signed? (offset + 1) width.size).bind fun distance => (offset + distance).toNat?

/-- The machine comes to a jump. -/
def jumpStep? (code : Buffer) (thread : Thread) : Option Thread :=
  (code.byte? thread.offset).bind fun (opcode : Opcode) =>
    opcode.meaning?.bind fun meaning =>
      (code.jumpTarget? thread.offset meaning.width).bind fun target =>
        (meaning.condition.test thread.stack).map
          (meaning.land target (thread.offset + 1 + meaning.width.size))

/-- Control goes from jump to jump strictly between two offsets, and from there to an offset that
does not lie between them. -/
inductive Leaves (code : Buffer) (start stop : Nat) : Thread → Thread → Prop
  /-- Control leaves at once. -/
  | out {thread next : Thread} (step : code.jumpStep? thread = some next)
    (outside : ¬(start < next.offset ∧ next.offset < stop)) : Leaves code start stop thread next
  /-- Control comes to another jump in between. -/
  | on {thread next result : Thread} (step : code.jumpStep? thread = some next)
    (inside : start < next.offset ∧ next.offset < stop)
    (leaves : Leaves code start stop next result) :
    Leaves code start stop thread result

variable {code : Buffer} {start stop place : Nat} {thread next result : Thread} {opcode : Opcode}
  {meaning : Meaning} {width : Width} {distance : Int}
  {front back : List UInt8} {stack : List Value}

/-- If the first step leads outside, it is the last one. -/
theorem leaves_iff_of_outside
    (outside : ∀ next,
      code.jumpStep? thread = some next → ¬(start < next.offset ∧ next.offset < stop)) :
    code.Leaves start stop thread result ↔ code.jumpStep? thread = some result := by
  constructor
  · intro leaves
    cases leaves with
    | out step => exact step
    | on step inside => exact absurd inside (outside _ step)
  · exact fun step => .out step (outside result step)

/-- If the first step leads to another jump in between, control goes on from there. -/
theorem leaves_iff_of_inside (step : code.jumpStep? thread = some next)
    (inside : start < next.offset ∧ next.offset < stop) :
    code.Leaves start stop thread result ↔ code.Leaves start stop next result := by
  constructor
  · intro leaves
    cases leaves with
    | out other outside =>
      obtain rfl := Option.some.inj (step.symm.trans other)
      exact absurd inside outside
    | on other _ leaves =>
      obtain rfl := Option.some.inj (step.symm.trans other)
      exact leaves
  · exact .on step inside

/-- A jump that stands in the code is carried out as its opcode means. -/
theorem jumpStep?_of_split
    (split : code.toList = front ++ opcode :: meaning.width.operand distance ++ back)
    (means : opcode.meaning? = some meaning) (fits : meaning.width.Fits distance)
    (leads : (front.length : Int) + distance = place) :
    code.jumpStep? ⟨front.length, stack⟩ = (meaning.condition.test stack).map
      (meaning.land place (front.length + 1 + meaning.width.size)) := by
  have first : code.byte? front.length = some opcode := by
    rw [List.append_assoc] at split
    exact byte?_of_split split
  have operand : code.signed? (front.length + 1) meaning.width.size = some distance := by
    have around : code.toList = (front ++ [opcode]) ++ meaning.width.operand distance ++ back := by
      rw [split]
      simp
    have read := readSigned_of_split around fits
    rw [List.length_append, List.length_singleton] at read
    rw [signed?, read]
    rfl
  have target : code.jumpTarget? front.length meaning.width = some place := by
    rw [jumpTarget?, operand, Option.bind_some, leads]
    rfl
  simp only [jumpStep?, first, means, target, Option.bind_some]

/-- A jump to an offset that is not behind it leaves its bytes in one step. -/
theorem leaves_iff_of_split
    (split : code.toList = front ++ opcode :: meaning.width.operand distance ++ back)
    (means : opcode.meaning? = some meaning) (fits : meaning.width.Fits distance)
    (leads : (front.length : Int) + distance = place) (behind : place ≤ front.length) :
    code.Leaves front.length (front.length + 1 + meaning.width.size) ⟨front.length, stack⟩ result ↔
      (meaning.condition.test stack).map
        (meaning.land place (front.length + 1 + meaning.width.size)) = some result := by
  have step : code.jumpStep? ⟨front.length, stack⟩ = (meaning.condition.test stack).map
      (meaning.land place (front.length + 1 + meaning.width.size)) :=
    jumpStep?_of_split split means fits leads
  rw [← step]
  refine leaves_iff_of_outside fun next stepped => ?_
  rw [step] at stepped
  obtain ⟨outcome, -, rfl⟩ := Option.map_eq_some_iff.mp stepped
  rw [Meaning.offset_land]
  split <;> omega

/-- The opposite of a conditional branch over a wide jump leaves the bytes of both as the branch
would leave its own. -/
theorem leaves_iff_of_inverted {condition opposite : Condition} {inverse : Opcode}
    (split : code.toList = (front ++ inverse :: Width.narrow.operand 8)
      ++ Opcode.gotoWide :: Width.wide.operand distance ++ back)
    (opposes : condition.opposite? = some opposite)
    (means : inverse.meaning? = some { condition := opposite }) (fits : Width.wide.Fits distance)
    (leads : (front.length : Int) + 3 + distance = place) (behind : place ≤ front.length) :
    code.Leaves front.length (front.length + 8) ⟨front.length, stack⟩ result ↔
      (condition.test stack).map (Meaning.land { condition } place (front.length + 8))
        = some result := by
  have middle : (front ++ inverse :: Width.narrow.operand 8).length = front.length + 3 := by
    simp [Width.size]
  have branch : code.jumpStep? ⟨front.length, stack⟩ = (opposite.test stack).map
      (Meaning.land { condition := opposite } (front.length + 8) (front.length + 3)) := by
    rw [List.append_assoc] at split
    exact jumpStep?_of_split split means (show Width.narrow.Fits 8 by decide) (by omega)
  have onward : ((front ++ inverse :: Width.narrow.operand 8).length : Int) + distance = place := by
    omega
  have jump (rest : List Value) : code.jumpStep? ⟨front.length + 3, rest⟩ = some ⟨place, rest⟩ := by
    have meant : Opcode.meaning? Opcode.gotoWide
        = some { condition := .always, width := .wide } := rfl
    rw [← middle]
    exact jumpStep?_of_split split meant fits onward
  rw [Condition.test_opposite opposes] at branch
  rcases tested : condition.test stack with _ | ⟨taken, rest⟩
  · rw [tested] at branch
    rw [leaves_iff_of_outside (by simp [branch]), branch]
    rfl
  · rw [tested] at branch
    cases taken with
    | false =>
      -- The opposite branch is taken, which leads behind both.
      have step : code.jumpStep? ⟨front.length, stack⟩ = some ⟨front.length + 8, rest⟩ := branch
      rw [leaves_iff_of_outside (by simp [step]), step]
      rfl
    | true =>
      -- The opposite branch goes on with the wide jump.
      have step : code.jumpStep? ⟨front.length, stack⟩ = some ⟨front.length + 3, rest⟩ := branch
      rw [leaves_iff_of_inside step ⟨by simp, by simp⟩,
        leaves_iff_of_outside (by simp only [jump, Option.some.injEq, forall_eq']; omega), jump]
      rfl

end Buffer

namespace JumpForm

/-- The bytes of a jump at the source to the place of a label. -/
def bytes (source place : Nat) : JumpForm → List UInt8
  | .plain opcode width => opcode :: width.operand (Offset.distance place source)
  | .inverted inverse => (inverse :: Width.narrow.operand 8)
      ++ Opcode.gotoWide :: Width.wide.operand (Offset.distance place (source + 3))

/-- Written in this form, a jump means what is given. -/
def means (meaning : Meaning) : JumpForm → Bool
  | .plain opcode width => opcode.meaning? = some { meaning with width }
  | .inverted inverse => !meaning.pushesReturn && meaning.condition.opposite?.any fun opposite =>
      inverse.meaning? = some { condition := opposite }

variable {form : JumpForm} {meaning : Meaning} {code : Buffer}
  {front back : List UInt8} {node : Node} {place : Nat} {stack : List Value} {result : Thread}

/-- A jump back that stands in the code leads control where its meaning says, or behind its
bytes. -/
theorem leaves_iff (split : code.toList = front ++ form.bytes front.length place ++ back)
    (means : form.means meaning = true) (holds : form.Holds node front.length)
    (placed : node.offset? = some place) (behind : place ≤ front.length)
    (small : front.length + form.lead < 0x80000000) :
    code.Leaves front.length (front.length + (form.bytes front.length place).length)
        ⟨front.length, stack⟩ result ↔
      (meaning.condition.test stack).map
        (meaning.land place (front.length + (form.bytes front.length place).length))
          = some result := by
  cases form with
  | plain opcode width =>
    have meant : opcode.meaning? = some { meaning with width } := of_decide_eq_true means
    have stop : ((plain opcode width).bytes front.length place).length = 1 + width.size := by
      simp [bytes, Nat.add_comm]
    rw [stop, ← Nat.add_assoc]
    exact Buffer.leaves_iff_of_split split meant (holds place placed)
      (by rw [Offset.distance_eq_sub (by omega) (by omega)]; omega) behind
  | inverted inverse =>
    simp only [lead] at small
    rw [JumpForm.means, Bool.and_eq_true, Bool.not_eq_true', Option.any_eq_true] at means
    obtain ⟨noCall, opposite, opposes, meant⟩ := means
    have same : meaning.land = Meaning.land { condition := meaning.condition } := by
      unfold Meaning.land
      rw [noCall]
    have stop : ((inverted inverse).bytes front.length place).length = 8 := by
      simp [bytes, Width.size]
    rw [stop, same]
    rw [bytes, ← List.append_assoc] at split
    exact Buffer.leaves_iff_of_inverted split opposes (of_decide_eq_true meant) (holds place placed)
      (by rw [Offset.distance_eq_sub (by omega) (by omega)]; omega) behind

end JumpForm

end MethodBody
