import MethodBody.Action
import MethodBody.Buffer

/-!
# References to labels that have no offset yet

A distance whose target is not known yet is written as a placeholder, and a ledger remembers where.
Once the target has its offset, each placeholder is overwritten. A narrow placeholder that is too
small for the distance is given the unsigned form of its branch, if the distance fits that. What
will be written is worked out for all references before any byte is overwritten, so a ledger that
cannot be resolved leaves the bytes alone.
-/

namespace MethodBody

/-- A placeholder for the distance from an instruction to a label without an offset. -/
structure Reference where
  /-- The offset of the opcode that the distance is counted from. -/
  source : Nat
  /-- The size of the placeholder. -/
  width : Width
  /-- The offset of the placeholder. -/
  site : Nat
deriving DecidableEq, Repr

/-- What to write for a reference. -/
inductive Patch where
  /-- The distance, over the placeholder. -/
  | operand (distance : Int)
  /-- The unsigned form of the opcode, and the distance as an unsigned number. -/
  | unsigned (opcode : Opcode) (distance : Int)
deriving DecidableEq, Repr

namespace Patch

/-- The branch is given its unsigned form. -/
def isUnsigned : Patch → Bool
  | operand _ => false
  | unsigned .. => true

end Patch

namespace Reference

/-- The bytes of the placeholder all lie in the buffer. -/
def Inside (reference : Reference) (code : Buffer) : Prop :=
  reference.site + reference.width.size ≤ code.size

instance (reference : Reference) (code : Buffer) : Decidable (reference.Inside code) :=
  inferInstanceAs (Decidable (_ ≤ _))

/-- The unsigned form to use for a branch that is too long. -/
def planUnsigned (reference : Reference) (code : Buffer) (target : Nat) : Except Error Patch := do
  let some opcode := code.byte? reference.source
    | throw (.outsideBuffer reference.source)
  let some unsigned := Opcode.unsignedForm? opcode
    | throw (.notABranch reference.source opcode)
  let distance := Offset.distance target reference.source
  if BigEndian.FitsUnsigned 2 distance then pure (.unsigned unsigned distance)
  else throw (.codeTooLong target)

/-- What to write for a reference to the given target. -/
def plan (reference : Reference) (code : Buffer) (target : Nat) : Except Error Patch :=
  let distance := Offset.distance target reference.source
  if reference.width.Fits distance then .ok (.operand distance)
  else
    match reference.width with
    | .wide => .error (.codeTooLong target)
    | .narrow => reference.planUnsigned code target

/-- The bytes with a patch written for a reference. -/
def overwrite (reference : Reference) (code : Buffer) : Patch → Buffer
  | .operand distance => code.write reference.site (reference.width.operand distance)
  | .unsigned opcode distance =>
    (code.write reference.source [opcode]).write reference.site (BigEndian.encodeSigned 2 distance)

/-- The report that a branch is given its unsigned form. -/
def events (reference : Reference) (code : Buffer) : Patch → List Event
  | .operand _ => []
  | .unsigned opcode distance =>
    let old := (code.byte? reference.source).getD 0
    [.rewriting reference.source distance old opcode]

/-- Write a patch for a reference, which must lie in the buffer. -/
def apply (reference : Reference) (patch : Patch) : Action Buffer Unit := do
  Action.reportAll (← Action.inspect fun code => reference.events code patch)
  if ← Action.inspect fun code => decide (reference.Inside code) then
    modify fun code => reference.overwrite code patch
  else throw (.outsideBuffer reference.site)

/-- Overwrite one placeholder with the distance to the target. The answer is whether the branch was
given its unsigned form. -/
def patch (reference : Reference) (target : Nat) : Action Buffer Bool := do
  let planned ← Action.read fun code => reference.plan code target
  reference.apply planned
  pure planned.isUnsigned

end Reference

/-- The references to one label. -/
structure Ledger where
  /-- The references, newest first. -/
  newest : List Reference := []
deriving DecidableEq, Repr

namespace Ledger

/-- A ledger without references. -/
def empty : Ledger := {}

/-- The references in the order in which they were made. -/
def toList (ledger : Ledger) : List Reference := ledger.newest.reverse

/-- The number of references. -/
def size (ledger : Ledger) : Nat := ledger.newest.length

/-- Add a reference behind the others. -/
def push (ledger : Ledger) (reference : Reference) : Ledger := ⟨reference :: ledger.newest⟩

/-- Write a placeholder at the cursor and remember it. A placeholder is the distance -1. -/
def refer (ledger : Ledger) (source : Nat) (width : Width) : Action Buffer Ledger := do
  let site ← Action.inspect Buffer.cursor
  modify (·.append (width.operand (-1)))
  pure (ledger.push ⟨source, width, site⟩)

/-- What to write for each reference, in order. -/
def plan (ledger : Ledger) (code : Buffer) (target : Nat) :
    Except Error (List (Reference × Patch)) :=
  ledger.toList.mapM fun reference => (reference, ·) <$> reference.plan code target

/-- Write what was planned for each reference, in order. The answer is whether some branch was given
its unsigned form. -/
def applyAll (target : Nat) (planned : List (Reference × Patch)) : Action Buffer Bool :=
  Action.fold (fun rewritten (reference, patch) => do
    Action.report (.patching reference.width reference.source target)
    reference.apply patch
    pure (rewritten || patch.isUnsigned)) false planned

/-- Overwrite every placeholder with the distance to the target. -/
def resolve (ledger : Ledger) (target : Nat) : Action Buffer Bool := do
  let planned ← Action.read fun code => ledger.plan code target
  applyAll target planned

/-- A reference is added behind the others. -/
@[simp]
theorem toList_push (ledger : Ledger) (reference : Reference) :
    (ledger.push reference).toList = ledger.toList ++ [reference] :=
  List.reverse_cons

/-- The size is the number of references listed. -/
@[simp]
theorem length_references (ledger : Ledger) : ledger.toList.length = ledger.size :=
  List.length_reverse

end Ledger

end MethodBody
