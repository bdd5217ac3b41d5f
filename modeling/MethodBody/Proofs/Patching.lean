import MethodBody.Proofs.Widening

/-!
# Filling in references one by one

What is written for a reference covers its operand and, if the operand is narrow, the opcode of its
branch, and only that opcode is read before anything is written (`Reference.Covers`). So references
of which none lies over what is read for another can be filled in one after the other, each planned
when its turn comes. Resolving a ledger leaves the same bytes and gives the same answer, except that
it leaves the code alone if one of the references cannot be filled in (`resolve_eq_patch_each`).
-/

namespace MethodBody

namespace Reference

variable {reference : Reference} {code other : Buffer} {target index : Nat} {patch : Patch}

/-- The byte that comes to an index when a patch is written. -/
def written? (reference : Reference) : Patch → Nat → Option UInt8
  | .operand distance, index =>
    Buffer.stamp? reference.site (reference.width.operand distance) index
  | .unsigned opcode distance, index =>
    (Buffer.stamp? reference.site (BigEndian.encodeSigned 2 distance) index).or
      (Buffer.stamp? reference.source [opcode] index)

/-- The byte at the index belongs to the operand, or it is the opcode of a branch with a narrow
one. -/
def Covers (reference : Reference) (index : Nat) : Prop :=
  (reference.site ≤ index ∧ index < reference.site + reference.width.size) ∨
    (reference.width = .narrow ∧ index = reference.source)

instance (reference : Reference) (index : Nat) : Decidable (reference.Covers index) :=
  inferInstanceAs (Decidable (_ ∨ _))

/-- Writing a patch exchanges the bytes that are there. -/
theorem byte?_overwrite (reference : Reference) (code : Buffer) (patch : Patch) (index : Nat) :
    (reference.overwrite code patch).byte? index
      = (code.byte? index).map fun old => (reference.written? patch index).getD old := by
  cases patch with
  | operand distance => exact code.byte?_write _ _ index
  | unsigned opcode distance =>
    rw [overwrite, Buffer.byte?_write, Buffer.byte?_write, Option.map_map, written?]
    apply congrArg (Option.map · _)
    funext old
    cases Buffer.stamp? reference.site (BigEndian.encodeSigned 2 distance) index <;> simp

/-- What is planned is written to the bytes that the reference covers. -/
theorem covers_of_written? (planned : reference.plan code target = .ok patch)
    (written : (reference.written? patch index).isSome = true) : reference.Covers index := by
  cases patch with
  | operand distance =>
    rw [written?, Buffer.isSome_stamp?, Width.length_operand] at written
    exact .inl written
  | unsigned opcode distance =>
    have narrow : reference.width = .narrow := ((isUnsigned_iff planned).mp rfl).1
    rw [written?, Option.isSome_or, Bool.or_eq_true, Buffer.isSome_stamp?, Buffer.isSome_stamp?,
      BigEndian.length_encodeSigned, List.length_singleton] at written
    rcases written with operand | opcode
    · refine .inl ?_
      rw [narrow]
      exact operand
    · exact .inr ⟨narrow, by omega⟩

/-- Bytes that the reference does not cover stay what they were. -/
theorem byte?_overwrite_of_not_covers (planned : reference.plan code target = .ok patch)
    (apart : ¬ reference.Covers index) :
    (reference.overwrite other patch).byte? index = other.byte? index := by
  have none : reference.written? patch index = none := by
    rw [← Option.not_isSome_iff_eq_none]
    exact fun written => apart (covers_of_written? planned written)
  simp [byte?_overwrite, none]

/-- Of the code only the opcode of a branch with a narrow operand is read. -/
theorem plan_congr (target : Nat) (same : reference.width = .narrow →
    code.byte? reference.source = other.byte? reference.source) :
    reference.plan code target = reference.plan other target := by
  by_cases fits : reference.width.Fits (Offset.distance target reference.source)
  · simp only [plan, if_pos fits]
  · simp only [plan, if_neg fits]
    cases width : reference.width with
    | wide => rfl
    | narrow => simp only [planUnsigned, same width]

/-- Filling in a reference writes what is planned for it. -/
theorem run_patch_of_planned (planned : reference.plan code target = .ok patch)
    (inside : reference.Inside code) :
    (reference.patch target).Yields code patch.isUnsigned (reference.overwrite code patch) := by
  simp [Reference.patch, Reference.apply, Action.Yields, planned, inside]

/-- A reference for which nothing can be planned changes nothing. -/
theorem run_patch_of_refused {cause : Error} (refused : reference.plan code target = .error cause) :
    (reference.patch target).run code = ⟨.error cause, code, []⟩ := by
  simp [Reference.patch, refused]

/-- Fill in references one by one, each planned when its turn comes. -/
def patchEach (target : Nat) (references : List Reference) : Action Buffer (List Bool) :=
  references.mapM fun reference => reference.patch target

/-- Nothing that is written for the first reference is read for the second. -/
def Spares (first second : Reference) : Prop :=
  second.width = .narrow → ¬ first.Covers second.source

/-- For each of the references the same is read in both codes. -/
def ReadsSame (references : List Reference) (now code : Buffer) : Prop :=
  ∀ reference ∈ references, reference.width = .narrow →
    now.byte? reference.source = code.byte? reference.source

/-- Writing for a reference that spares the others leaves what is read for them. -/
theorem ReadsSame.overwrite {first : Reference} {rest : List Reference} {now : Buffer}
    (same : ReadsSame (first :: rest) now code) (spares : ∀ second ∈ rest, first.Spares second)
    (planned : first.plan code target = .ok patch) :
    ReadsSame rest (first.overwrite now patch) code := by
  intro second member narrow
  rw [byte?_overwrite_of_not_covers planned (spares second member narrow)]
  exact same second (List.mem_cons_of_mem _ member) narrow

end Reference

namespace Ledger

open Reference (ReadsSame Spares)

variable {references : List Reference} {now code : Buffer} {target : Nat}

/-- References that spare each other are filled in one by one as was planned for all of them. -/
theorem patch_each_of_planned {planned : List (Reference × Patch)}
    (plans : (references.mapM fun reference => (reference, ·) <$> reference.plan code target)
      = .ok planned)
    (same : ReadsSame references now code) (spares : references.Pairwise Spares)
    (inside : ∀ reference ∈ references, reference.Inside now) :
    (Reference.patchEach target references).Yields now (planned.map (·.2.isUnsigned))
      (overwriteAll now planned) := by
  -- The code at each point differs from the original one in bytes that are not read any more.
  induction references generalizing now planned with
  | nil =>
    obtain rfl : [] = planned := Except.ok.inj plans
    exact Action.yields_pure.mpr ⟨rfl, rfl⟩
  | cons first rest ih =>
    obtain ⟨spared, others⟩ := List.pairwise_cons.mp spares
    obtain ⟨one, later, here, further, rfl⟩ := mapM_cons_eq_ok.mp plans
    obtain ⟨patch, plan, rfl⟩ := map_eq_ok.mp here
    have planNow : first.plan now target = .ok patch := by
      rw [Reference.plan_congr target (same first List.mem_cons_self), plan]
    have filled := Reference.run_patch_of_planned planNow (inside first List.mem_cons_self)
    have insideStill : ∀ reference ∈ rest, reference.Inside (first.overwrite now patch) :=
      fun reference member =>
        Buffer.inside_overwrite.mpr (inside reference (List.mem_cons_of_mem _ member))
    have allFilled := ih further (same.overwrite spared plan) others insideStill
    rw [Reference.patchEach, List.mapM_cons]
    refine Action.yields_bind.mpr ⟨_, _, filled, Action.yields_bind.mpr ⟨_, _, allFilled, ?_⟩⟩
    exact Action.yields_pure.mpr ⟨rfl, rfl⟩

/-- References that spare each other are filled in one by one up to the first for which nothing can
be planned. -/
theorem patch_each_of_refused {cause : Error}
    (refused : (references.mapM fun reference => (reference, ·) <$> reference.plan code target)
      = .error cause)
    (same : ReadsSame references now code) (spares : references.Pairwise Spares)
    (inside : ∀ reference ∈ references, reference.Inside now) :
    ((Reference.patchEach target references).run now).answer = .error cause := by
  induction references generalizing now with
  | nil => cases refused
  | cons first rest ih =>
    obtain ⟨spared, others⟩ := List.pairwise_cons.mp spares
    have planNow := Reference.plan_congr target (same first List.mem_cons_self)
    rw [Reference.patchEach, List.mapM_cons]
    rcases mapM_cons_eq_error.mp refused with here | ⟨one, here, later⟩
    · have plan : first.plan code target = .error cause := map_eq_error.mp here
      apply Action.answer_bind_eq_error.mpr
      left
      rw [Reference.run_patch_of_refused (planNow.trans plan)]
    · obtain ⟨patch, plan, rfl⟩ := map_eq_ok.mp here
      have filled := Reference.run_patch_of_planned (planNow.trans plan)
        (inside first List.mem_cons_self)
      have insideStill : ∀ reference ∈ rest, reference.Inside (first.overwrite now patch) :=
        fun reference member =>
          Buffer.inside_overwrite.mpr (inside reference (List.mem_cons_of_mem _ member))
      have failing := ih later (same.overwrite spared plan) others insideStill
      refine Action.answer_bind_eq_error.mpr (.inr ⟨_, filled.1, ?_⟩)
      rw [filled.2]
      exact Action.answer_bind_eq_error.mpr (.inl failing)

/-- The operands lie in the code, none of them over an opcode that a distance is counted from, and
each branch has one operand. Operands may lie over each other. -/
structure Separate (ledger : Ledger) (code : Buffer) : Prop where
  /-- The operands lie in the code. -/
  inside : ∀ reference ∈ ledger.toList, reference.Inside code
  /-- No operand lies over an opcode. -/
  opcodes : ∀ reference ∈ ledger.toList, ∀ other ∈ ledger.toList,
    ¬ (reference.site ≤ other.source ∧ other.source < reference.site + reference.width.size)
  /-- No two narrow operands belong to one branch. -/
  branches : ledger.toList.Pairwise fun first second =>
    first.width = .narrow → second.width = .narrow → first.source ≠ second.source

/-- References whose operands lie apart from the opcodes spare each other. -/
theorem Separate.spares {ledger : Ledger} (separate : ledger.Separate code) :
    ledger.toList.Pairwise Spares := by
  refine separate.branches.imp_of_mem ?_
  intro first second isFirst isSecond branches narrow covers
  rcases covers with operand | ⟨narrowToo, same⟩
  · exact separate.opcodes first isFirst second isSecond operand
  · exact branches narrowToo narrow same.symm

/-- Resolving a ledger is filling in its references one by one, all or none: if each of them can be
filled in, the answer is whether some branch was given its unsigned form, and the bytes are the
same; if one cannot, the cause is that of the first one, and no byte is changed. -/
theorem resolve_eq_patch_each {ledger : Ledger} (separate : ledger.Separate code) (target : Nat) :
    let each := (Reference.patchEach target ledger.toList).run code
    let whole := (ledger.resolve target).run code
    (∀ rewritten, each.answer = .ok rewritten →
      whole.answer = .ok (rewritten.any id) ∧ whole.state = each.state) ∧
    (∀ cause, each.answer = .error cause → whole.answer = .error cause ∧ whole.state = code) ∧
    whole.state.size = code.size := by
  intro each whole
  have same : ReadsSame ledger.toList code code := fun _ _ _ => rfl
  have kept : whole.state.size = code.size := Buffer.keepsSize_resolve ledger target code
  cases plans : ledger.plan code target with
  | ok planned =>
    obtain ⟨events, resolved⟩ := run_resolve_of_planned plans separate.inside
    obtain ⟨answered, bytes⟩ := patch_each_of_planned plans same separate.spares separate.inside
    refine ⟨?_, ?_, kept⟩
    · intro rewritten succeeds
      obtain rfl := Except.ok.inj (answered.symm.trans succeeds)
      have some : rewrites planned = (planned.map (·.2.isUnsigned)).any id := by
        simp [rewrites]
      exact ⟨by rw [← some]; exact congrArg Outcome.answer resolved,
        (congrArg Outcome.state resolved).trans bytes.symm⟩
    · intro cause fails
      cases answered.symm.trans fails
  | error cause =>
    have resolved := run_resolve_of_refused plans
    have answered := patch_each_of_refused plans same separate.spares separate.inside
    refine ⟨?_, ?_, kept⟩
    · intro rewritten succeeds
      cases answered.symm.trans succeeds
    · intro other fails
      obtain rfl := Except.error.inj (answered.symm.trans fails)
      exact ⟨congrArg Outcome.answer resolved, congrArg Outcome.state resolved⟩

/-- A jump, and an instruction with an operand behind it. -/
def twoOperands (second : Opcode) : Buffer :=
  Buffer.empty.append
    (Opcode.goto :: Width.narrow.operand (-1) ++ second :: Width.narrow.operand (-1))

/-- Both operands wait for the same label. -/
def twoWaiting : Ledger := (Ledger.empty.push ⟨0, .narrow, 1⟩).push ⟨3, .narrow, 4⟩

/-- If both operands belong to branches, both branches are given their unsigned forms. If the second
one belongs to another instruction, the first branch is given its unsigned form one by one, but the
ledger is not resolved and leaves the code alone. -/
theorem resolve_eq_patch_each_twoOperands :
    (twoWaiting.resolve 40000).Yields (twoOperands Opcode.goto) true
        ((Reference.patchEach 40000 twoWaiting.toList).run (twoOperands Opcode.goto)).state ∧
      ((twoWaiting.resolve 40000).run (twoOperands 0)).answer = .error (.notABranch 3 0) ∧
      ((twoWaiting.resolve 40000).run (twoOperands 0)).state = twoOperands 0 ∧
      ((Reference.patchEach 40000 twoWaiting.toList).run (twoOperands 0)).state
        ≠ twoOperands 0 := by
  have separate (second : Opcode) : twoWaiting.Separate (twoOperands second) := by
    have size : (twoOperands second).size = 6 := Buffer.size_append _ _
    constructor
    · intro reference member
      rw [Reference.Inside, size]
      revert reference
      decide
    · decide
    · decide
  obtain ⟨whole, -, -⟩ := resolve_eq_patch_each (separate Opcode.goto) 40000
  obtain ⟨-, none, -⟩ := resolve_eq_patch_each (separate 0) 40000
  obtain ⟨refused, kept⟩ := none (.notABranch 3 0) (by decide)
  exact ⟨whole [true, true] (by decide), refused, kept, by decide⟩

end Ledger

end MethodBody
