import MethodBody.Proofs.JumpMeaning
import MethodBody.Proofs.Positions
import MethodBody.Proofs.Records

/-!
# Jumps back

A jump to a label that has its place is written for the distance, and it may be written as something
else than was asked for: with a wide operand, or as the opposite branch over a wide jump. The
machine does the same in any case (`JumpsBack`), and so do the blocks: whatever is recorded about
labels is what would be recorded if the target were near (`jump_means_same_at_all_distances`).
-/

namespace MethodBody

namespace Opcode

variable {opcode : Opcode} {meaning : Meaning} {form : JumpForm}

/-- The machine knows all opcodes that jump, and it takes each of them for a jump. -/
theorem isJump_iff : opcode.isJump = true ↔ ∃ meaning, opcode.meaning? = some meaning := by
  have all : ∀ opcode : Opcode, opcode.isJump = opcode.meaning?.isSome := by decide +kernel
  rw [all opcode, Option.isSome_iff_exists]

/-- What holds of all jumps of the machine holds of an opcode with a meaning. -/
theorem forall_meanings {P : Opcode → Meaning → Prop} (all : ∀ row ∈ meanings, P row.1 row.2)
    (means : opcode.meaning? = some meaning) : P opcode meaning := by
  obtain ⟨front, back, split, -⟩ := List.lookup_eq_some_iff.mp means
  exact all (opcode, meaning) (split ▸ List.mem_append_right _ List.mem_cons_self)

/-- The branches with a narrow operand are the narrow ones. -/
theorem isNarrowBranch_iff (means : opcode.meaning? = some meaning) :
    opcode.isNarrowBranch = true ↔ meaning.width = .narrow :=
  forall_meanings
    (P := fun opcode meaning => opcode.isNarrowBranch = true ↔ meaning.width = .narrow)
    (by decide) means

/-- A jump that is not far back is written as it is. -/
theorem jumpForm?_of_near (means : opcode.meaning? = some meaning) :
    opcode.jumpForm? false = some (.plain opcode meaning.width) :=
  forall_meanings
    (P := fun opcode meaning => opcode.jumpForm? false = some (.plain opcode meaning.width))
    (by decide) means

/-- A jump that is far back is written with a wide operand. -/
theorem length_bytes_of_far (means : opcode.meaning? = some meaning)
    (chosen : opcode.jumpForm? true = some form) (source place : Nat) :
    (form.bytes source place).length ≠ 3 := by
  have all : ∀ row ∈ meanings, (row.1.jumpForm? true).all fun form =>
      form matches .plain _ .wide || form.isInverted := by
    decide
  have found := forall_meanings (P := fun opcode _ => (opcode.jumpForm? true).all fun form =>
    form matches .plain _ .wide || form.isInverted) all means
  rw [chosen, Option.all_some] at found
  rcases form with ⟨written, _ | _⟩ | inverse
  · cases found
  · simp [JumpForm.bytes, Width.size]
  · simp [JumpForm.bytes, Width.size]

/-- In whatever form a jump is written, it means what its opcode means. -/
theorem means_of_jumpForm? {far : Bool} (means : opcode.meaning? = some meaning)
    (chosen : opcode.jumpForm? far = some form) : form.means meaning = true := by
  have all : ∀ row ∈ meanings, (row.1.jumpForm? far).all fun form => form.means row.2 := by
    cases far <;> decide
  have found := forall_meanings (P := fun opcode meaning =>
    (opcode.jumpForm? far).all fun form => form.means meaning) all means
  rwa [chosen, Option.all_some] at found

end Opcode

namespace Node

/-- How far back a label is can be told from its place. -/
theorem isFarBefore_iff {node : Node} {place source : Nat} (placed : node.offset? = some place)
    (smallPlace : place < 0x8000000000000000) (smallSource : source < 0x8000000000000000) :
    node.isFarBefore source = true ↔ (place : Int) - source < -32768 := by
  rw [isFarBefore, placed]
  simp only [decide_eq_true_eq]
  rw [Offset.distance_eq_sub smallPlace smallSource]

end Node

namespace Assembler

variable {assembler : Assembler} {opcode : Opcode} {target : Label} {form : JumpForm}
  {place : Nat} {node : Node}

/-- A jump to a label that has its place is written as the bytes of its form. -/
theorem toList_emits (assembler : Assembler) (form : JumpForm)
    (known : assembler.graph.node? target = some node) (placed : node.offset? = some place) :
    (assembler.emits target form).code.toList
      = assembler.code.toList ++ form.bytes assembler.code.cursor place := by
  have operand (width : Width) (source : Nat) :
      node.operand source width = width.operand (Offset.distance place source) := by
    rw [Node.operand, placed]
  cases form with
  | plain opcode width =>
    simp [emits, refers, Assembler.operand, append, update, known, operand, JumpForm.bytes]
  | inverted inverse =>
    have source : (assembler.append (inverse :: Width.narrow.operand 8)).code.cursor
        = assembler.code.cursor + 3 := by
      simp [append, Buffer.cursor, Width.size]
    simp only [emits]
    rw [source]
    simp [refers, Assembler.operand, append, update, known, operand, JumpForm.bytes]

/-- A jump back does what it is asked for, and it is written with a narrow operand if that holds the
distance and the opcode has one. -/
structure JumpsBack (before : Assembler) (opcode : Opcode) (meaning : Meaning) (place : Nat)
    (after : Assembler) : Prop where
  /-- The code stays, and the jump is written behind it. -/
  kept : before.code.toList <+: after.code.toList
  /-- Control leaves the jump where its meaning says, and otherwise behind all that was written. -/
  leaves : ∀ stack result,
    after.code.Leaves before.code.size after.code.size ⟨before.code.size, stack⟩ result ↔
      (meaning.condition.test stack).map (meaning.land place after.code.size) = some result
  /-- The jump has three bytes if its opcode has a narrow operand and the target is near. -/
  narrow : after.code.size = before.code.size + 3 ↔
    opcode.isNarrowBranch = true ∧ -32768 ≤ (place : Int) - before.code.size
  /-- If the target is near, the jump is the opcode and the distance. -/
  near : -32768 ≤ (place : Int) - before.code.size →
    after.code.toList
      = before.code.toList ++ opcode :: meaning.width.operand (place - before.code.size)
  /-- No branch is found to be too long. -/
  widening : after.needsWidening = before.needsWidening

/-- The label is moved to another offset. -/
def relocate (assembler : Assembler) (label : Label) (offset : Nat) : Assembler :=
  assembler.update label fun node => { node with placement := .placed offset }

/-- Bytes in the form that is chosen for the distance are a jump back. -/
theorem jumpsBack_of_written {before after : Assembler} {meaning : Meaning}
    (means : opcode.meaning? = some meaning)
    (chosen : opcode.jumpForm? (node.isFarBefore before.code.size) = some form)
    (holds : form.Holds node before.code.size) (placed : node.offset? = some place)
    (behind : place ≤ before.code.size) (small : before.code.size + form.lead < 0x80000000)
    (written : after.code.toList = before.code.toList ++ form.bytes before.code.size place)
    (widening : after.needsWidening = before.needsWidening) :
    before.JumpsBack opcode meaning place after := by
  have size : after.code.size = before.code.size + (form.bytes before.code.size place).length := by
    rw [← Buffer.length_toList, written, List.length_append, Buffer.length_toList]
  have far : node.isFarBefore before.code.size = true ↔ (place : Int) - before.code.size < -32768 :=
    Node.isFarBefore_iff placed (by omega) (by omega)
  have plain (near : -32768 ≤ (place : Int) - before.code.size) :
      form = .plain opcode meaning.width := by
    have notFar : node.isFarBefore before.code.size = false := by
      rw [← Bool.not_eq_true, far]
      omega
    rw [notFar, Opcode.jumpForm?_of_near means] at chosen
    exact (Option.some.inj chosen).symm
  constructor
  case kept => exact ⟨_, written.symm⟩
  case leaves =>
    intro stack result
    have front : before.code.toList.length = before.code.size := before.code.length_toList
    rw [size, ← front]
    rw [← front] at written holds behind small
    exact JumpForm.leaves_iff (written.trans (List.append_nil _).symm)
      (Opcode.means_of_jumpForm? means chosen) holds placed behind small
  case narrow =>
    rw [size, Opcode.isNarrowBranch_iff means]
    by_cases near : -32768 ≤ (place : Int) - before.code.size
    · rw [plain near]
      cases meaning.width <;> simp [JumpForm.bytes, Width.size, near]
    · have isFar : node.isFarBefore before.code.size = true := far.mpr (by omega)
      rw [isFar] at chosen
      have wide := Opcode.length_bytes_of_far means chosen before.code.size place
      simp only [near, and_false, iff_false]
      omega
  case near =>
    intro near
    rw [written, plain near, JumpForm.bytes, Offset.distance_eq_sub (by omega) (by omega)]
  case widening => exact widening

/-- A jump finds no branch that is too long. -/
theorem needsWidening_jumps (assembler : Assembler) (opcode : Opcode) (form : JumpForm)
    (target : Label) :
    (assembler.jumps opcode form target).needsWidening = assembler.needsWidening := by
  rcases placesAtMost_jumps assembler (.jump opcode target) opcode form target with
    nothing | ⟨label, places⟩
  · exact nothing.widening
  · rcases places.asked with other | ⟨-, same⟩
    · cases other
    · exact same

/-- A jump to a label that has its place, and where no debug information keeps it from becoming a
target, goes through. -/
theorem exists_yields_jump {meaning : Meaning} (means : opcode.meaning? = some meaning)
    (known : assembler.graph.node? target = some node) (placed : node.offset? = some place)
    (ordinary : node.flags.debugOnly = false) (behind : place ≤ assembler.code.size)
    (small : assembler.code.size + 3 < 0x80000000) :
    ∃ form, (jump opcode target).Yields assembler ()
        ((assembler.update target Node.marked).jumps opcode form target) ∧
      assembler.JumpsBack opcode meaning place
        ((assembler.update target Node.marked).jumps opcode form target) := by
  have isJump := Opcode.isJump_iff.mpr ⟨meaning, means⟩
  obtain ⟨form, chosen⟩ := Opcode.exists_jumpForm? isJump (node.isFarBefore assembler.code.size)
  have lead : assembler.code.size + form.lead < 0x80000000 := by
    have short : form.lead ≤ 3 := by cases form <;> simp [JumpForm.lead]
    omega
  have before (offset : Nat) (found : node.offset? = some offset) :
      offset ≤ assembler.code.size := by
    obtain rfl := Option.some.inj (placed.symm.trans found)
    exact behind
  have holds := Opcode.holds_of_jumpForm? chosen lead before
  have allowed : node.refusesJumps = false := by rw [Node.refusesJumps, ordinary, Bool.false_and]
  obtain ⟨events, ran⟩ := run_jump isJump known allowed chosen holds
  refine ⟨form, ⟨by rw [ran], by rw [ran]⟩, ?_⟩
  have marked : (assembler.update target Node.marked).graph.node? target = some node.marked := by
    simp [update, FlowGraph.node?_update, known]
  refine jumpsBack_of_written means chosen holds placed behind lead ?_ ?_
  · rw [code_jumps, toList_emits _ form marked placed]
    rfl
  · exact needsWidening_jumps _ _ _ _

variable {settings : Settings} {slots : UInt16} {operations : List Operation}

/-- Wherever a run comes to with short code, a jump to a label that has its place and is not there
for debugging only means to the machine what its opcode means, however far back the label is. What
is recorded about the labels and the block that is open afterwards are the same as if the label were
near, and as then no branch is found to be too long. -/
theorem jump_means_same_at_all_distances (names : (start settings slots).NamesKnown operations)
    (short : ((start settings slots).afterAll operations).code.size < 0x40000000)
    (isJump : opcode.isJump = true)
    (known : ((start settings slots).afterAll operations).graph.node? target = some node)
    (placed : node.offset? = some place) (ordinary : node.flags.debugOnly = false) :
    let assembler := (start settings slots).afterAll operations
    ∃ meaning after, opcode.meaning? = some meaning ∧
      (jump opcode target).Yields assembler () after ∧
      assembler.JumpsBack opcode meaning place after ∧
      ∀ close ≤ assembler.code.size, -32768 ≤ (close : Int) - assembler.code.size →
        ∃ near, (jump opcode target).Yields (assembler.relocate target close) () near ∧
          (assembler.relocate target close).JumpsBack opcode meaning close near ∧
          after.openBlock = near.openBlock ∧
          ∀ label ≠ assembler.graph.nextLabel, after.records label = near.records label := by
  intro assembler
  obtain ⟨meaning, means⟩ := Opcode.isJump_iff.mp isJump
  have text := (IsText.start settings slots).afterAll names (by omega)
  have behind : place ≤ assembler.code.size :=
    text.behind target place (by simp [FlowGraph.offset?, known, placed])
  have small : assembler.code.size + 3 < 0x80000000 := by
    show ((start settings slots).afterAll operations).code.size + 3 < 0x80000000
    omega
  obtain ⟨form, yields, jumps⟩ := exists_yields_jump means known placed ordinary behind small
  refine ⟨meaning, _, means, yields, jumps, fun close before near => ?_⟩
  have moved : (assembler.relocate target close).graph.node? target
      = some { node with placement := .placed close } := by
    simp [relocate, update, FlowGraph.node?_update, assembler, known]
  obtain ⟨plain, yields, jumps⟩ := exists_yields_jump means moved rfl ordinary before small
  have unmoved : assembler.Alike (fun label => label ≠ assembler.graph.nextLabel)
      (assembler.relocate target close) := by
    refine .of_update assembler ?_ target
    exact fun _ => rfl
  have marked : (assembler.update target Node.marked).Alike
      (fun label => label ≠ assembler.graph.nextLabel)
      ((assembler.relocate target close).update target Node.marked) := by
    refine unmoved.update ?_ target
    exact fun _ => rfl
  have alike := marked.jumps (by simp) opcode form plain target
  exact ⟨_, yields, jumps, alike.openBlock, alike.records⟩

/-- A number of bytes at the start of a method. -/
def longWay (count : Nat) : List Operation := [.instruction (0x00 :: List.replicate count 0) 0]

/-- The number of these bytes. -/
theorem size_longWay (count : Nat) :
    ((start {} 0).afterAll (longWay count)).code.size = count + 1 := by
  have code : ((start {} 0).afterAll (longWay count)).code
      = Buffer.empty.append (0x00 :: List.replicate count 0) := rfl
  rw [code, Buffer.size_append, List.length_cons, List.length_replicate]
  exact Nat.zero_add _

/-- The start is one byte too far back for a narrow operand. The branch leads there if the topmost
integer is zero, and otherwise behind all that is written for it. -/
theorem jump_means_same_at_all_distances_longWay :
    ∃ after, (jump Opcode.ifEq .start).Yields ((start {} 0).afterAll (longWay 32768)) () after ∧
      after.code.size ≠ 32769 + 3 ∧
      after.code.Leaves 32769 after.code.size ⟨32769, [.int 0]⟩ ⟨0, []⟩ ∧
      after.code.Leaves 32769 after.code.size ⟨32769, [.int 5]⟩ ⟨after.code.size, []⟩ := by
  have size := size_longWay 32768
  have names : (start {} 0).NamesKnown (longWay 32768) := ⟨List.forall_mem_nil _, trivial⟩
  have known : ((start {} 0).afterAll (longWay 32768)).graph.node? .start
      = some { label := .start, placement := .placed 0 } := rfl
  have isJump : Opcode.isJump Opcode.ifEq = true := rfl
  obtain ⟨meaning, after, means, yields, jumps, -⟩ :=
    jump_means_same_at_all_distances names (by omega) isJump known rfl rfl
  obtain rfl : { condition := .zero .equal } = meaning := Option.some.inj means
  have leaves := jumps.leaves
  have narrow := jumps.narrow
  rw [size] at leaves narrow
  refine ⟨after, yields, fun three => ?_, (leaves _ _).mpr rfl, (leaves _ _).mpr rfl⟩
  have near := (narrow.mp three).2
  omega

end Assembler

end MethodBody
