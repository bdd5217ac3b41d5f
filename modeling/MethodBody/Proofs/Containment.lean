import MethodBody.Proofs.Finishing
import MethodBody.Proofs.Wiring

/-!
# Control stays inside the code

A method is refused if control could run off its end in the block that is open then, or if a target
has no place. That is enough to look at: in a finished method every edge leads to a block that
starts before the end of the code, and so does every jump. A block that something was written into
was left for good, or control falls out of it into the next one (`control_stays_inside`).
-/

namespace MethodBody

/-- The label is a block that starts before the end of code of the given size. -/
def FlowGraph.LiesWithin (graph : FlowGraph) (size : Nat) (label : Label) : Prop :=
  label ∈ graph.blocks ∧ ∃ offset, graph.offset? label = some offset ∧ offset < size

namespace Assembler

variable {past : List Moment} {assembler first second third before after : Assembler}
  {label : Label} {operation : Operation}

/-- No block is given up, and no label gets another place. -/
structure Keeps (before after : Assembler) : Prop where
  /-- A block stays one. -/
  blocks : ∀ label ∈ before.graph.blocks, label ∈ after.graph.blocks
  /-- A label keeps its offset. -/
  offsets : ∀ label offset, before.graph.offset? label = some offset →
    after.graph.offset? label = some offset

namespace Keeps

/-- Nothing happens. -/
theorem refl (assembler : Assembler) : assembler.Keeps assembler :=
  ⟨fun _ member => member, fun _ _ found => found⟩

/-- Blocks and places are kept in two steps. -/
theorem trans (one : first.Keeps second) (two : second.Keeps third) : first.Keeps third :=
  ⟨fun label member => two.blocks label (one.blocks label member),
    fun label offset found => two.offsets label offset (one.offsets label offset found)⟩

/-- The open block stays open. -/
theorem of_stays (same : before.Stays after) : before.Keeps after :=
  ⟨fun _ member => by rw [same.blocks]; exact member, same.offsets⟩

/-- The open block is closed. -/
theorem closeBlock (assembler : Assembler) : assembler.Keeps assembler.closeBlock :=
  ⟨fun _ member => by rw [blocks_closeBlock]; exact member,
    fun _ _ found => by rw [offset?_closeBlock]; exact found⟩

/-- A block starts. -/
theorem startBlock (assembler : Assembler) (label : Label) :
    assembler.Keeps (assembler.startBlock label) :=
  ⟨fun _ member => by rw [blocks_startBlock]; exact Array.mem_push.mpr (.inl member),
    fun _ _ found => by rw [offset?_startBlock]; exact found⟩

/-- The open block is closed with a return from a subroutine. -/
theorem endSubroutine (assembler : Assembler) : assembler.Keeps assembler.endSubroutine := by
  unfold Assembler.endSubroutine
  split
  · exact refl assembler
  · refine (closeBlock assembler).trans ⟨fun _ member => member, ?_⟩
    exact FlowGraph.offset?_update _ _ fun _ _ _ placed => placed

/-- The open block ends with a call, and the continuation starts. -/
theorem calls (assembler : Assembler) (block : OpenBlock) (entry : Label) :
    assembler.Keeps (assembler.calls block entry) := by
  rw [calls_eq]
  have linked : (assembler.enters entry).Keeps ((assembler.enters entry).leavesTo block entry) :=
    ⟨fun _ member => member, fun _ _ found => by rw [offset?_leavesTo]; exact found⟩
  obtain ⟨settled, stays, _, _, _, started⟩ :=
    ((assembler.enters entry).leavesTo block entry).exists_of_goesOn
      (show ({} : Flags).callsSubroutine = false from rfl) rfl
  rw [started]
  exact ((of_stays (.enters assembler entry)).trans linked).trans
    ((of_stays stays).trans (startBlock settled _))

/-- Whatever an operation does, it keeps blocks and places. -/
theorem of_moves (moves : before.Moves operation after) : before.Keeps after := by
  cases moves with
  | stays same => exact of_stays same
  | @ends middle block same opened leaves longer ended =>
    rcases ended with rfl | rfl
    · exact (of_stays same).trans (closeBlock middle)
    · exact (of_stays same).trans (endSubroutine middle)
  | @starts middle label same fresh placed started =>
    exact (of_stays same).trans (started ▸ startBlock middle label)
  | @calls middle block opcode entry same opened kept jumps isCall target called =>
    exact (of_stays same).trans (called ▸ calls middle block entry)

/-- A run keeps blocks and places. -/
theorem afterAll (assembler : Assembler) (operations : List Operation) :
    assembler.Keeps (assembler.afterAll operations) := by
  induction operations generalizing assembler with
  | nil => exact refl assembler
  | cons operation rest ih => exact (of_moves (moves_after assembler operation)).trans (ih _)

end Keeps

/-- A moment of a run comes after the operations before it, and the others come after it. -/
theorem exists_of_mem_history {operations : List Operation} {moment : Moment}
    (member : moment ∈ assembler.history operations) : ∃ earlier later,
      moment.before = assembler.afterAll earlier ∧
        assembler.afterAll operations = moment.after.afterAll later := by
  induction operations generalizing assembler with
  | nil => simp [history] at member
  | cons operation rest ih =>
    rcases List.mem_cons.mp member with rfl | later
    · exact ⟨[], rest, rfl, rfl⟩
    · obtain ⟨earlier, others, before, after⟩ := ih later
      exact ⟨operation :: earlier, others, before, after⟩

/-- A block that something was written into while it was open lies before the end of the code. -/
theorem liesWithin_of_written {settings : Settings} {slots : UInt16} {operations : List Operation}
    {moment : Moment} (member : moment ∈ (start settings slots).history operations)
    (opened : moment.before.openBlock.map OpenBlock.label = some label)
    (written : moment.before.code.size < moment.after.code.size) :
    ((start settings slots).afterAll operations).graph.LiesWithin
      ((start settings slots).afterAll operations).code.size label := by
  obtain ⟨earlier, later, before, after⟩ := exists_of_mem_history member
  have wired := (wired_afterAll settings slots earlier).1
  rw [← before] at wired
  obtain ⟨block, found, rfl⟩ := Option.map_eq_some_iff.mp opened
  have inside := wired.mem_blocks (isOpen_of_openBlock found)
  obtain ⟨offset, placed, behind⟩ := wired.placed _ inside
  have keeps : moment.before.Keeps (moment.after.afterAll later) :=
    (Keeps.of_moves (moves_after moment.before moment.operation)).trans (.afterAll _ later)
  have size := size_le_afterAll moment.after later
  rw [after]
  exact ⟨keeps.blocks _ inside, offset, keeps.offsets _ _ placed, by omega⟩

/-- If the method is complete, nothing leads to the open block, and the block is empty. -/
theorem Wired.of_unfinishedBlock?_eq_none (wired : assembler.Wired past)
    (complete : assembler.unfinishedBlock? = none) {block : OpenBlock}
    (opened : assembler.openBlock = some block) :
    block.isFallenInto = false ∧ ¬ assembler.graph.IsTarget block.label ∧
      assembler.graph.offset? block.label = some assembler.code.size := by
  obtain ⟨node, known⟩ := Option.isSome_iff_exists.mp
    (wired.isSome_node? (isOpen_of_openBlock opened))
  unfold unfinishedBlock? at complete
  simp only [opened, known, Option.bind_eq_bind, Option.bind_some] at complete
  split at complete
  · rename_i safe
    simp only [Bool.and_eq_true, decide_eq_true_eq, Bool.not_eq_true'] at safe
    obtain ⟨⟨placed, notFallen⟩, unmarked⟩ := safe
    refine ⟨notFallen, ?_, by simpa [FlowGraph.offset?, known, Buffer.cursor] using placed⟩
    rintro ⟨other, found, marked⟩
    obtain rfl : node = other := Option.some.inj (known.symm.trans found)
    simp [unmarked] at marked
  · simp at complete

section Complete

variable (wired : assembler.Wired past) (anchored : assembler.Anchored true none)
  (complete : assembler.unfinished? = none)

include wired complete

/-- In a complete method, every block that is not open lies before the end. -/
theorem liesWithin_of_mem (block : label ∈ assembler.graph.blocks)
    (closed : ¬ assembler.IsOpen label) :
    assembler.graph.LiesWithin assembler.code.size label := by
  refine ⟨block, ?_⟩
  rcases wired.before label block with isOpen | ⟨other, fallen⟩ | before
  · exact absurd isOpen closed
  · obtain ⟨open_, opened, _⟩ := IsOpen.exists_openBlock ⟨true, fallen⟩
    have settled := wired.of_unfinishedBlock?_eq_none (of_unfinished?_eq_none complete).1 opened
    simp [openLabel?, opened, settled.1] at fallen
  · exact before

/-- In a complete method, a block before the end was left for good, or control falls out of it. -/
theorem leaves_or_fallsOn (within : assembler.graph.LiesWithin assembler.code.size label) :
    (∃ moment ∈ past, moment.Leaves label) ∨ assembler.graph.FallsOn label := by
  obtain ⟨block, offset, placed, before⟩ := within
  refine (wired.passed label block).resolve_left fun isOpen => ?_
  obtain ⟨open_, opened, rfl⟩ := isOpen.exists_openBlock
  have settled := wired.of_unfinishedBlock?_eq_none (of_unfinished?_eq_none complete).1 opened
  obtain rfl := Option.some.inj (placed.symm.trans settled.2.2)
  exact Nat.lt_irrefl _ before

include anchored

/-- In a complete method, every target is a block before the end. -/
theorem liesWithin_of_isTarget (target : assembler.graph.IsTarget label) :
    assembler.graph.LiesWithin assembler.code.size label := by
  obtain ⟨unopened, unplaced, _⟩ := of_unfinished?_eq_none complete
  obtain ⟨node, known, marked⟩ := id target
  have isPlaced := (of_unplacedTargets_eq_nil unplaced known).2 marked
  obtain ⟨offset, found⟩ := Option.isSome_iff_exists.mp isPlaced
  have placed : assembler.graph.offset? label = some offset := by
    simp [FlowGraph.offset?, known, found]
  refine liesWithin_of_mem wired complete (anchored.isBlock target placed) fun isOpen => ?_
  obtain ⟨block, opened, rfl⟩ := isOpen.exists_openBlock
  exact (wired.of_unfinishedBlock?_eq_none unopened opened).2.1 target

/-- In a complete method, every edge leads to a block before the end. -/
theorem liesWithin_of_mem_edgesOf {edge : Edge} (member : edge ∈ assembler.graph.edgesOf label) :
    assembler.graph.LiesWithin assembler.code.size edge.successor := by
  rcases wired.leads label edge member with target | ⟨block, notStarted⟩
  · exact liesWithin_of_isTarget wired anchored complete target
  · refine liesWithin_of_mem wired complete block fun isOpen => ?_
    obtain ⟨open_, opened, same⟩ := isOpen.exists_openBlock
    have settled := wired.of_unfinishedBlock?_eq_none (of_unfinished?_eq_none complete).1 opened
    exact notStarted (by simp [openLabel?, opened, settled.1, same])

end Complete

variable {settings : Settings} {slots : UInt16} {operations : List Operation} {code : MethodCode}

/-- In a finished method, every edge and every target is a block that starts before the end of the
code. A block that something was written into was left for good with an instruction that never goes
on, or control falls out of it into the block behind it. -/
theorem control_stays_inside
    (finished : (finish.run ((start settings slots).afterAll operations)).answer = .ok code) :
    (∀ label, ∀ edge ∈ code.graph.edgesOf label,
      code.graph.LiesWithin code.code.size edge.successor) ∧
    (∀ label, code.graph.IsTarget label → code.graph.LiesWithin code.code.size label) ∧
    ∀ moment ∈ (start settings slots).history operations, ∀ label,
      moment.before.openBlock.map OpenBlock.label = some label →
        moment.before.code.size < moment.after.code.size →
          label ∈ code.graph.blocks ∧
            ((∃ last ∈ (start settings slots).history operations, last.Leaves label) ∨
              code.graph.FallsOn label) := by
  obtain ⟨handled, returned, finishes⟩ := exists_finishes finished
  have wired := (wired_afterAll settings slots operations).1
  have anchored := anchored_afterAll settings slots operations
  have complete := finishes.complete
  have changes := finishes.changesTo
  have blocks := changes.blocks_eq
  have same (label : Label) (within : ((start settings slots).afterAll operations).graph.LiesWithin
      ((start settings slots).afterAll operations).code.size label) :
      code.graph.LiesWithin code.code.size label := by
    rw [FlowGraph.LiesWithin, blocks, finishes.offset?_eq, finishes.code_eq]
    exact within
  refine ⟨changes.leads ?_ ?_, ?_, ?_⟩
  · intro label registered
    obtain ⟨handler, member, rfl⟩ := List.mem_map.mp registered
    exact same _ (liesWithin_of_isTarget wired anchored complete
      (anchored.handlers handler (Array.mem_toList_iff.mp member)))
  · exact fun label edge member =>
      same _ (liesWithin_of_mem_edgesOf wired anchored complete member)
  · exact fun label target =>
      same _ (liesWithin_of_isTarget wired anchored complete (changes.isTarget target))
  · intro moment member label opened written
    have within := liesWithin_of_written member opened written
    refine ⟨(same _ within).1, (leaves_or_fallsOn wired complete within).imp_right ?_⟩
    exact FlowGraph.FallsOn.congr (fun _ => FlowGraph.IsNext.congr blocks)
      fun edge => changes.mem_edgesOf

/-- A loop that is left by a branch, and by exceptions. -/
def guardedLoop : List Operation :=
  [.freshLabel, .instruction [0x03] 1, .jump Opcode.ifEq ⟨1⟩, .jump Opcode.goto .start, .place ⟨1⟩,
    .addHandler ⟨.start, ⟨1⟩, ⟨1⟩, 0⟩, .instruction [0xb1] 0]

/-- The edges of the loop lead to its handler, into the block behind the branch, and out of it. All
of these start before the end, and so does every target. -/
theorem control_stays_inside_guardedLoop :
    ∃ code, (finish.run ((start { computeMaxima := false } 0).afterAll guardedLoop)).answer
        = .ok code ∧ code.code.size = 8 ∧
      code.graph.edgesOf .start = [⟨.exception, ⟨1⟩⟩, ⟨.jump 0, ⟨2⟩⟩, ⟨.jump 0, ⟨1⟩⟩] ∧
      (∀ label, ∀ edge ∈ code.graph.edgesOf label, code.graph.LiesWithin 8 edge.successor) ∧
      (∀ label, code.graph.IsTarget label → code.graph.LiesWithin 8 label) ∧
      ∀ moment ∈ (start { computeMaxima := false } 0).history guardedLoop, ∀ label,
        moment.before.openBlock.map OpenBlock.label = some label →
          moment.before.code.size < moment.after.code.size →
            label ∈ code.graph.blocks ∧
              ((∃ last ∈ (start { computeMaxima := false } 0).history guardedLoop,
                last.Leaves label) ∨ code.graph.FallsOn label) := by
  obtain ⟨code, found, size, edges⟩ :
      ∃ code ∈ (finish.run ((start { computeMaxima := false } 0).afterAll
          guardedLoop)).answer.toOption, code.code.size = 8 ∧
        code.graph.edgesOf .start = [⟨.exception, ⟨1⟩⟩, ⟨.jump 0, ⟨2⟩⟩, ⟨.jump 0, ⟨1⟩⟩] := by
    decide +kernel
  have finished := eq_ok_of_mem_toOption found
  have inside := control_stays_inside finished
  rw [size] at inside
  exact ⟨code, finished, size, edges, inside⟩

end Assembler

end MethodBody
