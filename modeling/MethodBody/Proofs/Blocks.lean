import MethodBody.Proofs.Layout
import MethodBody.Proofs.Relocation
import MethodBody.Proofs.Sizes

/-!
# How operations lay out blocks

Each operation of a run in which none fails, and none calls a subroutine, keeps the layout
(`HasLayout.performs`): it writes into the last passage, ends it, or begins a new one. So a whole
run has a layout (`HasLayout.afterAll`).
-/

namespace MethodBody

/-- The operation calls a subroutine. -/
def Operation.isCall : Operation → Bool
  | jump opcode _ => opcode.base == Opcode.jsr
  | _ => false

/-- A jump does to the stack what its narrow form does. -/
theorem Opcode.jumpDelta_base {opcode : Opcode} (jumps : opcode.isJump = true) :
    opcode.base.jumpDelta = opcode.jumpDelta := by
  have all : ∀ opcode : Opcode, opcode.isJump = true →
      opcode.base.jumpDelta = opcode.jumpDelta := by
    decide +kernel
  exact all opcode jumps

/-- A jump that calls no subroutine is conditional, unless it is a plain one. -/
theorem Opcode.isConditional_iff {opcode : Opcode} (jumps : opcode.isJump = true)
    (noCall : opcode.base ≠ jsr) : opcode.isConditional = true ↔ opcode.base ≠ goto := by
  have all : ∀ opcode : Opcode, opcode.isJump = true → opcode.base ≠ jsr →
      (opcode.isConditional = true ↔ opcode.base ≠ goto) := by
    decide +kernel
  exact all opcode jumps noCall

namespace Assembler

variable {assembler after : Assembler} {listing : List Listed} {ended : List Passage}
  {current? : Option Passage} {passage : Passage} {listed : Listed} {exactly : Prop}

/-- Nothing that has been written so far says where a new label lies. -/
theorem quiet_settle (assembler : Assembler) {label : Label} {node : Node}
    (known : assembler.graph.node? label = some node) (unplaced : node.isPlaced = false)
    (code : Buffer) (rewritten : Bool) :
    FlowGraph.Quiet assembler.graph (assembler.settle label node code rewritten).graph := by
  have same := FlowGraph.update_const known fun node =>
    { node with placement := .placed assembler.code.cursor }
  unfold settle
  simp only
  rw [same]
  refine FlowGraph.quiet_update _ _ (fun _ => rfl) (fun _ => rfl) ?_ fun _ marked => marked
  intro other found offset place
  obtain rfl : node = other := by simpa [known] using found
  simp [Node.isPlaced, place] at unplaced

/-- A label that is placed lies at the cursor. -/
theorem offset?_settle (assembler : Assembler) {label : Label} {node : Node}
    (known : assembler.graph.node? label = some node) (code : Buffer) (rewritten : Bool) :
    (assembler.settle label node code rewritten).graph.offset? label
      = some assembler.code.size := by
  simp [settle, FlowGraph.offset?, FlowGraph.node?_update, known, Node.offset?, Buffer.cursor]

/-- An edge lets targets be targets. -/
theorem isTarget_addEdge (assembler : Assembler) (successor label : Label)
    (marked : assembler.graph.IsTarget label) :
    (assembler.addEdge successor).graph.IsTarget label := by
  unfold addEdge
  split
  · exact marked
  · apply FlowGraph.isTarget_update
    · exact fun _ marked => marked
    · exact marked

/-- An edge adds no label and removes none. -/
theorem isSome_node?_addEdge (assembler : Assembler) (successor label : Label) :
    ((assembler.addEdge successor).graph.node? label).isSome
      = (assembler.graph.node? label).isSome := by
  unfold addEdge
  split
  · rfl
  · exact FlowGraph.isSome_node?_update _ _ _ _

/-- Nothing happens to the blocks, nor to the one that is open. -/
def Quiet (before after : Assembler) : Prop :=
  FlowGraph.Quiet before.graph after.graph ∧ after.openBlock = before.openBlock

/-- Two quiet steps in a row are quiet. -/
theorem Quiet.trans {first second third : Assembler} (one : first.Quiet second)
    (two : second.Quiet third) : first.Quiet third :=
  ⟨one.1.trans two.1, two.2.trans one.2⟩

/-- Appending bytes is quiet. -/
theorem quiet_append (assembler : Assembler) (bytes : List UInt8) :
    assembler.Quiet (assembler.append bytes) :=
  ⟨FlowGraph.Quiet.refl _, rfl⟩

/-- Marking a label as a target is quiet. -/
theorem quiet_marked (assembler : Assembler) (label : Label) :
    assembler.Quiet (assembler.update label Node.marked) :=
  ⟨FlowGraph.quiet_update _ _ (fun _ => rfl) (fun _ => rfl) (fun _ _ _ placed => placed)
    fun _ _ => rfl, rfl⟩

namespace LaidOut

/-- A label without an offset is no block. -/
theorem not_mem_of_unplaced (laid : assembler.LaidOut listing ended current?) {label : Label}
    (unplaced : assembler.graph.offset? label = none) :
    label ∉ (ended ++ current?.toList).map Passage.label := by
  intro member
  obtain ⟨passage, inside, rfl⟩ := List.mem_map.mp member
  simp [laid.offsets passage inside] at unplaced

/-- A block starts at a label that has just been placed. The block before falls into it, if it is
open. -/
theorem startBlock (laid : assembler.LaidOut listing ended (some passage)) {label : Label}
    (linked : passage.Linked)
    (goesOn : passage.last?.all (fun listed => listed.instruction.continues) = true)
    (targets : ∀ label ∈ passage.targets, assembler.graph.IsTarget label)
    (fresh : label ∉ (ended ++ [passage]).map Passage.label)
    (placed : assembler.graph.offset? label = some assembler.code.size) :
    (assembler.startBlock label).LaidOut listing (ended ++ [passage.fallInto label])
      (some { label, offset := assembler.code.size }) := by
  obtain ⟨block, found, _, _, _⟩ := laid.exists_openBlock
  have left := laid.link label (some label)
  have marked : ∀ target ∈ (passage.fallInto label).targets,
      (assembler.addEdge label).graph.IsTarget target :=
    fun target named => isTarget_addEdge assembler label target (targets target named)
  have closed := left.close (linked.ends_fallInto goesOn label) marked
  have size : (assembler.addEdge label).closeBlock.code.size = assembler.code.size := by simp
  have place : (assembler.addEdge label).closeBlock.graph.offset? label
      = some assembler.code.size := by
    rw [← placed]
    refine congrFun (FlowGraph.offset?_congr ?_) label
    rw [placement?_closeBlock, placement?_addEdge]
  have falls : ∀ last ∈ (ended ++ [passage.fallInto label]).getLast?, ∀ next,
      last.next? = some next → next = label ∧
        (assembler.addEdge label).closeBlock.code.size = last.stop := by
    intro last is next goes
    obtain rfl : passage.fallInto label = last := by simpa using is
    obtain rfl : label = next := Option.some.inj goes
    rw [size]
    exact ⟨rfl, (laid.stop passage rfl).symm⟩
  have new : label ∉ (ended ++ [passage.fallInto label]).map Passage.label := by
    simpa [Passage.fallInto, Passage.link] using fresh
  have opened := closed.openAt new (place.trans (congrArg some size.symm)) falls true
  rw [size] at opened
  unfold Assembler.startBlock
  rw [found]
  exact opened

/-- A block at a label of its own starts. The block before falls into it. -/
theorem goesOn (laid : assembler.LaidOut listing ended (some passage)) (flags : Flags)
    (linked : passage.Linked)
    (goes : passage.last?.all (fun listed => listed.instruction.continues) = true)
    (targets : ∀ label ∈ passage.targets, assembler.graph.IsTarget label) :
    (assembler.goesOn flags).LaidOut listing
      (ended ++ [passage.fallInto assembler.graph.nextLabel])
      (some { label := assembler.graph.nextLabel, offset := assembler.code.size }) := by
  let label := assembler.graph.nextLabel
  let created := { assembler with graph := assembler.graph.create flags }
  have known : created.graph.node? label = some { label, flags } := by
    simp [created, label, FlowGraph.node?_create]
  have quietly := (assembler.graph.quiet_create flags).trans
    (quiet_settle created known rfl assembler.code false)
  have settled : (created.settle label { label, flags } assembler.code false).LaidOut listing ended
      (some passage) := laid.quiet quietly rfl rfl
  have fresh : label ∉ (ended ++ (some passage).toList).map Passage.label :=
    laid.not_mem_of_unplaced (by simp [label, FlowGraph.offset?])
  exact settled.startBlock linked goes (fun target named =>
    quietly.targets _ (targets target named))
    fresh (offset?_settle created known assembler.code false)

/-- A label is placed. A block starts there, unless only debug information refers to it. -/
theorem placed (laid : assembler.LaidOut listing ended current?)
    (settled : Settled ended current?) {label : Label} {node : Node} {code : Buffer}
    {rewritten : Bool} (known : assembler.graph.node? label = some node)
    (unplaced : node.isPlaced = false) (size : code.size = assembler.code.size) :
    ∃ ended' current?',
      (assembler.placed label node code rewritten).LaidOut listing ended' current?' ∧
      Settled ended' current?' ∧ (AllExact ended current? → AllExact ended' current?') := by
  have after : (assembler.settle label node code rewritten).LaidOut listing ended current? :=
    laid.quiet (quiet_settle assembler known unplaced code rewritten) rfl size
  have cursor : (assembler.settle label node code rewritten).code.size = assembler.code.size := size
  have offset : (assembler.settle label node code rewritten).graph.offset? label
      = some (assembler.settle label node code rewritten).code.size := by
    rw [cursor]
    exact offset?_settle assembler known code rewritten
  have fresh : label ∉ (ended ++ current?.toList).map Passage.label :=
    laid.not_mem_of_unplaced (by simpa [FlowGraph.offset?, known, Node.isPlaced] using unplaced)
  unfold Assembler.placed
  simp only
  split
  · exact ⟨ended, current?, after, settled, id⟩
  · cases current? with
    | none =>
      have falls : ∀ last ∈ ended.getLast?, ∀ next, last.next? = some next → next = label ∧
          (assembler.settle label node code rewritten).code.size = last.stop := by
        intro last is next goes
        simp [settled.last rfl last is] at goes
      have started := after.openAt (by simpa using fresh) offset falls false
      have alone : (assembler.settle label node code rewritten).startBlock label
          = (assembler.settle label node code rewritten).openAt label false := by
        unfold Assembler.startBlock
        rw [after.openBlock_eq_none]
      rw [alone]
      exact ⟨ended, _, started, settled_start _ _ _, fun exactly => exactly.openAt _ _⟩
    | some passage =>
      have undecided := settled.fresh passage rfl
      have fallen (exactly : AllExact ended (some passage)) :
          AllExact ended (some (passage.fallInto label)) :=
        exactly.exchange rfl
      exact ⟨_, _, after.startBlock undecided.linked (by simp [undecided.last])
        (by simp [Passage.targets, undecided.last]) fresh offset, settled_start _ _ _,
        fun exactly => (fallen exactly).close.openAt _ _⟩

/-- An instruction is written into the passage, if there is one that is being written. -/
theorem wrote (laid : assembler.LaidOut listing ended current?) (settled : Settled ended current?)
    (here : listed.offset = assembler.code.size)
    (same : FlowGraph.Quiet assembler.graph after.graph)
    (opened : after.openBlock = assembler.openBlock.map (·.adjust listed.instruction.delta))
    (size : after.code.size = listed.stop) :
    after.LaidOut (listing ++ [listed]) ended (current?.map (·.add listed)) := by
  cases current? with
  | some passage => exact laid.write (settled.fresh passage rfl).last here same opened size
  | none =>
    have closed : after.openBlock = none := by rw [opened, laid.openBlock_eq_none]; rfl
    refine laid.skip same closed ?_ [listed]
    rw [size, ← here]
    exact Nat.le_add_right _ _

/-- Edges are added to the passage that is being written. -/
theorem leadsTo (laid : assembler.LaidOut listing ended (some passage)) (targets : List Label) :
    (assembler.leadsTo targets).LaidOut listing ended (some (passage.linkAll targets)) := by
  induction targets generalizing assembler passage with
  | nil => exact laid
  | cons target rest ih =>
    have marked : (assembler.update target Node.marked).LaidOut listing ended (some passage) :=
      laid.quiet (assembler.quiet_marked target).1 rfl rfl
    exact ih (marked.link target passage.next?)

end LaidOut

/-- Noting that a label bounds a range is quiet. -/
theorem quiet_bounded (assembler : Assembler) (label : Label) :
    assembler.Quiet (assembler.update label Node.bounded) := by
  refine ⟨FlowGraph.quiet_update _ _ ?_ ?_ ?_ ?_, rfl⟩
  · intro node
    unfold Node.bounded
    split <;> rfl
  · intro node
    unfold Node.bounded
    split <;> rfl
  · intro node _ offset placed
    unfold Node.bounded
    split <;> exact placed
  · intro node marked
    unfold Node.bounded
    split <;> exact marked

/-- Attaching a line is quiet. -/
theorem quiet_addLine (assembler : Assembler) (label : Label) (line : UInt16) :
    assembler.Quiet (assembler.update label (·.addLine line)) :=
  ⟨FlowGraph.quiet_update _ _ (fun _ => rfl) (fun _ => rfl) (fun _ _ _ placed => placed)
    fun _ marked => marked, rfl⟩

/-- Writing the distance to a label is quiet. -/
theorem quiet_refers (assembler : Assembler) (target : Label) (source : Nat) (width : Width) :
    assembler.Quiet (assembler.refers target source width) := by
  refine ⟨FlowGraph.quiet_update assembler.graph target ?_ ?_ ?_ ?_, rfl⟩
  · intro node
    unfold Node.referred
    split <;> rfl
  · intro node
    unfold Node.referred
    split <;> rfl
  · intro node _ offset placed
    rw [Node.offset?_referred]
    exact placed
  · intro node marked
    unfold Node.referred
    split <;> exact marked

/-- Writing the distances to several labels is quiet. -/
theorem quiet_refersAll (assembler : Assembler) (targets : List Label) (source : Nat) :
    assembler.Quiet (assembler.refersAll targets source) := by
  induction targets generalizing assembler with
  | nil => exact ⟨FlowGraph.Quiet.refl _, rfl⟩
  | cons target rest ih => exact (assembler.quiet_refers target source .wide).trans (ih _)

/-- Writing a jump is quiet. -/
theorem quiet_emits (assembler : Assembler) (target : Label) (form : JumpForm) :
    assembler.Quiet (assembler.emits target form) := by
  cases form with
  | plain opcode width => exact (assembler.quiet_append [opcode]).trans (quiet_refers _ _ _ _)
  | inverted inverse =>
    exact (assembler.quiet_append _).trans ((quiet_append _ [Opcode.gotoWide]).trans
      (quiet_refers _ _ _ _))

/-- Writing the head of a switch is quiet. -/
theorem quiet_beginsSwitch (assembler : Assembler) (opcode : Opcode) (fallback : Label) :
    assembler.Quiet (assembler.beginsSwitch opcode fallback) :=
  have headed : assembler.Quiet (assembler.append [opcode]).aligned :=
    ⟨FlowGraph.Quiet.refl _, rfl⟩
  headed.trans (quiet_refers _ _ _ _)

/-- Writing a switch over consecutive keys is quiet. -/
theorem quiet_emitsTable (assembler : Assembler) (low high : Int32) (fallback : Label)
    (targets : List Label) :
    assembler.Quiet (assembler.emitsTable low high fallback targets) :=
  (assembler.quiet_beginsSwitch _ fallback).trans ((quiet_append _ _).trans
    ((quiet_append _ _).trans (quiet_refersAll _ targets _)))

/-- Writing a switch over any keys is quiet. -/
theorem quiet_emitsLookup (assembler : Assembler) (fallback : Label) (cases : List Case) :
    assembler.Quiet (assembler.emitsLookup fallback cases) := by
  have written (before : Assembler) (rest : List Case) (source : Nat) :
      before.Quiet (rest.foldl (fun after one => after.emitsCase source one) before) := by
    induction rest generalizing before with
    | nil => exact ⟨FlowGraph.Quiet.refl _, rfl⟩
    | cons one rest ih =>
      exact (before.quiet_append _).trans ((quiet_refers _ one.target source .wide).trans (ih _))
  exact (assembler.quiet_beginsSwitch _ fallback).trans ((quiet_append _ _).trans
    (written _ cases _))

/-- Without an open block there is nothing to add an edge to. -/
theorem addEdge_of_none (closed : assembler.openBlock = none) (successor : Label) :
    assembler.addEdge successor = assembler := by
  unfold addEdge
  rw [closed]

/-- An edge leaves the open block. -/
theorem addEdge_of_some {block : OpenBlock} (opened : assembler.openBlock = some block)
    (successor : Label) : assembler.addEdge successor
      = assembler.update block.label (·.prepend ⟨.jump block.height, successor⟩) := by
  unfold addEdge
  split
  · rename_i closed
    cases closed.symm.trans opened
  · rename_i other known
    obtain rfl := Option.some.inj (known.symm.trans opened)
    rfl

/-- Without an open block, leading control to labels is quiet. -/
theorem quiet_leadsTo (closed : assembler.openBlock = none) (targets : List Label) :
    assembler.Quiet (assembler.leadsTo targets) := by
  induction targets generalizing assembler with
  | nil => exact ⟨FlowGraph.Quiet.refl _, rfl⟩
  | cons target rest ih =>
    have marked : (assembler.update target Node.marked).openBlock = none := closed
    unfold leadsTo
    rw [List.foldl_cons, addEdge_of_none marked]
    exact (assembler.quiet_marked target).trans (ih marked)

/-- Leading control to labels lets targets be targets. -/
theorem isTarget_leadsTo_of_isTarget {targets : List Label} {label : Label}
    (marked : assembler.graph.IsTarget label) :
    (assembler.leadsTo targets).graph.IsTarget label := by
  induction targets generalizing assembler with
  | nil => exact marked
  | cons target rest ih =>
    exact ih
      (isTarget_addEdge _ target label ((assembler.quiet_marked target).1.targets label marked))

/-- A label that is marked is a target. -/
theorem isTarget_marked {label : Label} (known : (assembler.graph.node? label).isSome) :
    (assembler.update label Node.marked).graph.IsTarget label := by
  obtain ⟨node, found⟩ := Option.isSome_iff_exists.mp known
  exact ⟨node.marked, by simp [update, FlowGraph.node?_update, found], rfl⟩

/-- The labels that control is led to are targets. -/
theorem isTarget_leadsTo {targets : List Label}
    (known : ∀ target ∈ targets, (assembler.graph.node? target).isSome) :
    ∀ target ∈ targets, (assembler.leadsTo targets).graph.IsTarget target := by
  induction targets generalizing assembler with
  | nil => simp
  | cons target rest ih =>
    have first := isTarget_marked (known target List.mem_cons_self)
    have knownOthers : ∀ other ∈ rest,
        ((((assembler.update target Node.marked).addEdge target).graph).node? other).isSome := by
      intro other inside
      rw [isSome_node?_addEdge]
      simpa [update] using known other (List.mem_cons_of_mem _ inside)
    intro label member
    rcases List.mem_cons.mp member with rfl | later
    · have led : (((assembler.update label Node.marked).addEdge label).leadsTo rest).graph.IsTarget
          label := isTarget_leadsTo_of_isTarget (isTarget_addEdge _ label label first)
      exact led
    · exact ih knownOthers label later

/-- The stack height of the open block, if there is one, does not wrap around when it changes. -/
def AdjustsExactly (assembler : Assembler) (delta : Int32) : Prop :=
  ∀ block ∈ assembler.openBlock, AddsExactly block.height delta

/-- The stack height of the open block does not wrap around when the operation writes an
instruction. -/
def WritesExactly (assembler : Assembler) (operation : Operation) : Prop :=
  ∀ listed ∈ assembler.listed? operation, assembler.AdjustsExactly listed.instruction.delta

instance (assembler : Assembler) (operation : Operation) :
    Decidable (assembler.WritesExactly operation) :=
  inferInstanceAs (Decidable (∀ listed ∈ assembler.listed? operation,
    ∀ block ∈ assembler.openBlock, AddsExactly block.height listed.instruction.delta))

/-- No stack height wraps around while a method is written. -/
def WritesAllExactly (assembler : Assembler) : List Operation → Prop
  | [] => True
  | operation :: rest =>
    assembler.WritesExactly operation ∧ (assembler.after operation).WritesAllExactly rest

/-- Whether a stack height wraps around can be decided operation by operation. -/
instance decidableWritesAllExactly : (assembler : Assembler) → (operations : List Operation) →
    Decidable (assembler.WritesAllExactly operations)
  | _, [] => .isTrue trivial
  | assembler, operation :: rest =>
    have := decidableWritesAllExactly (assembler.after operation) rest
    inferInstanceAs (Decidable (_ ∧ _))

/-- The heights in the passage that is being written do not wrap around when an instruction is
written, if the height of the open block does not. -/
theorem LaidOut.allExact_wrote (laid : assembler.LaidOut listing ended current?)
    (settled : Settled ended current?) (exactly : AllExact ended current?)
    (adjusts : assembler.AdjustsExactly listed.instruction.delta) :
    AllExact ended (current?.map (·.add listed)) := by
  cases current? with
  | none => exact exactly
  | some passage =>
    obtain ⟨block, opened, -, height, -⟩ := laid.exists_openBlock
    obtain ⟨others, own⟩ := List.forall_mem_append.mp exactly
    refine List.forall_mem_append.mpr ⟨others, List.forall_mem_singleton.mpr ?_⟩
    refine (List.forall_mem_singleton.mp own).add (settled.fresh passage rfl).last ?_
    exact height ▸ adjusts block opened

/-- The run so far has a layout, in which no stack height wraps around as long as none did when it
was written. -/
def HasLayout (assembler : Assembler) (listing : List Listed) (exactly : Prop) : Prop :=
  ∃ ended current?, assembler.LaidOut listing ended current? ∧ Settled ended current? ∧
    (exactly → AllExact ended current?)

/-- Less is known about heights. -/
theorem HasLayout.mono {less : Prop} (layout : assembler.HasLayout listing exactly)
    (fewer : less → exactly) : assembler.HasLayout listing less := by
  obtain ⟨ended, current?, laid, settled, heights⟩ := layout
  exact ⟨ended, current?, laid, settled, heights ∘ fewer⟩

/-- Quiet steps that write nothing keep the layout. -/
theorem HasLayout.quiet (layout : assembler.HasLayout listing exactly)
    (same : assembler.Quiet after) (size : after.code.size = assembler.code.size) :
    after.HasLayout listing exactly := by
  obtain ⟨ended, current?, laid, settled, heights⟩ := layout
  exact ⟨ended, current?, laid.quiet same.1 same.2 size, settled, heights⟩

/-- An instruction that control goes straight through is written. -/
theorem HasLayout.straight (layout : assembler.HasLayout listing exactly)
    (straight : listed.instruction.isStraight = true) (here : listed.offset = assembler.code.size)
    (same : FlowGraph.Quiet assembler.graph after.graph)
    (opened : after.openBlock = assembler.openBlock.map (·.adjust listed.instruction.delta))
    (size : after.code.size = listed.stop) : after.HasLayout (listing ++ [listed])
      (exactly ∧ assembler.AdjustsExactly listed.instruction.delta) := by
  obtain ⟨ended, current?, laid, settled, heights⟩ := layout
  refine ⟨ended, _, laid.wrote settled here same opened size, ⟨?_, ?_⟩,
    fun ⟨exactly, adjusts⟩ => laid.allExact_wrote settled (heights exactly) adjusts⟩
  · intro none
    exact settled.last (Option.map_eq_none_iff.mp none)
  · intro passage member
    obtain ⟨before, found, rfl⟩ := Option.map_eq_some_iff.mp member
    obtain ⟨last, next, edges⟩ := settled.fresh before found
    exact ⟨by simp [Passage.add, straight, last], by rw [Passage.next?_add, next],
      by rw [Passage.edges_add, edges]⟩

/-- What is written while no block is open belongs to no block. -/
theorem HasLayout.dead (layout : assembler.HasLayout listing exactly)
    (closed : assembler.openBlock = none)
    (here : listed.offset = assembler.code.size) (same : assembler.Quiet after)
    (size : after.code.size = listed.stop) : after.HasLayout (listing ++ [listed]) exactly := by
  obtain ⟨ended, current?, laid, settled, heights⟩ := layout
  have none : current? = none := by
    have opened := laid.opened
    rw [closed] at opened
    exact Option.map_eq_none_iff.mp opened.symm
  subst none
  have opened : after.openBlock = assembler.openBlock.map (·.adjust listed.instruction.delta) := by
    rw [same.2, closed]
    rfl
  exact ⟨ended, _, laid.wrote settled here same.1 opened size, settled, heights⟩

/-- A block ends with its last instruction. -/
theorem LaidOut.closes (led : after.LaidOut listing ended
      (some ((passage.add listed).linkAll listed.instruction.targets)))
    (fresh : passage.IsFresh) (leaves : listed.instruction.continues = false)
    (marked : ∀ target ∈ listed.instruction.targets, after.graph.IsTarget target)
    (heights : exactly → AllExact ended (some (passage.add listed))) :
    after.closeBlock.HasLayout listing exactly := by
  have bent : listed.instruction.isStraight = false := by
    simp [Instruction.isStraight, leaves]
  have rest := (passage.add listed).linkAll_eq listed.instruction.targets
  have next : ((passage.add listed).linkAll listed.instruction.targets).next? = none := by
    rw [rest]
    exact (Passage.next?_add _ _).trans fresh.next
  have last : ((passage.add listed).linkAll listed.instruction.targets).last? = some listed := by
    rw [rest]
    exact Passage.last?_add bent
  have ends := (fresh.linked_add bent).ends next (by simp [last, leaves])
  have closed := led.close ends (by simpa [Passage.targets, last] using marked)
  have instructions : ((passage.add listed).linkAll listed.instruction.targets).instructions
      = (passage.add listed).instructions := by
    rw [rest]
    rfl
  refine ⟨_, none, closed, ⟨?_, by simp⟩,
    fun exactly => ((heights exactly).exchange instructions).close⟩
  intro _ other is
  obtain rfl : (passage.add listed).linkAll listed.instruction.targets = other := by
    simpa using is
  exact next

/-- The last instruction of a block is written, and the block ends with it. -/
theorem HasLayout.switches (layout : assembler.HasLayout listing exactly)
    (leaves : listed.instruction.continues = false) (here : listed.offset = assembler.code.size)
    (same : FlowGraph.Quiet assembler.graph after.graph)
    (opened : after.openBlock = assembler.openBlock.map (·.adjust listed.instruction.delta))
    (size : after.code.size = listed.stop)
    (known : ∀ target ∈ listed.instruction.targets, (after.graph.node? target).isSome) :
    (after.leadsTo listed.instruction.targets).closeBlock.HasLayout (listing ++ [listed])
      (exactly ∧ assembler.AdjustsExactly listed.instruction.delta) := by
  obtain ⟨ended, current?, laid, settled, heights⟩ := layout
  have wrote := laid.wrote settled here same opened size
  cases current? with
  | none =>
    have quietly := quiet_leadsTo wrote.openBlock_eq_none listed.instruction.targets
    have led := wrote.quiet quietly.1 quietly.2 (by rw [code_leadsTo])
    rw [closeBlock_of_none led.openBlock_eq_none]
    exact ⟨ended, none, led, settled, fun ⟨exactly, _⟩ => heights exactly⟩
  | some passage =>
    exact (wrote.leadsTo listed.instruction.targets).closes (settled.fresh passage rfl) leaves
      (isTarget_leadsTo known)
      fun ⟨exactly, adjusts⟩ => laid.allExact_wrote settled (heights exactly) adjusts

/-- A jump that leaves the block is written, and the block ends with it. -/
theorem HasLayout.leaves (layout : assembler.HasLayout listing exactly) {target : Label}
    (named : listed.instruction.targets = [target])
    (leaves : listed.instruction.continues = false) (here : listed.offset = assembler.code.size)
    (same : FlowGraph.Quiet assembler.graph after.graph)
    (opened : after.openBlock = assembler.openBlock.map (·.adjust listed.instruction.delta))
    (size : after.code.size = listed.stop) (marked : after.graph.IsTarget target)
    (isOpen : assembler.openBlock ≠ none) :
    (after.addEdge target).closeBlock.HasLayout (listing ++ [listed])
      (exactly ∧ assembler.AdjustsExactly listed.instruction.delta) := by
  obtain ⟨ended, current?, laid, settled, heights⟩ := layout
  have wrote := laid.wrote settled here same opened size
  cases current? with
  | none => exact absurd laid.openBlock_eq_none isOpen
  | some passage =>
    have linked : (passage.add listed).link target
        = (passage.add listed).linkAll listed.instruction.targets := by
      rw [named]
      rfl
    have led : (after.addEdge target).LaidOut (listing ++ [listed]) ended
        (some ((passage.add listed).link target)) :=
      wrote.link target (passage.add listed).next?
    rw [linked] at led
    refine led.closes (settled.fresh passage rfl) leaves ?_
      fun ⟨exactly, adjusts⟩ => laid.allExact_wrote settled (heights exactly) adjusts
    intro label member
    obtain rfl : label = target := by simpa [named] using member
    exact isTarget_addEdge after label label marked

/-- The last instruction of a block is written, and control can go on with the next block. -/
theorem HasLayout.branches (layout : assembler.HasLayout listing exactly) {target : Label}
    (named : listed.instruction.targets = [target])
    (goes : listed.instruction.continues = true) (here : listed.offset = assembler.code.size)
    (same : FlowGraph.Quiet assembler.graph after.graph)
    (opened : after.openBlock = assembler.openBlock.map (·.adjust listed.instruction.delta))
    (size : after.code.size = listed.stop) (marked : after.graph.IsTarget target) (flags : Flags)
    (isOpen : assembler.openBlock ≠ none) :
    ((after.addEdge target).goesOn flags).HasLayout (listing ++ [listed])
      (exactly ∧ assembler.AdjustsExactly listed.instruction.delta) := by
  obtain ⟨ended, current?, laid, settled, heights⟩ := layout
  have wrote := laid.wrote settled here same opened size
  have bent : listed.instruction.isStraight = false := by
    simp [Instruction.isStraight, named]
  cases current? with
  | none => exact absurd laid.openBlock_eq_none isOpen
  | some passage =>
    have fresh := settled.fresh passage rfl
    have led := wrote.link target (passage.add listed).next?
    have linked := fresh.linked_add bent
    rw [named] at linked
    have last : ((passage.add listed).link target).last? = some listed := Passage.last?_add bent
    have on := led.goesOn flags linked (by simp [last, goes]) (by
      intro label member
      have only : label = target := by
        simpa [Passage.targets, last, named] using member
      rw [only]
      exact isTarget_addEdge after target target marked)
    refine ⟨_, _, on, settled_start _ _ _, ?_⟩
    rintro ⟨exactly, adjusts⟩
    have wrote := laid.allExact_wrote settled (heights exactly) adjusts
    have linked : AllExact ended (some (((passage.add listed).link target).fallInto
        (after.addEdge target).graph.nextLabel)) := wrote.exchange rfl
    exact linked.close.openAt _ _

/-- An instruction that does not jump keeps the layout. -/
theorem HasLayout.writesPlain (layout : assembler.HasLayout listing exactly) (opcode : Opcode)
    (rest : List UInt8) (delta : Int32) : (assembler.writesPlain opcode rest delta).HasLayout
      (listing ++ [⟨assembler.code.cursor, .plain (opcode :: rest) delta⟩])
      (exactly ∧ assembler.AdjustsExactly delta) := by
  have same : FlowGraph.Quiet assembler.graph
      ((assembler.append (opcode :: rest)).adjust delta).graph := FlowGraph.Quiet.refl _
  have size : ((assembler.append (opcode :: rest)).adjust delta).code.size
      = (Listed.mk assembler.code.cursor (.plain (opcode :: rest) delta)).stop := by
    simp [adjust, append, Listed.stop, Listed.pieces, Instruction.pieces, Piece.size, Buffer.cursor]
  unfold Assembler.writesPlain
  simp only
  split
  · rename_i terminal
    have leaves : (Instruction.plain (opcode :: rest) delta).continues = false := by
      simp [Instruction.continues, terminal]
    exact layout.switches leaves rfl same rfl size (by simp [Instruction.targets])
  · rename_i goes
    have straight : (Instruction.plain (opcode :: rest) delta).isStraight = true := by
      simp [Instruction.isStraight, Instruction.targets, Instruction.continues, goes]
    exact layout.straight straight rfl same rfl size

/-- The return from a subroutine closes the block and marks it. -/
theorem quiet_endSubroutine (assembler : Assembler) :
    assembler.closeBlock.Quiet assembler.endSubroutine := by
  unfold endSubroutine
  split
  · rename_i closed
    rw [closeBlock_of_none closed]
    exact ⟨FlowGraph.Quiet.refl _, rfl⟩
  · exact ⟨FlowGraph.quiet_update _ _ (fun _ => rfl) (fun _ => rfl) (fun _ _ _ placed => placed)
      fun _ marked => marked, rfl⟩

/-- An instruction on a local variable keeps the layout. -/
theorem HasLayout.writesLocal (layout : assembler.HasLayout listing exactly)
    (request : LocalInstruction) : (assembler.writesLocal request).HasLayout
      (listing ++ [⟨assembler.code.cursor, .onLocal request⟩])
      (exactly ∧ assembler.AdjustsExactly request.delta) := by
  let written := ((assembler.append request.encode).adjust request.delta).needLocals
    request.localsNeeded
  have same : FlowGraph.Quiet assembler.graph written.graph := FlowGraph.Quiet.refl _
  have size : written.code.size = (Listed.mk assembler.code.cursor (.onLocal request)).stop := by
    simp [written, adjust, append, needLocals, Listed.stop, Listed.pieces, Instruction.pieces,
      Piece.size, Buffer.cursor]
  cases request with
  | load kind slot => exact layout.straight rfl rfl same rfl size
  | store kind slot => exact layout.straight rfl rfl same rfl size
  | increment slot amount => exact layout.straight rfl rfl same rfl size
  | ret slot =>
    have closed : written.closeBlock.HasLayout
        (listing ++ [⟨assembler.code.cursor, .onLocal (.ret slot)⟩])
        (exactly ∧ assembler.AdjustsExactly (LocalInstruction.ret slot).delta) :=
      layout.switches rfl rfl same rfl size (by simp [Instruction.targets])
    have kept : written.endSubroutine.code.size = written.closeBlock.code.size := by
      rw [code_endSubroutine, code_closeBlock]
    exact closed.quiet (quiet_endSubroutine written) kept

/-- A jump that is no call keeps the layout. -/
theorem HasLayout.jumps (layout : assembler.HasLayout listing exactly)
    {opcode : Opcode} {target : Label}
    (form : JumpForm) (isJump : opcode.isJump = true) (noCall : opcode.base ≠ Opcode.jsr)
    (known : (assembler.graph.node? target).isSome) :
    ((assembler.update target Node.marked).jumps opcode form target).HasLayout
      (listing ++ [⟨assembler.code.cursor, .jump opcode form target⟩])
      (exactly ∧ assembler.AdjustsExactly opcode.jumpDelta) := by
  let listed : Listed := ⟨assembler.code.cursor, .jump opcode form target⟩
  let marked := assembler.update target Node.marked
  let written := marked.emits target form
  have same : assembler.Quiet written :=
    (assembler.quiet_marked target).trans (quiet_emits marked target form)
  have size : written.code.size = listed.stop := size_emits marked opcode form target
  have target? : written.graph.IsTarget target :=
    (quiet_emits marked target form).1.targets target (isTarget_marked known)
  let adjusted := written.adjust opcode.base.jumpDelta
  have quietly : FlowGraph.Quiet assembler.graph adjusted.graph := same.1
  have opened : adjusted.openBlock
      = assembler.openBlock.map (·.adjust listed.instruction.delta) := by
    have delta : listed.instruction.delta = opcode.base.jumpDelta :=
      (Opcode.jumpDelta_base isJump).symm
    rw [delta, ← same.2]
    rfl
  unfold Assembler.jumps
  cases block? : written.openBlock with
  | none =>
    simp only [marked, written] at block?
    simp only [block?]
    exact (layout.dead (same.2 ▸ block?) rfl same size).mono And.left
  | some block =>
    have isOpen : assembler.openBlock ≠ none := by
      rw [← same.2, block?]
      simp
    simp only [marked, written] at block?
    simp only [block?, if_neg noCall]
    unfold Assembler.branches
    by_cases plain : opcode.base = Opcode.goto
    · have leaves : listed.instruction.continues = false := by
        have unconditional := mt (Opcode.isConditional_iff isJump noCall).mp (by simpa using plain)
        simpa [listed, Instruction.continues] using unconditional
      simp only [if_pos plain]
      exact layout.leaves rfl leaves rfl quietly opened size target? isOpen
    · have goes : listed.instruction.continues = true :=
        (Opcode.isConditional_iff isJump noCall).mpr plain
      simp only [if_neg plain]
      exact layout.branches rfl goes rfl quietly opened size target? _ isOpen

/-- An operation that does nothing to the blocks and lists nothing keeps the layout. -/
theorem HasLayout.unlisted (layout : assembler.HasLayout listing exactly) {operation : Operation}
    (none : assembler.listed? operation = none) (same : assembler.Quiet after)
    (size : after.code.size = assembler.code.size) :
    after.HasLayout (listing ++ (assembler.listed? operation).toList)
      (exactly ∧ assembler.WritesExactly operation) := by
  rw [none, Option.toList_none, List.append_nil]
  exact (layout.quiet same size).mono And.left

/-- The layout of an operation that lists one instruction. -/
theorem HasLayout.of_listed {operation : Operation}
    (layout : after.HasLayout (listing ++ [listed])
      (exactly ∧ assembler.AdjustsExactly listed.instruction.delta))
    (lists : assembler.listed? operation = some listed) :
    after.HasLayout (listing ++ (assembler.listed? operation).toList)
      (exactly ∧ assembler.WritesExactly operation) := by
  rw [lists]
  exact layout.mono (And.imp_right fun writes => writes listed lists)

/-- A switch keeps the layout, once its bytes are written. -/
theorem HasLayout.switch (layout : assembler.HasLayout listing exactly) {written : Assembler}
    (same : assembler.Quiet written) (here : listed.offset = assembler.code.size)
    (size : written.code.size = listed.stop) (leaves : listed.instruction.continues = false)
    (pops : listed.instruction.delta = -1)
    (accepts : ∀ target ∈ listed.instruction.targets, assembler.Accepts target) :
    (written.switches listed.instruction.targets).HasLayout (listing ++ [listed])
      (exactly ∧ assembler.AdjustsExactly listed.instruction.delta) := by
  have opened : (written.adjust (-1)).openBlock
      = assembler.openBlock.map (·.adjust listed.instruction.delta) := by
    rw [pops, ← same.2]
    rfl
  have quietly : FlowGraph.Quiet assembler.graph (written.adjust (-1)).graph := same.1
  have longer : (written.adjust (-1)).code.size = listed.stop := size
  exact layout.switches leaves here quietly opened longer
    fun target named => quietly.known target (accepts target named).isSome

/-- What a successful operation does keeps the layout, unless it is a call. -/
theorem HasLayout.performs (layout : assembler.HasLayout listing exactly) {operation : Operation}
    (noCall : operation.isCall = false) (performs : assembler.Performs operation after) :
    after.HasLayout (listing ++ (assembler.listed? operation).toList)
      (exactly ∧ assembler.WritesExactly operation) := by
  cases performs with
  | freshLabel => exact layout.unlisted rfl ⟨FlowGraph.quiet_create _ _, rfl⟩ rfl
  | freshDebugLabel => exact layout.unlisted rfl ⟨FlowGraph.quiet_create _ _, rfl⟩ rfl
  | declare => exact layout.unlisted rfl ⟨FlowGraph.Quiet.refl _, rfl⟩ rfl
  | nothing => exact layout.unlisted rfl ⟨FlowGraph.Quiet.refl _, rfl⟩ rfl
  | @addLine label line =>
    exact layout.unlisted rfl ⟨(quiet_addLine assembler label line).1, rfl⟩ rfl
  | @addHandler handler _ =>
    have same : assembler.Quiet ((assembler.bounds handler).update handler.handler Node.marked) :=
      ((quiet_bounded assembler handler.start).trans (quiet_bounded _ handler.stop)).trans
        (quiet_marked _ handler.handler)
    exact layout.unlisted rfl ⟨same.1, same.2⟩ rfl
  | @place label node code rewritten known unplaced size =>
    obtain ⟨ended, current?, laid, settled, heights⟩ := layout
    have lists : listing ++ (assembler.listed? (.place label)).toList = listing :=
      List.append_nil listing
    rw [lists]
    obtain ⟨others, last?, after, decided, kept⟩ := laid.placed settled known unplaced size
    exact ⟨others, last?, after, decided, fun ⟨exactly, _⟩ => kept (heights exactly)⟩
  | @instruction opcode rest delta allowed =>
    exact (layout.writesPlain opcode rest delta).of_listed (by
      rw [listed?, emitted?_instruction allowed]
      rfl)
  | @localInstruction request => exact (layout.writesLocal request).of_listed rfl
  | @jump opcode target node form isJump known allowed chosen holds =>
    have notJsr : opcode.base ≠ Opcode.jsr := by simpa [Operation.isCall] using noCall
    exact (layout.jumps form isJump notJsr (by simp [known])).of_listed (by
      rw [listed?, emitted?_jump isJump known allowed chosen]
      rfl)
  | @tableSwitch low high fallback targets accepts =>
    exact (layout.switch (quiet_emitsTable assembler low high fallback targets) rfl
      (size_emitsTable assembler low high fallback targets) rfl rfl accepts).of_listed rfl
  | @lookupSwitch fallback cases accepts =>
    exact (layout.switch (quiet_emitsLookup assembler fallback (sortCases cases)) rfl
      (size_emitsLookup assembler fallback (sortCases cases)) rfl rfl accepts).of_listed rfl

/-- A method without instructions has a layout. -/
theorem hasLayout_start (settings : Settings) (parameterSlots : UInt16) :
    (start settings parameterSlots).HasLayout [] True := by
  have alone {motive : Passage → Prop} (first : motive { label := .start, offset := 0 }) :
      ∀ passage ∈ ([] : List Passage) ++
        (some ({ label := .start, offset := 0 } : Passage)).toList, motive passage := by
    intro passage member
    obtain rfl : passage = { label := .start, offset := 0 } := by simpa using member
    exact first
  refine ⟨[], some { label := .start, offset := 0 }, ?_, settled_start _ _ _,
    fun _ => alone trivial⟩
  constructor
  case blocks => rfl
  case first => rfl
  case distinct => simp
  case offsets => exact alone rfl
  case edges => exact alone rfl
  case others =>
    intro label other
    obtain ⟨index⟩ := label
    have unknown : (start settings parameterSlots).graph.node? ⟨index⟩ = none := by
      cases index with
      | zero => simp [Label.start] at other
      | succ index => simp [start, FlowGraph.node?]
    rw [FlowGraph.edgesOf, unknown]
    rfl
  case chain => exact List.isChain_singleton _
  case fits => refine alone ⟨trivial, ?_, ?_, ?_⟩ <;> simp [Passage.instructions]
  case within => simp
  case ends => simp
  case peaks => simp
  case targets => simp
  case opened => rfl
  case stop =>
    intro passage member
    obtain rfl : { label := .start, offset := 0 } = passage := by simpa using member
    rfl

/-- A run in which no operation fails, and none is a call, keeps the layout. -/
theorem HasLayout.afterAll (layout : assembler.HasLayout listing exactly)
    {operations : List Operation}
    (succeeds : assembler.Succeeds operations)
    (noCall : ∀ operation ∈ operations, operation.isCall = false) :
    (assembler.afterAll operations).HasLayout (listing ++ assembler.listing operations)
      (exactly ∧ assembler.WritesAllExactly operations) := by
  induction operations generalizing assembler listing exactly with
  | nil =>
    rw [Assembler.listing, List.append_nil]
    exact layout.mono And.left
  | cons operation rest ih =>
    obtain ⟨answer, yields⟩ := exists_yields succeeds.1
    have first := layout.performs (noCall operation List.mem_cons_self) (performs_of_yields yields)
    have others := ih first succeeds.2 fun other member =>
      noCall other (List.mem_cons_of_mem _ member)
    rw [List.append_assoc] at others
    exact others.mono and_assoc.mpr

end Assembler

end MethodBody
