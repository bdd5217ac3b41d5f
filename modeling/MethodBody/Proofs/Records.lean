import MethodBody.Proofs.Wiring

/-!
# What is recorded about labels

Where a label is placed decides how jumps to it are written, but nothing else that is recorded about
it or about the blocks. So assemblers that differ only in the places of labels, or in the forms of
jumps, stay alike when the same blocks are ended and started in both (`Assembler.Alike.jumps`).
-/

namespace MethodBody

namespace Node

/-- What is known about a label, besides its place. -/
def unplaced (node : Node) : Node := { node with placement := .pending .empty }

/-- A label stays the same when it is referred to, besides its place. -/
@[simp]
theorem unplaced_referred (node : Node) (reference : Reference) :
    (node.referred reference).unplaced = node.unplaced := by
  unfold referred
  split <;> rfl

end Node

namespace Assembler

variable {assembler first second : Assembler} {label : Label}

/-- What is recorded about a label, besides its place. -/
def records (assembler : Assembler) (label : Label) : Option Node :=
  (assembler.graph.node? label).map Node.unplaced

/-- A change that does not depend on the place is a change of what is recorded. -/
theorem records_update {change : Node → Node}
    (apart : ∀ node, (change node).unplaced = change node.unplaced) (assembler : Assembler)
    (changed label : Label) : (assembler.update changed change).records label =
      if changed = label then (assembler.records label).map change
      else assembler.records label := by
  rw [records, update, FlowGraph.node?_update]
  split
  · rw [records, Option.map_map, Option.map_map]
    congr 1
    exact funext apart
  · rfl

/-- A change of the place only is none of what is recorded. -/
theorem records_update_of_same {change : Node → Node}
    (same : ∀ node, (change node).unplaced = node.unplaced)
    (assembler : Assembler) (changed : Label) :
    (assembler.update changed change).records = assembler.records := by
  funext label
  rw [records, update, FlowGraph.node?_update]
  split
  · rw [records, Option.map_map]
    congr 1
    exact funext same
  · rfl

/-- The label created next is the one that it was before a change. -/
@[simp]
theorem nextLabel_update (assembler : Assembler) (changed : Label) (change : Node → Node) :
    (assembler.update changed change).graph.nextLabel = assembler.graph.nextLabel := by
  simp [FlowGraph.nextLabel, update]

/-- An edge creates no label. -/
@[simp]
theorem nextLabel_addEdge (assembler : Assembler) (successor : Label) :
    (assembler.addEdge successor).graph.nextLabel = assembler.graph.nextLabel := by
  cases opened : assembler.openBlock with
  | none => rw [addEdge_of_none opened]
  | some block => rw [addEdge_of_some opened, nextLabel_update]

/-- A label is created and placed at the cursor. -/
def readies (assembler : Assembler) (flags : Flags) : Assembler :=
  { assembler with graph := assembler.graph.create flags }.settle assembler.graph.nextLabel
    { label := assembler.graph.nextLabel, flags } assembler.code false

/-- To go on with a block is to create a label for it, to place that and to start the block. -/
theorem goesOn_eq (assembler : Assembler) (flags : Flags) :
    assembler.goesOn flags = (assembler.readies flags).startBlock assembler.graph.nextLabel := rfl

/-- Nothing but the new label is recorded when it is created and placed. -/
theorem records_readies (assembler : Assembler) (flags : Flags)
    (other : label ≠ assembler.graph.nextLabel) :
    (assembler.readies flags).records label = assembler.records label := by
  rw [records, readies, settle, FlowGraph.node?_update, if_neg other.symm, FlowGraph.node?_create,
    if_neg other]
  rfl

/-- One label is created. -/
theorem nextLabel_readies (assembler : Assembler) (flags : Flags) :
    (assembler.readies flags).graph.nextLabel = ⟨assembler.graph.nextLabel.index + 1⟩ := by
  simp [readies, settle, FlowGraph.nextLabel, FlowGraph.create]

/-- Of two assemblers the same block is being written, and the same is recorded about some
labels. -/
structure Alike (known : Label → Prop) (first second : Assembler) : Prop where
  /-- The same block is open. -/
  openBlock : first.openBlock = second.openBlock
  /-- The same label will be created next. -/
  nextLabel : first.graph.nextLabel = second.graph.nextLabel
  /-- The same is recorded about each known label. -/
  records : ∀ label, known label → first.records label = second.records label

namespace Alike

variable {known : Label → Prop} {third : Assembler}

/-- What is alike is alike the other way round. -/
theorem symm (alike : first.Alike known second) : second.Alike known first :=
  ⟨alike.openBlock.symm, alike.nextLabel.symm,
    fun label member => (alike.records label member).symm⟩

/-- What is like the same is alike. -/
theorem trans (one : first.Alike known second) (two : second.Alike known third) :
    first.Alike known third :=
  ⟨one.openBlock.trans two.openBlock, one.nextLabel.trans two.nextLabel,
    fun label member => (one.records label member).trans (two.records label member)⟩

/-- A change of the place of a label goes unnoticed. -/
theorem of_update (assembler : Assembler) {change : Node → Node}
    (same : ∀ node, (change node).unplaced = node.unplaced) (changed : Label) :
    assembler.Alike known (assembler.update changed change) :=
  ⟨rfl, (nextLabel_update _ _ _).symm, fun label _ => by rw [records_update_of_same same]⟩

/-- Bytes go unnoticed. -/
theorem of_append (assembler : Assembler) (bytes : List UInt8) :
    assembler.Alike known (assembler.append bytes) := ⟨rfl, rfl, fun _ _ => rfl⟩

/-- A reference goes unnoticed. -/
theorem of_refers (assembler : Assembler) (target : Label) (source : Nat) (width : Width) :
    assembler.Alike known (assembler.refers target source width) :=
  (of_append assembler _).trans (of_update _ (fun node => node.unplaced_referred _) target)

/-- The bytes of a jump go unnoticed. -/
theorem of_emits (assembler : Assembler) (target : Label) (form : JumpForm) :
    assembler.Alike known (assembler.emits target form) := by
  cases form with
  | plain opcode width => exact (of_append assembler _).trans (of_refers _ _ _ _)
  | inverted inverse =>
    exact ((of_append assembler _).trans (of_append _ _)).trans (of_refers _ _ _ _)

/-- Assemblers stay alike if both make the same change, which does not depend on a place. -/
theorem update (alike : first.Alike known second) {change : Node → Node}
    (apart : ∀ node, (change node).unplaced = change node.unplaced) (changed : Label) :
    (first.update changed change).Alike known (second.update changed change) where
  openBlock := alike.openBlock
  nextLabel := by simpa using alike.nextLabel
  records label member := by
    rw [records_update apart, records_update apart, alike.records label member]

/-- Assemblers stay alike if both change the stack height. -/
theorem adjust (alike : first.Alike known second) (delta : Int32) :
    (first.adjust delta).Alike known (second.adjust delta) where
  openBlock := by rw [Assembler.adjust, Assembler.adjust, alike.openBlock]
  nextLabel := alike.nextLabel
  records := alike.records

/-- Assemblers stay alike if both add an edge. -/
theorem addEdge (alike : first.Alike known second) (successor : Label) :
    (first.addEdge successor).Alike known (second.addEdge successor) := by
  cases opened : first.openBlock with
  | none =>
    rw [addEdge_of_none opened, addEdge_of_none (alike.openBlock.symm.trans opened)]
    exact alike
  | some block =>
    rw [addEdge_of_some opened, addEdge_of_some (alike.openBlock.symm.trans opened)]
    refine alike.update ?_ block.label
    exact fun _ => rfl

/-- Assemblers stay alike if both leave the open block. -/
theorem closeBlock (alike : first.Alike known second) :
    first.closeBlock.Alike known second.closeBlock := by
  cases opened : first.openBlock with
  | none =>
    rw [closeBlock_of_none opened, closeBlock_of_none (alike.openBlock.symm.trans opened)]
    exact alike
  | some block =>
    rw [closeBlock_of_some opened, closeBlock_of_some (alike.openBlock.symm.trans opened)]
    have left : { first with openBlock := none }.Alike known { second with openBlock := none } :=
      ⟨rfl, alike.nextLabel, alike.records⟩
    refine left.update ?_ block.label
    exact fun _ => rfl

/-- Assemblers stay alike if both start a block. -/
theorem startBlock (alike : first.Alike known second) (label : Label) :
    (first.startBlock label).Alike known (second.startBlock label) := by
  have openAt {one other : Assembler} (alike : one.Alike known other) (fallenInto : Bool) :
      (one.openAt label fallenInto).Alike known (other.openAt label fallenInto) :=
    ⟨rfl, alike.nextLabel, alike.records⟩
  have same := alike.openBlock
  unfold Assembler.startBlock
  cases opened : first.openBlock with
  | none =>
    rw [← same, opened]
    exact openAt alike false
  | some block =>
    rw [← same, opened]
    exact openAt (alike.addEdge label).closeBlock true

/-- Assemblers stay alike on labels that exist if both go on with a block at a label of its own. -/
theorem goesOn (alike : first.Alike known second) (exist : ¬known first.graph.nextLabel)
    (flags others : Flags) : (first.goesOn flags).Alike known (second.goesOn others) := by
  have other (label : Label) (member : known label) : label ≠ first.graph.nextLabel :=
    fun same => exist (same ▸ member)
  have ready : (first.readies flags).Alike known (second.readies others) := by
    refine ⟨alike.openBlock, ?_, fun label member => ?_⟩
    · rw [nextLabel_readies, nextLabel_readies, alike.nextLabel]
    · rw [records_readies _ _ (other label member),
        records_readies _ _ (alike.nextLabel ▸ other label member), alike.records label member]
  rw [goesOn_eq, goesOn_eq, ← alike.nextLabel]
  exact ready.startBlock _

/-- Assemblers stay alike if both mark the entry of the same subroutine. -/
theorem enters (alike : first.Alike known second) (entry : Label) :
    (first.enters entry).Alike known (second.enters entry) := by
  have begun : { first with callsSubroutines := true }.Alike known
      { second with callsSubroutines := true } :=
    ⟨alike.openBlock, alike.nextLabel, alike.records⟩
  refine begun.update ?_ entry
  exact fun _ => rfl

/-- Assemblers stay alike if in both a block ends with the call of the same subroutine. -/
theorem leavesTo (alike : first.Alike known second) (block : OpenBlock) (entry : Label) :
    (first.leavesTo block entry).Alike known (second.leavesTo block entry) := by
  have flagged : (first.update block.label fun node =>
      { node with flags.callsSubroutine := true }).Alike known
        (second.update block.label fun node => { node with flags.callsSubroutine := true }) := by
    refine alike.update ?_ block.label
    exact fun _ => rfl
  refine flagged.update ?_ block.label
  exact fun _ => rfl

/-- Assemblers stay alike on labels that exist if both call the same subroutine. -/
theorem calls (alike : first.Alike known second) (exist : ¬known first.graph.nextLabel)
    (block : OpenBlock) (entry : Label) :
    (first.calls block entry).Alike known (second.calls block entry) := by
  have linked := (alike.enters entry).leavesTo block entry
  have fresh : ((first.enters entry).leavesTo block entry).graph.nextLabel =
      first.graph.nextLabel := by
    simp [Assembler.enters, Assembler.leavesTo, FlowGraph.prepend, FlowGraph.nextLabel,
      Assembler.update]
  rw [calls_eq, calls_eq]
  exact linked.goesOn (by rwa [fresh]) {} {}

/-- Assemblers stay alike on labels that exist if both end the open block with a jump. -/
theorem branches (alike : first.Alike known second) (exist : ¬known first.graph.nextLabel)
    (base : Opcode) (target : Label) (one other : Bool) :
    (first.branches base target one).Alike known (second.branches base target other) := by
  have linked := (alike.adjust base.jumpDelta).addEdge target
  unfold Assembler.branches
  simp only
  split
  · exact linked.closeBlock
  · refine linked.goesOn ?_ _ _
    rw [nextLabel_addEdge]
    exact exist

/-- Assemblers stay alike on labels that exist if both end the open block with a jump to the same
label, in whatever forms it is written. -/
theorem jumps (alike : first.Alike known second) (exist : ¬known first.graph.nextLabel)
    (opcode : Opcode) (one other : JumpForm) (target : Label) :
    (first.jumps opcode one target).Alike known (second.jumps opcode other target) := by
  have unnoticed : first.Alike known (first.emits target one) := of_emits first target one
  have written : (first.emits target one).Alike known (second.emits target other) :=
    (unnoticed.symm.trans alike).trans (of_emits second target other)
  have absent : ¬known (first.emits target one).graph.nextLabel := unnoticed.nextLabel ▸ exist
  have same := written.openBlock
  unfold Assembler.jumps
  simp only
  rw [same]
  cases (second.emits target other).openBlock with
  | none => exact written
  | some block =>
    simp only
    split
    · exact written.calls absent block target
    · exact written.branches absent opcode.base target one.isInverted other.isInverted

end Alike

end Assembler

end MethodBody
