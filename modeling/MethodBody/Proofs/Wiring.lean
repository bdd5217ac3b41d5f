import MethodBody.Proofs.Transitions

/-!
# The flow graph during a run

What is true of the flow graph after every operation of a run, whether operations fail or not: edges
lead to targets or to blocks that control falls into, a block that calls a subroutine has the edges
of the call in front, and a block that is no longer open was left for good or falls into the next
one (`Assembler.Wired`). Each operation keeps this (`Wired.after`), and so does a whole run
(`wired_afterAll`).
-/

namespace MethodBody

/-- An operation of a run, with the state that it starts from. -/
structure Moment where
  /-- The state before the operation. -/
  before : Assembler
  /-- The operation. -/
  operation : Operation

/-- The state after the operation. -/
def Moment.after (moment : Moment) : Assembler := moment.before.after moment.operation

/-- The moments of a run. -/
def Assembler.history (assembler : Assembler) : List Operation → List Moment
  | [] => []
  | operation :: rest => ⟨assembler, operation⟩ :: (assembler.after operation).history rest

namespace FlowGraph

/-- A block follows another one without a block between them. -/
def IsNext (graph : FlowGraph) (block next : Label) : Prop :=
  ∃ index : Nat, graph.blocks[index]? = some block ∧ graph.blocks[index + 1]? = some next

/-- Control falls out of the block into the next one. -/
def FallsOn (graph : FlowGraph) (block : Label) : Prop :=
  ∃ next height, graph.IsNext block next ∧ ⟨.jump height, next⟩ ∈ graph.edgesOf block

/-- A block that follows another one goes on following it when more blocks are recorded. -/
theorem IsNext.pushBlock {graph : FlowGraph} {block next : Label}
    (follows : graph.IsNext block next)
    (label : Label) : (graph.pushBlock label).IsNext block next := by
  obtain ⟨index, here, there⟩ := follows
  have inside := (Array.getElem?_eq_some_iff.mp there).1
  refine ⟨index, ?_, ?_⟩
  · rw [FlowGraph.pushBlock, Array.getElem?_push_lt (by omega)]
    exact (Array.getElem?_eq_getElem _).symm.trans here
  · rw [FlowGraph.pushBlock, Array.getElem?_push_lt inside]
    exact (Array.getElem?_eq_getElem _).symm.trans there

/-- A block that is recorded follows the last one. -/
theorem isNext_pushBlock {graph : FlowGraph} {block : Label}
    (last : graph.blocks.back? = some block)
    (label : Label) : (graph.pushBlock label).IsNext block label := by
  rw [Array.back?_eq_getElem?] at last
  have inside := (Array.getElem?_eq_some_iff.mp last).1
  refine ⟨graph.blocks.size - 1, ?_, ?_⟩
  · rw [FlowGraph.pushBlock, Array.getElem?_push_lt inside]
    exact (Array.getElem?_eq_getElem _).symm.trans last
  · have next : graph.blocks.size - 1 + 1 = graph.blocks.size := by omega
    rw [FlowGraph.pushBlock, next, Array.getElem?_push_size]

/-- Blocks follow each other as in a graph with the same blocks. -/
theorem IsNext.congr {before after : FlowGraph} (same : after.blocks = before.blocks)
    {block next : Label} (follows : before.IsNext block next) : after.IsNext block next := by
  obtain ⟨index, here, there⟩ := follows
  exact ⟨index, by rw [same]; exact here, by rw [same]; exact there⟩

/-- Control goes on falling out of a block if the block keeps its edges and what follows it. -/
theorem FallsOn.congr {before after : FlowGraph} {block : Label}
    (next : ∀ other, before.IsNext block other → after.IsNext block other)
    (kept : ∀ edge ∈ before.edgesOf block, edge ∈ after.edgesOf block)
    (falls : before.FallsOn block) : after.FallsOn block := by
  obtain ⟨other, height, follows, edge⟩ := falls
  exact ⟨other, height, next other follows, kept _ edge⟩

end FlowGraph

/-- A call of a subroutine. -/
structure Call where
  /-- The block that ends with the call. -/
  caller : Label
  /-- The block that the subroutine is to return to. -/
  continuation : Label
  /-- The first block of the subroutine. -/
  entry : Label
  /-- The stack height at the call, above the start of the caller. -/
  height : Int32

/-- The call was made at a moment of a run, and its continuation was placed right behind it. -/
structure Call.Made (call : Call) (moment : Moment) : Prop where
  /-- The operation writes a call of the entry. -/
  jump : ∃ opcode, moment.operation = .jump opcode call.entry ∧ opcode.base = Opcode.jsr
  /-- The caller was open, with the stack as high as the call says. -/
  open_ : ∃ block, moment.before.openBlock = some block ∧ block.label = call.caller ∧
    block.height = call.height
  /-- The continuation is open now. -/
  opened : moment.after.openLabel? = some (call.continuation, true)

/-- The block was left for good at a moment of a run. -/
structure Moment.Leaves (moment : Moment) (block : Label) : Prop where
  /-- The operation writes an instruction that never goes on with the next one. -/
  leaves : moment.operation.leaves = true
  /-- The block was open. -/
  open_ : moment.before.openBlock.map OpenBlock.label = some block
  /-- No block is open now. -/
  closed : moment.after.openBlock = none

/-- The edges of a call come first, the entry is known to be one, and the continuation follows the
caller. -/
structure FlowGraph.Honors (graph : FlowGraph) (call : Call) : Prop where
  /-- The edge to the continuation is the first, and the edge into the subroutine the second. -/
  edges : ∃ others, graph.edgesOf call.caller
    = ⟨.jump call.height, call.continuation⟩ :: ⟨.jump (call.height + 1), call.entry⟩ :: others
  /-- A subroutine starts at the entry. -/
  entry : graph.IsEntry call.entry
  /-- The continuation was placed right behind the caller. -/
  next : graph.IsNext call.caller call.continuation

/-- A call goes on being honored if its caller keeps its edges and what follows it. -/
theorem FlowGraph.Honors.congr {before after : FlowGraph} {call : Call}
    (edges : after.edgesOf call.caller = before.edgesOf call.caller)
    (entries : ∀ label, before.IsEntry label → after.IsEntry label)
    (next : ∀ other, before.IsNext call.caller other → after.IsNext call.caller other)
    (honors : before.Honors call) : after.Honors call where
  edges := by rw [edges]; exact honors.edges
  entry := entries _ honors.entry
  next := next _ honors.next

namespace Assembler

/-- The block is open. -/
def IsOpen (assembler : Assembler) (label : Label) : Prop :=
  ∃ isFallenInto, assembler.openLabel? = some (label, isFallenInto)

/-- How the blocks hang together, given the moments of the run so far. -/
structure Wired (past : List Moment) (assembler : Assembler) : Prop where
  /-- No block starts twice. -/
  distinct : assembler.graph.blocks.toList.Nodup
  /-- Each block has its place in the code. -/
  placed : ∀ label ∈ assembler.graph.blocks, ∃ offset,
    assembler.graph.offset? label = some offset ∧ offset ≤ assembler.code.size
  /-- The open block is the last one. -/
  last : ∀ label, assembler.IsOpen label → assembler.graph.blocks.back? = some label
  /-- A block that is not open lies before the end, unless control falls into the open block. -/
  before : ∀ label ∈ assembler.graph.blocks, assembler.IsOpen label ∨
    (∃ other, assembler.openLabel? = some (other, true)) ∨
      ∃ offset, assembler.graph.offset? label = some offset ∧ offset < assembler.code.size
  /-- A label that is no block has no duty. -/
  idle : ∀ label, label ∉ assembler.graph.blocks → assembler.graph.dutyOf label = (false, false)
  /-- Edges lead to targets, or to blocks that control falls into. -/
  leads : ∀ label, ∀ edge ∈ assembler.graph.edgesOf label,
    assembler.graph.IsTarget edge.successor ∨ edge.successor ∈ assembler.graph.blocks ∧
      assembler.openLabel? ≠ some (edge.successor, false)
  /-- A block that calls a subroutine, and is not open any more, has the edges of a call, and it
  does not end with a return. -/
  calls : ∀ label, ¬ assembler.IsOpen label → (assembler.graph.dutyOf label).1 = true →
    (assembler.graph.dutyOf label).2 = false ∧ ∃ call, call.caller = label ∧
      assembler.graph.Honors call ∧ ∃ moment ∈ past, call.Made moment
  /-- A block that is not open any more was left for good, or control falls out of it. -/
  passed : ∀ label ∈ assembler.graph.blocks, assembler.IsOpen label ∨
    (∃ moment ∈ past, moment.Leaves label) ∨ assembler.graph.FallsOn label

/-- An open block that calls a subroutine has the edge into it, and lacks only the one to the
continuation. -/
def Awaits (assembler : Assembler) (past : List Moment) (continuation : Label) : Prop :=
  ∀ block, assembler.openBlock = some block → (assembler.graph.dutyOf block.label).1 = true →
    (assembler.graph.dutyOf block.label).2 = false ∧ ∃ entry, assembler.graph.IsEntry entry ∧
      (∃ others,
        assembler.graph.edgesOf block.label = ⟨.jump (block.height + 1), entry⟩ :: others) ∧
      ∃ moment ∈ past, Call.Made ⟨block.label, continuation, entry, block.height⟩ moment

/-- Nothing has been decided yet about how the open block ends. -/
def Undecided (assembler : Assembler) : Prop :=
  ∀ label, assembler.IsOpen label → assembler.graph.dutyOf label = (false, false)

variable {past : List Moment} {assembler before after : Assembler} {label : Label}

/-- Only one block is open. -/
theorem IsOpen.eq {other : Label} {isFallenInto : Bool} (isOpen : assembler.IsOpen label)
    (opened : assembler.openLabel? = some (other, isFallenInto)) : label = other := by
  obtain ⟨_, found⟩ := isOpen
  rw [opened] at found
  exact (Prod.mk.inj (Option.some.inj found)).1.symm

namespace Stays

/-- The same blocks are open. -/
theorem isOpen_iff (same : before.Stays after) : after.IsOpen label ↔ before.IsOpen label := by
  rw [IsOpen, IsOpen, same.opened]

/-- A block that is not open keeps its edges. -/
theorem edgesOf_eq (same : before.Stays after) (closed : ¬ before.IsOpen label) :
    after.graph.edgesOf label = before.graph.edgesOf label := by
  obtain ⟨new, edges, _, fromOpen⟩ := same.edges label
  rcases fromOpen with rfl | isOpen
  · exact edges
  · exact absurd isOpen closed

end Stays

namespace Wired

/-- More moments pass. -/
theorem mono (wired : assembler.Wired past) {longer : List Moment} (more : past ⊆ longer) :
    assembler.Wired longer where
  distinct := wired.distinct
  placed := wired.placed
  last := wired.last
  before := wired.before
  idle := wired.idle
  leads := wired.leads
  calls label closed calls := by
    obtain ⟨ends, call, caller, honors, moment, member, made⟩ := wired.calls label closed calls
    exact ⟨ends, call, caller, honors, moment, more member, made⟩
  passed label member := by
    rcases wired.passed label member with isOpen | ⟨moment, inPast, leaves⟩ | falls
    · exact .inl isOpen
    · exact .inr (.inl ⟨moment, more inPast, leaves⟩)
    · exact .inr (.inr falls)

/-- The open block stays open. -/
theorem stays (wired : before.Wired past) (same : before.Stays after) : after.Wired past where
  distinct := by rw [same.blocks]; exact wired.distinct
  placed label member := by
    rw [same.blocks] at member
    obtain ⟨offset, found, behind⟩ := wired.placed label member
    exact ⟨offset, same.offsets label offset found, Nat.le_trans behind same.size⟩
  last label isOpen := by
    rw [same.blocks]
    exact wired.last label (same.isOpen_iff.mp isOpen)
  before label member := by
    rw [same.blocks] at member
    rw [same.isOpen_iff, same.opened]
    refine (wired.before label member).imp_right (Or.imp_right ?_)
    rintro ⟨offset, found, before⟩
    exact ⟨offset, same.offsets label offset found, Nat.lt_of_lt_of_le before same.size⟩
  idle label other := by
    rw [same.blocks] at other
    rw [same.duties]
    exact wired.idle label other
  leads label edge member := by
    obtain ⟨new, edges, targets, _⟩ := same.edges label
    rw [edges] at member
    rcases List.mem_append.mp member with added | old
    · exact .inl (targets edge added)
    · rw [same.blocks, same.opened]
      exact (wired.leads label edge old).imp_left (same.targets _)
  calls label closed calls := by
    rw [same.isOpen_iff] at closed
    rw [same.duties] at calls ⊢
    obtain ⟨ends, call, rfl, honors, made⟩ := wired.calls label closed calls
    exact ⟨ends, call, rfl, honors.congr (same.edgesOf_eq closed) same.entries
      fun _ => FlowGraph.IsNext.congr same.blocks, made⟩
  passed label member := by
    rw [same.blocks] at member
    rw [same.isOpen_iff]
    refine (wired.passed label member).imp_right (Or.imp_right ?_)
    refine FlowGraph.FallsOn.congr (fun _ => FlowGraph.IsNext.congr same.blocks) fun edge old => ?_
    obtain ⟨new, edges, _⟩ := same.edges label
    rw [edges]
    exact List.mem_append_right _ old

end Wired

/-- The open block stays undecided. -/
theorem Undecided.stays (undecided : before.Undecided) (same : before.Stays after) :
    after.Undecided := by
  intro label isOpen
  rw [same.duties]
  exact undecided label (same.isOpen_iff.mp isOpen)

section CloseBlock

/-- No block is open once the open one is closed. -/
@[simp]
theorem openLabel?_closeBlock (assembler : Assembler) : assembler.closeBlock.openLabel? = none := by
  cases opened : assembler.openBlock <;> simp [closeBlock, openLabel?, opened]

/-- Closing the open block keeps the duties. -/
theorem dutyOf_closeBlock (assembler : Assembler) :
    assembler.closeBlock.graph.dutyOf = assembler.graph.dutyOf := by
  unfold closeBlock
  split
  · rfl
  · apply FlowGraph.dutyOf_update
    exact fun _ => ⟨rfl, rfl⟩

/-- Closing the open block lets entries be entries. -/
theorem isEntry_closeBlock (entry : assembler.graph.IsEntry label) :
    assembler.closeBlock.graph.IsEntry label := by
  unfold closeBlock
  split
  · exact entry
  · apply FlowGraph.isEntry_update
    · exact fun _ starts => starts
    · exact entry

end CloseBlock

namespace Wired

/-- The open block is left for good. All blocks lie before the end then. -/
theorem closeBlock (wired : assembler.Wired past) {moment : Moment} (member : moment ∈ past)
    (undecided : assembler.Undecided)
    (leaves : ∀ label, assembler.IsOpen label → moment.Leaves label)
    (before : ∀ label ∈ assembler.graph.blocks, ∃ offset,
      assembler.graph.offset? label = some offset ∧ offset < assembler.code.size) :
    assembler.closeBlock.Wired past := by
  have closed (label : Label) : ¬ assembler.closeBlock.IsOpen label := by simp [IsOpen]
  constructor
  case distinct =>
    rw [blocks_closeBlock]
    exact wired.distinct
  case placed =>
    rw [blocks_closeBlock, offset?_closeBlock, code_closeBlock]
    exact wired.placed
  case last => exact fun label isOpen => absurd isOpen (closed label)
  case before =>
    rw [blocks_closeBlock, offset?_closeBlock, code_closeBlock]
    exact fun label block => .inr (.inr (before label block))
  case idle =>
    rw [blocks_closeBlock, dutyOf_closeBlock]
    exact wired.idle
  case leads =>
    intro label edge leads
    rw [edgesOf_closeBlock] at leads
    rw [blocks_closeBlock, openLabel?_closeBlock]
    refine (wired.leads label edge leads).imp isTarget_closeBlock fun falls => ⟨falls.1, by simp⟩
  case calls =>
    intro label _ calls
    rw [dutyOf_closeBlock] at calls ⊢
    have notOpen : ¬ assembler.IsOpen label := by
      intro isOpen
      simp [undecided label isOpen] at calls
    obtain ⟨ends, call, rfl, honors, made⟩ := wired.calls label notOpen calls
    exact ⟨ends, call, rfl, honors.congr (congrFun (edgesOf_closeBlock assembler) _)
      (fun _ => isEntry_closeBlock) (fun _ => FlowGraph.IsNext.congr (blocks_closeBlock assembler)),
      made⟩
  case passed =>
    intro label block
    rw [blocks_closeBlock] at block
    rcases wired.passed label block with isOpen | left | falls
    · exact .inr (.inl ⟨moment, member, leaves label isOpen⟩)
    · exact .inr (.inl left)
    · refine .inr (.inr (falls.congr
        (fun _ => FlowGraph.IsNext.congr (blocks_closeBlock assembler)) fun edge old => ?_))
      rw [edgesOf_closeBlock]
      exact old

/-- A block that was left ends with the return from a subroutine. -/
theorem endsSubroutine (wired : assembler.Wired past) (block : label ∈ assembler.graph.blocks)
    (plain : (assembler.graph.dutyOf label).1 = false) :
    (assembler.update label fun node => { node with flags.endsSubroutine := true }).Wired past := by
  let after := assembler.update label fun node => { node with flags.endsSubroutine := true }
  have edges : after.graph.edgesOf = assembler.graph.edgesOf := by
    apply FlowGraph.edgesOf_update
    exact fun _ => rfl
  have offsets : after.graph.offset? = assembler.graph.offset? := by
    apply FlowGraph.offset?_congr
    apply FlowGraph.placement?_update
    exact fun _ => rfl
  have duties (other : Label) (different : label ≠ other) :
      after.graph.dutyOf other = assembler.graph.dutyOf other := by
    simp [after, Assembler.update, FlowGraph.dutyOf, FlowGraph.node?_update, different]
  have calls (other : Label) :
      (after.graph.dutyOf other).1 = (assembler.graph.dutyOf other).1 := by
    simp only [after, Assembler.update, FlowGraph.dutyOf, FlowGraph.node?_update]
    split
    · cases assembler.graph.node? other <;> rfl
    · rfl
  have entries (other : Label) (entry : assembler.graph.IsEntry other) :
      after.graph.IsEntry other := by
    apply FlowGraph.isEntry_update
    · exact fun _ starts => starts
    · exact entry
  have targets (other : Label) (target : assembler.graph.IsTarget other) :
      after.graph.IsTarget other := by
    apply FlowGraph.isTarget_update
    · exact fun _ marked => marked
    · exact target
  have same : after.openLabel? = assembler.openLabel? := rfl
  constructor
  case distinct => exact wired.distinct
  case placed =>
    rw [offsets]
    exact wired.placed
  case last => exact wired.last
  case before =>
    rw [offsets]
    exact wired.before
  case idle =>
    intro other outside
    have different : label ≠ other := by
      rintro rfl
      exact outside block
    rw [duties other different]
    exact wired.idle other outside
  case leads =>
    intro other edge member
    rw [edges] at member
    exact (wired.leads other edge member).imp_left (targets _)
  case calls =>
    intro other notOpen called
    rw [calls] at called
    have different : label ≠ other := by
      rintro rfl
      simp [plain] at called
    rw [duties other different]
    obtain ⟨ends, call, rfl, honors, made⟩ := wired.calls other notOpen called
    exact ⟨ends, call, rfl, honors.congr (congrFun edges _) entries fun _ next => next, made⟩
  case passed =>
    intro other inside
    refine (wired.passed other inside).imp_right (Or.imp_right ?_)
    refine FlowGraph.FallsOn.congr (fun _ next => next) fun edge old => ?_
    rw [edges]
    exact old

end Wired

section StartBlock

variable {block : OpenBlock}

/-- An edge is added to the open block, and to no other. -/
theorem edgesOf_addEdge (opened : assembler.openBlock = some block)
    (known : (assembler.graph.node? block.label).isSome) (successor other : Label) :
    (assembler.addEdge successor).graph.edgesOf other =
      if block.label = other then ⟨.jump block.height, successor⟩ :: assembler.graph.edgesOf other
      else assembler.graph.edgesOf other := by
  unfold addEdge
  rw [opened]
  exact FlowGraph.edgesOf_prepend known _ other

/-- An edge keeps the duties. -/
theorem dutyOf_addEdge (assembler : Assembler) (successor : Label) :
    (assembler.addEdge successor).graph.dutyOf = assembler.graph.dutyOf := by
  unfold addEdge
  split
  · rfl
  · apply FlowGraph.dutyOf_update
    exact fun _ => ⟨rfl, rfl⟩

/-- An edge lets entries be entries. -/
theorem isEntry_addEdge (entry : assembler.graph.IsEntry label) (successor : Label) :
    (assembler.addEdge successor).graph.IsEntry label := by
  unfold addEdge
  split
  · exact entry
  · apply FlowGraph.isEntry_update
    · exact fun _ starts => starts
    · exact entry

/-- An edge keeps the blocks. -/
theorem blocks_addEdge (assembler : Assembler) (successor : Label) :
    (assembler.addEdge successor).graph.blocks = assembler.graph.blocks := by
  unfold addEdge
  split <;> rfl

/-- A block that starts is the last one. -/
theorem blocks_startBlock (assembler : Assembler) (label : Label) :
    (assembler.startBlock label).graph.blocks = assembler.graph.blocks.push label := by
  unfold startBlock
  split
  · rfl
  · simp [openAt, FlowGraph.pushBlock, blocks_closeBlock, blocks_addEdge]

/-- A block that starts is open, and any open block falls into it. -/
theorem openLabel?_startBlock (assembler : Assembler) (label : Label) :
    (assembler.startBlock label).openLabel? = some (label, assembler.openBlock.isSome) := by
  unfold startBlock
  cases assembler.openBlock <;> rfl

/-- Starting a block keeps the duties. -/
theorem dutyOf_startBlock (assembler : Assembler) (label : Label) :
    (assembler.startBlock label).graph.dutyOf = assembler.graph.dutyOf := by
  unfold startBlock
  split
  · rfl
  · exact (dutyOf_closeBlock _).trans (dutyOf_addEdge assembler label)

/-- Starting a block keeps the offsets. -/
theorem offset?_startBlock (assembler : Assembler) (label : Label) :
    (assembler.startBlock label).graph.offset? = assembler.graph.offset? :=
  FlowGraph.offset?_congr (placement?_startBlock assembler label)

/-- Starting a block lets targets be targets. -/
theorem isTarget_startBlock {target : Label} (marked : assembler.graph.IsTarget target)
    (label : Label) : (assembler.startBlock label).graph.IsTarget target := by
  unfold startBlock
  split
  · exact marked
  · exact isTarget_closeBlock (isTarget_addEdge assembler label target marked)

/-- Starting a block lets entries be entries. -/
theorem isEntry_startBlock {entry : Label} (starts : assembler.graph.IsEntry entry)
    (label : Label) : (assembler.startBlock label).graph.IsEntry entry := by
  unfold startBlock
  split
  · exact starts
  · exact isEntry_closeBlock (isEntry_addEdge starts label)

/-- Without an open block, starting a block keeps the edges. -/
theorem edgesOf_startBlock_of_none (closed : assembler.openBlock = none) (label : Label) :
    (assembler.startBlock label).graph.edgesOf = assembler.graph.edgesOf := by
  unfold startBlock
  rw [closed]
  rfl

/-- The open block gets an edge to the block that starts. -/
theorem edgesOf_startBlock (opened : assembler.openBlock = some block)
    (known : (assembler.graph.node? block.label).isSome) (label other : Label) :
    (assembler.startBlock label).graph.edgesOf other =
      if block.label = other then ⟨.jump block.height, label⟩ :: assembler.graph.edgesOf other
      else assembler.graph.edgesOf other := by
  unfold startBlock
  rw [opened]
  exact (congrFun (edgesOf_closeBlock _) other).trans (edgesOf_addEdge opened known label other)

/-- What came next after a block still does when another one starts. -/
theorem isNext_startBlock_of_isNext {other next : Label}
    (follows : assembler.graph.IsNext other next)
    (label : Label) : (assembler.startBlock label).graph.IsNext other next :=
  (follows.pushBlock label).congr (blocks_startBlock assembler label)

end StartBlock

namespace Wired

variable {block : OpenBlock}

/-- The open block is one of the blocks. -/
theorem mem_blocks (wired : assembler.Wired past) (isOpen : assembler.IsOpen label) :
    label ∈ assembler.graph.blocks :=
  Array.mem_of_back? (wired.last label isOpen)

/-- The label of the open block is known. -/
theorem isSome_node? (wired : assembler.Wired past) (isOpen : assembler.IsOpen label) :
    (assembler.graph.node? label).isSome := by
  obtain ⟨offset, found, _⟩ := wired.placed label (wired.mem_blocks isOpen)
  exact FlowGraph.isSome_node?_of_offset? found

end Wired

/-- The open block is the one with its label. -/
theorem isOpen_of_openBlock {block : OpenBlock} (opened : assembler.openBlock = some block) :
    assembler.IsOpen block.label :=
  ⟨block.isFallenInto, by simp [openLabel?, opened]⟩

/-- There is an open block with an open label. -/
theorem IsOpen.exists_openBlock (isOpen : assembler.IsOpen label) :
    ∃ block, assembler.openBlock = some block ∧ block.label = label := by
  obtain ⟨isFallenInto, found⟩ := isOpen
  obtain ⟨block, opened, same⟩ := Option.map_eq_some_iff.mp found
  exact ⟨block, opened, (Prod.mk.inj same).1⟩

namespace Wired

/-- The open block falls into the block that starts. -/
theorem edgesOf_startBlock_open (wired : assembler.Wired past)
    (opened : assembler.openBlock = some block) (label : Label) :
    (assembler.startBlock label).graph.edgesOf block.label =
      ⟨.jump block.height, label⟩ :: assembler.graph.edgesOf block.label := by
  rw [edgesOf_startBlock opened (wired.isSome_node? (isOpen_of_openBlock opened)), if_pos rfl]

/-- A block that is not open keeps its edges when another one starts. -/
theorem edgesOf_startBlock_closed (wired : assembler.Wired past) {other : Label}
    (closed : ¬ assembler.IsOpen other) (label : Label) :
    (assembler.startBlock label).graph.edgesOf other = assembler.graph.edgesOf other := by
  cases found : assembler.openBlock with
  | none => rw [edgesOf_startBlock_of_none found]
  | some block =>
    have isOpen := isOpen_of_openBlock found
    have different : block.label ≠ other := fun same => closed (same ▸ isOpen)
    rw [edgesOf_startBlock found (wired.isSome_node? isOpen), if_neg different]

/-- The only edge that is added when a block starts leads to it from the open block. -/
theorem mem_edgesOf_startBlock (wired : assembler.Wired past) {other : Label} {edge : Edge} :
    edge ∈ (assembler.startBlock label).graph.edgesOf other ↔
      edge ∈ assembler.graph.edgesOf other ∨
        ∃ block, assembler.openBlock = some block ∧ block.label = other ∧
          edge = ⟨.jump block.height, label⟩ := by
  by_cases isOpen : assembler.IsOpen other
  · obtain ⟨block, found, rfl⟩ := isOpen.exists_openBlock
    rw [wired.edgesOf_startBlock_open found, List.mem_cons, or_comm]
    refine or_congr_right ⟨fun same => ⟨block, found, rfl, same⟩, ?_⟩
    rintro ⟨other, foundToo, -, same⟩
    obtain rfl := Option.some.inj (found.symm.trans foundToo)
    exact same
  · rw [wired.edgesOf_startBlock_closed isOpen]
    refine (or_iff_left ?_).symm
    rintro ⟨block, found, rfl, -⟩
    exact isOpen (isOpen_of_openBlock found)

/-- The block that starts comes next after the open one. -/
theorem isNext_startBlock (wired : assembler.Wired past) {other : Label}
    (isOpen : assembler.IsOpen other) (label : Label) :
    (assembler.startBlock label).graph.IsNext other label :=
  (FlowGraph.isNext_pushBlock (wired.last other isOpen) label).congr
    (blocks_startBlock assembler label)

/-- Without an open block, all blocks lie before the end. -/
theorem lies_of_openBlock_eq_none (wired : assembler.Wired past)
    (closed : assembler.openBlock = none) (member : label ∈ assembler.graph.blocks) :
    ∃ offset, assembler.graph.offset? label = some offset ∧ offset < assembler.code.size := by
  have none : assembler.openLabel? = none := by simp [openLabel?, closed]
  rcases wired.before label member with ⟨_, isOpen⟩ | ⟨_, isOpen⟩ | lies
  · simp [none] at isOpen
  · simp [none] at isOpen
  · exact lies

/-- Edges lead to targets, or to blocks that control falls into, when a block has started. -/
theorem leads_startBlock (wired : assembler.Wired past) (fresh : label ∉ assembler.graph.blocks)
    {other : Label} {edge : Edge}
    (member : edge ∈ (assembler.startBlock label).graph.edgesOf other) :
    (assembler.startBlock label).graph.IsTarget edge.successor ∨
      edge.successor ∈ (assembler.startBlock label).graph.blocks ∧
        (assembler.startBlock label).openLabel? ≠ some (edge.successor, false) := by
  rw [blocks_startBlock, openLabel?_startBlock]
  rcases wired.mem_edgesOf_startBlock.mp member with old | ⟨block, found, -, rfl⟩
  · refine (wired.leads other edge old).imp (isTarget_startBlock · label) fun falls => ?_
    refine ⟨Array.mem_push.mpr (.inl falls.1), fun same => fresh ?_⟩
    rw [(Prod.mk.inj (Option.some.inj same)).1]
    exact falls.1
  · exact .inr ⟨Array.mem_push_self, by simp [found]⟩

/-- A block that calls has the edges of a call when another block has started. -/
theorem calls_startBlock (wired : assembler.Wired past) (awaits : assembler.Awaits past label)
    {other : Label} (calls : (assembler.graph.dutyOf other).1 = true) :
    (assembler.graph.dutyOf other).2 = false ∧ ∃ call : Call, call.caller = other ∧
      (assembler.startBlock label).graph.Honors call ∧ ∃ moment ∈ past, call.Made moment := by
  by_cases isOpen : assembler.IsOpen other
  · obtain ⟨block, found, rfl⟩ := isOpen.exists_openBlock
    obtain ⟨ends, entry, starts, ⟨others, edges⟩, made⟩ := awaits block found calls
    refine ⟨ends, ⟨block.label, label, entry, block.height⟩, rfl, ⟨⟨others, ?_⟩, ?_, ?_⟩, made⟩
    · rw [wired.edgesOf_startBlock_open found, edges]
    · exact isEntry_startBlock starts label
    · exact wired.isNext_startBlock isOpen label
  · obtain ⟨ends, call, rfl, honors, made⟩ := wired.calls other isOpen calls
    have kept := honors.congr (wired.edgesOf_startBlock_closed isOpen label)
      (fun _ entry => isEntry_startBlock entry label) fun _ next =>
        isNext_startBlock_of_isNext next label
    exact ⟨ends, call, rfl, kept, made⟩

/-- Control falls out of blocks that were not left for good when another block has started. -/
theorem passed_startBlock (wired : assembler.Wired past) {other : Label}
    (member : other ∈ assembler.graph.blocks) (label : Label) :
    (∃ moment ∈ past, moment.Leaves other) ∨ (assembler.startBlock label).graph.FallsOn other := by
  rcases wired.passed other member with isOpen | left | falls
  · obtain ⟨block, found, rfl⟩ := isOpen.exists_openBlock
    refine .inr ⟨label, block.height, wired.isNext_startBlock isOpen label, ?_⟩
    exact wired.mem_edgesOf_startBlock.mpr (.inr ⟨block, found, rfl, rfl⟩)
  · exact .inl left
  · exact .inr (falls.congr (fun _ next => isNext_startBlock_of_isNext next label)
      fun _ old => wired.mem_edgesOf_startBlock.mpr (.inl old))

/-- A block starts at a label that was placed just now. -/
theorem startBlock (wired : assembler.Wired past) (fresh : label ∉ assembler.graph.blocks)
    (placed : assembler.graph.offset? label = some assembler.code.size)
    (awaits : assembler.Awaits past label) : (assembler.startBlock label).Wired past := by
  have opened := openLabel?_startBlock assembler label
  constructor
  case distinct =>
    rw [blocks_startBlock, Array.toList_push]
    refine List.nodup_append.mpr ⟨wired.distinct, by simp, ?_⟩
    rintro one member other here rfl
    obtain rfl : one = label := by simpa using here
    exact fresh (Array.mem_toList_iff.mp member)
  case placed =>
    intro other member
    rw [blocks_startBlock] at member
    rw [offset?_startBlock, code_startBlock]
    rcases Array.mem_push.mp member with before | rfl
    · exact wired.placed other before
    · exact ⟨_, placed, Nat.le_refl _⟩
  case last =>
    intro other isOpen
    rw [isOpen.eq opened, blocks_startBlock, Array.back?_push]
  case before =>
    intro other member
    rw [blocks_startBlock] at member
    rw [opened, offset?_startBlock, code_startBlock]
    rcases Array.mem_push.mp member with before | rfl
    · cases found : assembler.openBlock with
      | some block => exact .inr (.inl ⟨label, rfl⟩)
      | none => exact .inr (.inr (wired.lies_of_openBlock_eq_none found before))
    · exact .inl ⟨_, opened⟩
  case idle =>
    intro other outside
    rw [blocks_startBlock, Array.mem_push, not_or] at outside
    rw [dutyOf_startBlock]
    exact wired.idle other outside.1
  case leads => exact fun other edge member => wired.leads_startBlock fresh member
  case calls =>
    intro other _ calls
    rw [dutyOf_startBlock] at calls ⊢
    exact wired.calls_startBlock awaits calls
  case passed =>
    intro other member
    rw [blocks_startBlock] at member
    rcases Array.mem_push.mp member with before | rfl
    · exact .inr (wired.passed_startBlock before label)
    · exact .inl ⟨_, opened⟩

end Wired

/-- Nothing has been decided about a block that has just started. -/
theorem Wired.undecided_startBlock (wired : assembler.Wired past)
    (fresh : label ∉ assembler.graph.blocks) : (assembler.startBlock label).Undecided := by
  intro other isOpen
  rw [isOpen.eq (openLabel?_startBlock assembler label), dutyOf_startBlock]
  exact wired.idle label fresh

/-- A label without a place is no block. -/
theorem Wired.not_mem_of_unplaced (wired : assembler.Wired past)
    (unplaced : assembler.graph.offset? label = none) : label ∉ assembler.graph.blocks := by
  intro member
  obtain ⟨offset, found, _⟩ := wired.placed label member
  simp [unplaced] at found

/-- A subroutine that starts at the entry is called. -/
def enters (assembler : Assembler) (entry : Label) : Assembler :=
  { assembler with callsSubroutines := true }.update entry fun node =>
    { node with flags.startsSubroutine := true }

/-- A block ends with the call of a subroutine, and gets the edge into it. -/
def leavesTo (assembler : Assembler) (block : OpenBlock) (entry : Label) : Assembler :=
  let flagged := assembler.update block.label fun node =>
    { node with flags.callsSubroutine := true }
  { flagged with graph := flagged.graph.prepend block.label ⟨.jump (block.height + 1), entry⟩ }

/-- A block that ends with a call falls into the continuation then. -/
theorem calls_eq (assembler : Assembler) (block : OpenBlock) (entry : Label) :
    assembler.calls block entry = ((assembler.enters entry).leavesTo block entry).goesOn {} := rfl

/-- The open block stays open while the entry is marked. -/
theorem Stays.enters (assembler : Assembler) (entry : Label) :
    assembler.Stays (assembler.enters entry) := by
  have called : assembler.Stays { assembler with callsSubroutines := true } :=
    .of_graph rfl rfl (Nat.le_refl _)
  refine called.trans (.update _ entry (fun _ => rfl) (fun _ _ _ placed => placed)
    (fun _ => ⟨rfl, rfl⟩) (fun _ marked => marked) fun _ _ => rfl)

/-- The entry is marked. -/
theorem isEntry_enters {entry : Label} (known : (assembler.graph.node? entry).isSome) :
    (assembler.enters entry).graph.IsEntry entry := by
  obtain ⟨node, found⟩ := Option.isSome_iff_exists.mp known
  exact ⟨{ node with flags.startsSubroutine := true },
    by simp [Assembler.enters, Assembler.update, FlowGraph.node?_update, found], rfl⟩

section LeavesTo

variable {block : OpenBlock} {entry other : Label}

/-- A call adds the edge into the subroutine. -/
theorem edgesOf_leavesTo (known : (assembler.graph.node? block.label).isSome) :
    (assembler.leavesTo block entry).graph.edgesOf other =
      if block.label = other then
        ⟨.jump (block.height + 1), entry⟩ :: assembler.graph.edgesOf other
      else assembler.graph.edgesOf other := by
  have same : (assembler.graph.update block.label fun node =>
      { node with flags.callsSubroutine := true }).edgesOf = assembler.graph.edgesOf := by
    apply FlowGraph.edgesOf_update
    exact fun _ => rfl
  have still : ((assembler.graph.update block.label fun node =>
      { node with flags.callsSubroutine := true }).node? block.label).isSome := by
    rw [FlowGraph.isSome_node?_update]
    exact known
  rw [← same]
  exact FlowGraph.edgesOf_prepend still _ other

/-- A call keeps the offsets. -/
theorem offset?_leavesTo :
    (assembler.leavesTo block entry).graph.offset? = assembler.graph.offset? := by
  have flagged : (assembler.graph.update block.label fun node =>
      { node with flags.callsSubroutine := true }).placement? = assembler.graph.placement? := by
    apply FlowGraph.placement?_update
    exact fun _ => rfl
  refine FlowGraph.offset?_congr (Eq.trans ?_ flagged)
  apply FlowGraph.placement?_update
  exact fun _ => rfl

/-- A call gives its own block a duty, and no other. -/
theorem dutyOf_leavesTo (known : (assembler.graph.node? block.label).isSome) :
    (assembler.leavesTo block entry).graph.dutyOf other =
      if block.label = other then (true, (assembler.graph.dutyOf other).2)
      else assembler.graph.dutyOf other := by
  obtain ⟨node, found⟩ := Option.isSome_iff_exists.mp known
  by_cases same : block.label = other
  · subst same
    simp [leavesTo, Assembler.update, FlowGraph.prepend, FlowGraph.dutyOf, FlowGraph.node?_update,
      found, Node.prepend]
  · simp [leavesTo, Assembler.update, FlowGraph.prepend, FlowGraph.dutyOf, FlowGraph.node?_update,
      same]

/-- A call lets targets be targets. -/
theorem isTarget_leavesTo (target : assembler.graph.IsTarget other) :
    (assembler.leavesTo block entry).graph.IsTarget other := by
  apply FlowGraph.isTarget_update
  · exact fun _ marked => marked
  · apply FlowGraph.isTarget_update
    · exact fun _ marked => marked
    · exact target

/-- A call lets entries be entries. -/
theorem isEntry_leavesTo (starts : assembler.graph.IsEntry other) :
    (assembler.leavesTo block entry).graph.IsEntry other := by
  apply FlowGraph.isEntry_update
  · exact fun _ starts => starts
  · apply FlowGraph.isEntry_update
    · exact fun _ starts => starts
    · exact starts

end LeavesTo

/-- At the start no block has a duty. -/
theorem dutyOf_start (settings : Settings) (slots : UInt16) (label : Label) :
    (start settings slots).graph.dutyOf label = (false, false) := by
  cases label with
  | mk index => cases index <;> rfl

namespace Wired

variable {block : OpenBlock} {entry : Label}

/-- The open block ends with a call, but is open yet. -/
theorem leavesTo (wired : assembler.Wired past) (opened : assembler.openBlock = some block)
    (target : assembler.graph.IsTarget entry) : (assembler.leavesTo block entry).Wired past := by
  have isOpen := isOpen_of_openBlock opened
  have known := wired.isSome_node? isOpen
  have different {other : Label} (closed : ¬ assembler.IsOpen other) : block.label ≠ other := by
    rintro rfl
    exact closed isOpen
  constructor
  case distinct => exact wired.distinct
  case placed =>
    rw [offset?_leavesTo]
    exact wired.placed
  case last => exact wired.last
  case before =>
    rw [offset?_leavesTo]
    exact wired.before
  case idle =>
    intro other outside
    have notOpen : ¬ assembler.IsOpen other := fun isOpen => outside (wired.mem_blocks isOpen)
    rw [dutyOf_leavesTo known, if_neg (different notOpen)]
    exact wired.idle other outside
  case leads =>
    intro other edge member
    rw [edgesOf_leavesTo known] at member
    split at member
    · rcases List.mem_cons.mp member with rfl | old
      · exact .inl (isTarget_leavesTo target)
      · exact (wired.leads other edge old).imp_left isTarget_leavesTo
    · exact (wired.leads other edge member).imp_left isTarget_leavesTo
  case calls =>
    intro other closed calls
    have notOpen : ¬ assembler.IsOpen other := closed
    rw [dutyOf_leavesTo known, if_neg (different notOpen)] at calls ⊢
    obtain ⟨ends, call, rfl, honors, made⟩ := wired.calls other notOpen calls
    refine ⟨ends, call, rfl, honors.congr ?_ (fun _ => isEntry_leavesTo) fun _ next => next, made⟩
    rw [edgesOf_leavesTo known, if_neg (different notOpen)]
  case passed =>
    intro other member
    refine (wired.passed other member).imp_right (Or.imp_right ?_)
    refine FlowGraph.FallsOn.congr (fun _ next => next) fun edge old => ?_
    rw [edgesOf_leavesTo known]
    split
    · exact List.mem_cons_of_mem _ old
    · exact old

/-- The continuation of a call starts, once the open block has the edge into the subroutine. -/
theorem goesOn (wired : assembler.Wired past) (opened : assembler.openBlock = some block)
    (duty : assembler.graph.dutyOf block.label = (true, false))
    (starts : assembler.graph.IsEntry entry)
    (edges : ∃ others, assembler.graph.edgesOf block.label
      = ⟨.jump (block.height + 1), entry⟩ :: others)
    (made : ∀ continuation, (assembler.goesOn {}).openLabel? = some (continuation, true) →
      ∃ moment ∈ past, Call.Made ⟨block.label, continuation, entry, block.height⟩ moment) :
    (assembler.goesOn {}).Wired past ∧ (assembler.goesOn {}).Undecided := by
  obtain ⟨settled, stays, quiet, unplaced, placed, started⟩ := assembler.exists_of_goesOn
    (show ({} : Flags).callsSubroutine = false from rfl) rfl
  have fresh : assembler.graph.nextLabel ∉ settled.graph.blocks := by
    rw [stays.blocks]
    exact wired.not_mem_of_unplaced unplaced
  have settledWired := wired.stays stays
  have kept : settled.openBlock = some block := quiet.2.trans opened
  have label := openLabel?_startBlock settled assembler.graph.nextLabel
  rw [kept] at label
  rw [started] at made ⊢
  refine ⟨settledWired.startBlock fresh placed ?_, settledWired.undecided_startBlock fresh⟩
  intro other openNow _
  obtain rfl : block = other := Option.some.inj (kept.symm.trans openNow)
  rw [stays.duties, quiet.1.edges, duty]
  exact ⟨rfl, entry, stays.entries _ starts, edges, made _ label⟩

/-- The open block ends with a call, and the continuation starts. -/
theorem afterCall (wired : assembler.Wired past) (undecided : assembler.Undecided)
    (opened : assembler.openBlock = some block) (target : assembler.graph.IsTarget entry)
    (made : ∀ continuation, (assembler.calls block entry).openLabel? = some (continuation, true) →
      ∃ moment ∈ past, Call.Made ⟨block.label, continuation, entry, block.height⟩ moment) :
    (assembler.calls block entry).Wired past ∧ (assembler.calls block entry).Undecided := by
  have enters : assembler.Stays (assembler.enters entry) := .enters assembler entry
  have isOpen : (assembler.enters entry).IsOpen block.label := isOpen_of_openBlock opened
  have enteredWired := wired.stays enters
  have known := enteredWired.isSome_node? isOpen
  rw [calls_eq] at made ⊢
  refine (enteredWired.leavesTo opened (enters.targets _ target)).goesOn opened ?_ ?_ ?_ made
  · rw [dutyOf_leavesTo known, if_pos rfl, undecided.stays enters _ isOpen]
  · obtain ⟨node, found, _⟩ := target
    exact isEntry_leavesTo (isEntry_enters (Option.isSome_of_eq_some found))
  · exact ⟨_, by rw [edgesOf_leavesTo known, if_pos rfl]⟩

/-- The open block is left for good at a moment. -/
theorem ends {moment : Moment} {middle : Assembler} {block : OpenBlock}
    (wired : moment.before.Wired past) (undecided : moment.before.Undecided)
    (same : moment.before.Stays middle) (opened : middle.openBlock = some block)
    (leaves : moment.operation.leaves = true)
    (longer : moment.before.code.size < moment.after.code.size)
    (ended : middle.closeBlock = moment.after ∨ middle.endSubroutine = moment.after) :
    moment.after.Wired (past ++ [moment]) ∧ moment.after.Undecided := by
  have middleWired := (wired.mono (List.subset_append_left past [moment])).stays same
  have middleUndecided := undecided.stays same
  have code : moment.after.code = middle.code := by
    rcases ended with ended | ended <;> rw [← ended]
    · exact code_closeBlock middle
    · simp [endSubroutine, opened, Assembler.update]
  have closed : moment.after.openLabel? = none := by
    rcases ended with ended | ended <;> rw [← ended]
    · exact openLabel?_closeBlock middle
    · have none := openLabel?_closeBlock middle
      simpa [endSubroutine, opened, Assembler.update, openLabel?] using none
  have leavesBlock (label : Label) (isOpen : middle.IsOpen label) : moment.Leaves label := by
    obtain ⟨_, found⟩ := same.isOpen_iff.mp isOpen
    refine ⟨leaves, ?_, Option.map_eq_none_iff.mp closed⟩
    have names := congrArg (Option.map Prod.fst) found
    rwa [openLabel?, Option.map_map] at names
  have behind (label : Label) (member : label ∈ middle.graph.blocks) : ∃ offset,
      middle.graph.offset? label = some offset ∧ offset < middle.code.size := by
    rw [same.blocks] at member
    obtain ⟨offset, found, before⟩ := wired.placed label member
    exact ⟨offset, same.offsets _ _ found, code ▸ Nat.lt_of_le_of_lt before longer⟩
  have closedWired := middleWired.closeBlock (List.mem_append_right past List.mem_cons_self)
    middleUndecided leavesBlock behind
  refine ⟨?_, fun label isOpen => by simp [IsOpen, closed] at isOpen⟩
  rcases ended with ended | ended <;> rw [← ended]
  · exact closedWired
  · have isOpen := isOpen_of_openBlock opened
    rw [endSubroutine, opened]
    refine closedWired.endsSubroutine ?_ ?_
    · rw [blocks_closeBlock]
      exact middleWired.mem_blocks isOpen
    · rw [dutyOf_closeBlock, middleUndecided _ isOpen]

/-- What is true of the flow graph stays true in one operation. -/
theorem next {moment : Moment} (wired : moment.before.Wired past)
    (undecided : moment.before.Undecided) :
    moment.after.Wired (past ++ [moment]) ∧ moment.after.Undecided := by
  have later := wired.mono (List.subset_append_left past [moment])
  have moves : moment.before.Moves moment.operation moment.after := moves_after _ _
  cases moves with
  | stays same => exact ⟨later.stays same, undecided.stays same⟩
  | ends same opened leaves longer ended =>
    exact wired.ends undecided same opened leaves longer ended
  | @starts middle label same fresh placed started =>
    have unused : label ∉ middle.graph.blocks := by
      rw [same.blocks]
      exact wired.not_mem_of_unplaced fresh
    have middleWired := later.stays same
    rw [← started]
    refine ⟨middleWired.startBlock unused placed fun block opened calls => ?_,
      middleWired.undecided_startBlock unused⟩
    simp [undecided.stays same _ (isOpen_of_openBlock opened)] at calls
  | @calls middle block opcode entry same opened kept jumps isCall target called =>
    have ended := (later.stays same).afterCall (undecided.stays same) kept target
      fun continuation started => ⟨moment, List.mem_append_right past List.mem_cons_self,
        ⟨opcode, jumps, isCall⟩, ⟨block, opened, rfl, rfl⟩, called ▸ started⟩
    rw [called] at ended
    exact ended

/-- The first block of a method is open, and there is no other. -/
theorem start (settings : Settings) (slots : UInt16) : (start settings slots).Wired [] := by
  have only (label : Label) (member : label ∈ (Assembler.start settings slots).graph.blocks) :
      label = .start := by
    simpa [Assembler.start] using member
  have offset : (Assembler.start settings slots).graph.offset? .start = some 0 := rfl
  have opened : (Assembler.start settings slots).openLabel? = some (.start, false) := rfl
  have isOpen : (Assembler.start settings slots).IsOpen .start := ⟨false, opened⟩
  have edges (label : Label) : (Assembler.start settings slots).graph.edgesOf label = [] := by
    cases label with
    | mk index => cases index <;> rfl
  constructor
  case distinct => simp [Assembler.start]
  case placed =>
    intro label member
    rw [only label member]
    exact ⟨0, offset, Nat.zero_le _⟩
  case last =>
    intro label other
    rw [other.eq opened]
    rfl
  case before =>
    intro label member
    rw [only label member]
    exact .inl isOpen
  case idle => exact fun label _ => dutyOf_start settings slots label
  case leads =>
    intro label edge member
    simp [edges] at member
  case calls =>
    intro label _ calls
    simp [dutyOf_start] at calls
  case passed =>
    intro label member
    rw [only label member]
    exact .inl isOpen

/-- What is true of the flow graph stays true in a whole run. -/
theorem afterAll (wired : assembler.Wired past) (undecided : assembler.Undecided)
    (operations : List Operation) :
    (assembler.afterAll operations).Wired (past ++ assembler.history operations) ∧
      (assembler.afterAll operations).Undecided := by
  induction operations generalizing assembler past with
  | nil =>
    rw [history, List.append_nil]
    exact ⟨wired, undecided⟩
  | cons operation rest ih =>
    have first : (⟨assembler, operation⟩ : Moment).before.Wired past := wired
    obtain ⟨nextWired, nextUndecided⟩ := first.next undecided
    have whole := ih nextWired nextUndecided
    rw [List.append_assoc] at whole
    exact whole

end Wired

/-- What is true of the flow graph after a run from the start. -/
theorem wired_afterAll (settings : Settings) (slots : UInt16) (operations : List Operation) :
    ((start settings slots).afterAll operations).Wired
        ((start settings slots).history operations) ∧
      ((start settings slots).afterAll operations).Undecided := by
  have opened : (start settings slots).openLabel? = some (.start, false) := rfl
  have plain : (start settings slots).Undecided := by
    intro label isOpen
    rw [isOpen.eq opened]
    rfl
  simpa using (Wired.start settings slots).afterAll plain operations

end Assembler

end MethodBody
