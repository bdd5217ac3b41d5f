import MethodBody.Proofs.Passage
import MethodBody.Proofs.Performance
import Mathlib.Data.List.Chain

/-!
# Layouts

The passages of a run account for everything in the flow graph: each block has its passage, its
edges and its place, and a label that is no block has no edges (`Assembler.LaidOut`). Each step of
an operation changes the last passage only, or begins a new one.
-/

namespace MethodBody

namespace FlowGraph

/-- The edges that leave a label. -/
def edgesOf (graph : FlowGraph) (label : Label) : List Edge :=
  (graph.node? label).elim [] (·.edges)

/-- The edges of a block are those known at its label. -/
theorem edgesOf_of_known {graph : FlowGraph} {label : Label} {node : Node}
    (known : graph.node? label = some node) : graph.edgesOf label = node.edges := by
  simp [edgesOf, known]

/-- The largest stack height in the block at a label, above its start. -/
def peakOf (graph : FlowGraph) (label : Label) : Int32 :=
  (graph.node? label).elim 0 (·.peakHeight)

/-- Control can be transferred to the label. -/
def IsTarget (graph : FlowGraph) (label : Label) : Prop :=
  ∃ node, graph.node? label = some node ∧ node.flags.jumpTarget = true

/-- The blocks, their edges, heights and offsets are kept, and so are the targets. -/
structure Quiet (before after : FlowGraph) : Prop where
  /-- The blocks are the same. -/
  blocks : after.blocks = before.blocks
  /-- The edges are the same. -/
  edges : after.edgesOf = before.edgesOf
  /-- The heights are the same. -/
  peaks : after.peakOf = before.peakOf
  /-- A label keeps its offset. -/
  offsets : ∀ label offset, before.offset? label = some offset → after.offset? label = some offset
  /-- A target stays one. -/
  targets : ∀ label, before.IsTarget label → after.IsTarget label
  /-- A known label stays known. -/
  known : ∀ label, (before.node? label).isSome → (after.node? label).isSome

namespace Quiet

variable {first second third : FlowGraph}

/-- Doing nothing is quiet. -/
theorem refl (graph : FlowGraph) : Quiet graph graph :=
  ⟨rfl, rfl, rfl, fun _ _ found => found, fun _ target => target, fun _ known => known⟩

/-- Two quiet steps in a row are quiet. -/
theorem trans (one : Quiet first second) (two : Quiet second third) : Quiet first third where
  blocks := two.blocks.trans one.blocks
  edges := two.edges.trans one.edges
  peaks := two.peaks.trans one.peaks
  offsets label offset found := two.offsets label offset (one.offsets label offset found)
  targets label target := two.targets label (one.targets label target)
  known label known := two.known label (one.known label known)

end Quiet

section Update

variable (graph : FlowGraph) (changed : Label) {change : Node → Node}

/-- A change that keeps the edges. -/
theorem edgesOf_update (same : ∀ node, (change node).edges = node.edges) :
    (graph.update changed change).edgesOf = graph.edgesOf := by
  funext label
  simp only [edgesOf, node?_update]
  split
  · cases graph.node? label <;> simp [same]
  · rfl

/-- A change that keeps the heights. -/
theorem peakOf_update (same : ∀ node, (change node).peakHeight = node.peakHeight) :
    (graph.update changed change).peakOf = graph.peakOf := by
  funext label
  simp only [peakOf, node?_update]
  split
  · cases graph.node? label <;> simp [same]
  · rfl

/-- A change that takes no offset away. -/
theorem offset?_update (same : ∀ node, graph.node? changed = some node →
      ∀ offset, node.offset? = some offset → (change node).offset? = some offset)
    (label : Label) (offset : Nat) (found : graph.offset? label = some offset) :
    (graph.update changed change).offset? label = some offset := by
  obtain ⟨node, known, placed⟩ := Option.bind_eq_some_iff.mp found
  simp only [offset?, node?_update]
  split
  · rename_i here
    simp [known, same node (here ▸ known) offset placed]
  · simp [known, placed]

/-- A change that lets targets be targets. -/
theorem isTarget_update
    (same : ∀ node, node.flags.jumpTarget = true → (change node).flags.jumpTarget = true)
    (label : Label) (marked : graph.IsTarget label) :
    (graph.update changed change).IsTarget label := by
  obtain ⟨node, known, flagged⟩ := marked
  by_cases here : changed = label
  · exact ⟨change node, by simp [node?_update, here, known], same node flagged⟩
  · exact ⟨node, by simp [node?_update, here, known], flagged⟩

/-- A change of one label is quiet if it keeps the edges, the heights, the offset and the use as a
target. -/
theorem quiet_update (edges : ∀ node, (change node).edges = node.edges)
    (peak : ∀ node, (change node).peakHeight = node.peakHeight)
    (offset : ∀ node, graph.node? changed = some node →
      ∀ place, node.offset? = some place → (change node).offset? = some place)
    (target : ∀ node, node.flags.jumpTarget = true → (change node).flags.jumpTarget = true) :
    Quiet graph (graph.update changed change) where
  blocks := rfl
  edges := edgesOf_update graph changed edges
  peaks := peakOf_update graph changed peak
  offsets := offset?_update graph changed offset
  targets := isTarget_update graph changed target
  known label known := by rw [isSome_node?_update]; exact known

end Update

/-- A new label is quiet. -/
theorem quiet_create (graph : FlowGraph) (flags : Flags) : Quiet graph (graph.create flags) where
  blocks := rfl
  edges := by
    funext label
    simp only [edgesOf, node?_create]
    split
    · rename_i last
      simp [last]
    · rfl
  peaks := by
    funext label
    simp only [peakOf, node?_create]
    split
    · rename_i last
      simp [last]
    · rfl
  offsets label place found := by
    obtain ⟨node, known, placed⟩ := Option.bind_eq_some_iff.mp found
    have other : label ≠ graph.nextLabel := by
      rintro rfl
      simp at known
    simp [offset?, node?_create, other, known, placed]
  targets label marked := by
    obtain ⟨node, known, flagged⟩ := marked
    have other : label ≠ graph.nextLabel := by
      rintro rfl
      simp at known
    exact ⟨node, by simp [node?_create, other, known], flagged⟩
  known label known := by
    rw [node?_create]
    split
    · rfl
    · exact known

/-- An edge is added in front of the edges of a known block, and nothing else changes. -/
theorem edgesOf_prepend {graph : FlowGraph} {block : Label}
    (known : (graph.node? block).isSome) (edge : Edge) (label : Label) :
    (graph.prepend block edge).edgesOf label =
      if block = label then edge :: graph.edgesOf label else graph.edgesOf label := by
  obtain ⟨node, found⟩ := Option.isSome_iff_exists.mp known
  simp only [edgesOf, prepend, node?_update]
  by_cases same : block = label
  · subst same
    simp [found, Node.prepend]
  · simp [same]

/-- A label with an offset is known. -/
theorem isSome_node?_of_offset? {graph : FlowGraph} {label : Label} {offset : Nat}
    (placed : graph.offset? label = some offset) : (graph.node? label).isSome := by
  obtain ⟨node, known, _⟩ := Option.bind_eq_some_iff.mp placed
  simp [known]

end FlowGraph

namespace Assembler

section CloseBlock

variable {assembler : Assembler}

/-- Without an open block there is nothing to close. -/
theorem closeBlock_of_none (closed : assembler.openBlock = none) :
    assembler.closeBlock = assembler := by
  unfold closeBlock
  rw [closed]

/-- The stack heights of the open block are recorded when it is left. -/
theorem closeBlock_of_some {block : OpenBlock} (opened : assembler.openBlock = some block) :
    assembler.closeBlock = { assembler with openBlock := none }.update block.label fun node =>
      { node with outputHeight := block.height, peakHeight := block.peak } := by
  unfold closeBlock
  split
  · rename_i closed
    cases closed.symm.trans opened
  · rename_i other known
    obtain rfl := Option.some.inj (known.symm.trans opened)
    rfl

/-- Closing the open block keeps the edges. -/
theorem edgesOf_closeBlock (assembler : Assembler) :
    assembler.closeBlock.graph.edgesOf = assembler.graph.edgesOf := by
  unfold closeBlock
  split
  · rfl
  · exact FlowGraph.edgesOf_update _ _ fun _ => rfl

/-- Closing the open block keeps the blocks. -/
theorem blocks_closeBlock (assembler : Assembler) :
    assembler.closeBlock.graph.blocks = assembler.graph.blocks := by
  unfold closeBlock
  split <;> rfl

/-- Closing the open block keeps the offsets. -/
theorem offset?_closeBlock (assembler : Assembler) :
    assembler.closeBlock.graph.offset? = assembler.graph.offset? := by
  unfold closeBlock
  split
  · rfl
  · funext label
    simp only [FlowGraph.offset?, FlowGraph.node?_update]
    split
    · cases assembler.graph.node? label <;> rfl
    · rfl

/-- Closing the open block lets targets be targets. -/
theorem isTarget_closeBlock {label : Label} (target : assembler.graph.IsTarget label) :
    assembler.closeBlock.graph.IsTarget label := by
  unfold closeBlock
  split
  · exact target
  · apply FlowGraph.isTarget_update
    · exact fun _ marked => marked
    · exact target

end CloseBlock

/-- The passages account for the flow graph: those that have ended, and the one that is being
written. -/
structure LaidOut (assembler : Assembler) (listing : List Listed) (ended : List Passage)
    (current? : Option Passage) : Prop where
  /-- Each block has its passage. -/
  blocks : assembler.graph.blocks.toList = (ended ++ current?.toList).map Passage.label
  /-- The first block starts where the code does. -/
  first : (ended ++ current?.toList).head?.map Passage.offset = some 0
  /-- No block starts twice. -/
  distinct : ((ended ++ current?.toList).map Passage.label).Nodup
  /-- Each block has its offset. -/
  offsets : ∀ passage ∈ ended ++ current?.toList,
    assembler.graph.offset? passage.label = some passage.offset
  /-- Each block has its edges. -/
  edges : ∀ passage ∈ ended ++ current?.toList,
    assembler.graph.edgesOf passage.label = passage.edges
  /-- No other label has edges. -/
  others : ∀ label, label ∉ (ended ++ current?.toList).map Passage.label →
    assembler.graph.edgesOf label = []
  /-- The blocks follow each other. -/
  chain : (ended ++ current?.toList).IsChain Passage.Before
  /-- The instructions are listed. -/
  fits : ∀ passage ∈ ended ++ current?.toList, passage.Fits listing
  /-- No instruction lies behind the cursor. -/
  within : ∀ passage ∈ ended, passage.stop ≤ assembler.code.size
  /-- The edges of a block that has ended lead wherever control can go. -/
  ends : ∀ passage ∈ ended, passage.Ends
  /-- The heights of a block that has ended are recorded. -/
  peaks : ∀ passage ∈ ended, assembler.graph.peakOf passage.label = passage.peak
  /-- Control is transferred to targets. -/
  targets : ∀ passage ∈ ended, ∀ label ∈ passage.targets, assembler.graph.IsTarget label
  /-- The passage that is being written belongs to the open block. -/
  opened : (assembler.openBlock.map fun block => (block.label, block.height, block.peak))
    = current?.map fun passage => (passage.label, passage.height, passage.peak)
  /-- The passage that is being written ends at the cursor. -/
  stop : ∀ passage ∈ current?, passage.stop = assembler.code.size

/-- Between two operations, control does not fall out of the last block unless that block is being
written, and nothing has been decided yet about where it goes from there. -/
structure Settled (ended : List Passage) (current? : Option Passage) : Prop where
  /-- Control does not fall out of the last block that has ended. -/
  last : current? = none → ∀ passage ∈ ended.getLast?, passage.next? = none
  /-- Nothing has been decided yet about the passage that is being written. -/
  fresh : ∀ passage ∈ current?, passage.IsFresh

/-- A block that has just started is undecided. -/
theorem settled_start (ended : List Passage) (label : Label) (offset : Nat) :
    Settled ended (some { label, offset }) where
  last none := by simp at none
  fresh passage member := by
    obtain rfl : { label, offset } = passage := by simpa using member
    exact ⟨rfl, rfl, rfl⟩

section AllExact

variable {ended : List Passage} {passage : Passage}

/-- No stack height in the passages wraps around. -/
def AllExact (ended : List Passage) (current? : Option Passage) : Prop :=
  ∀ passage ∈ ended ++ current?.toList, passage.IsExact

/-- Heights do not wrap around in a passage whose instructions are those of another one. -/
theorem AllExact.exchange (exactly : AllExact ended (some passage)) {new : Passage}
    (same : new.instructions = passage.instructions) : AllExact ended (some new) := by
  obtain ⟨others, own⟩ := List.forall_mem_append.mp exactly
  have old : passage.IsExact := List.forall_mem_singleton.mp own
  refine List.forall_mem_append.mpr ⟨others, List.forall_mem_singleton.mpr ?_⟩
  rw [Passage.IsExact, same]
  exact old

/-- Heights do not wrap around in a passage that has just ended. -/
theorem AllExact.close (exactly : AllExact ended (some passage)) :
    AllExact (ended ++ [passage]) none := by
  rw [AllExact, Option.toList_none, List.append_nil]
  exact exactly

/-- No height wraps around at the start of a block. -/
theorem AllExact.openAt (exactly : AllExact ended none) (label : Label) (offset : Nat) :
    AllExact ended (some { label, offset }) := by
  obtain ⟨others, -⟩ := List.forall_mem_append.mp exactly
  exact List.forall_mem_append.mpr ⟨others, List.forall_mem_singleton.mpr trivial⟩

end AllExact

namespace LaidOut

variable {assembler after : Assembler} {listing : List Listed} {ended : List Passage}
  {current? : Option Passage} {passage : Passage} {listed : Listed}

/-- Quiet steps that write nothing keep the layout. -/
theorem quiet (laid : assembler.LaidOut listing ended current?)
    (same : FlowGraph.Quiet assembler.graph after.graph)
    (opened : after.openBlock = assembler.openBlock)
    (size : after.code.size = assembler.code.size) : after.LaidOut listing ended current? where
  blocks := by rw [same.blocks, laid.blocks]
  first := laid.first
  distinct := laid.distinct
  offsets passage member := same.offsets _ _ (laid.offsets passage member)
  edges passage member := by rw [same.edges, laid.edges passage member]
  others label other := by rw [same.edges, laid.others label other]
  chain := laid.chain
  fits := laid.fits
  within passage member := by rw [size]; exact laid.within passage member
  ends := laid.ends
  peaks passage member := by rw [same.peaks, laid.peaks passage member]
  targets passage member label target :=
    same.targets label (laid.targets passage member label target)
  opened := by rw [opened, laid.opened]
  stop passage member := by rw [size]; exact laid.stop passage member

/-- What is written while no block is open belongs to no passage. -/
theorem skip (laid : assembler.LaidOut listing ended none)
    (same : FlowGraph.Quiet assembler.graph after.graph) (opened : after.openBlock = none)
    (longer : assembler.code.size ≤ after.code.size) (more : List Listed) :
    after.LaidOut (listing ++ more) ended none where
  blocks := by rw [same.blocks, laid.blocks]
  first := laid.first
  distinct := laid.distinct
  offsets passage member := same.offsets _ _ (laid.offsets passage member)
  edges passage member := by rw [same.edges, laid.edges passage member]
  others label other := by rw [same.edges, laid.others label other]
  chain := laid.chain
  fits passage member := (laid.fits passage member).mono fun _ => List.mem_append_left _
  within passage member := Nat.le_trans (laid.within passage member) longer
  ends := laid.ends
  peaks passage member := by rw [same.peaks, laid.peaks passage member]
  targets passage member label target :=
    same.targets label (laid.targets passage member label target)
  opened := by rw [opened]; rfl
  stop passage member := by simp at member

/-- A block that has ended is not the one that is being written. -/
theorem label_ne (laid : assembler.LaidOut listing ended (some passage)) {other : Passage}
    (member : other ∈ ended) : passage.label ≠ other.label := by
  intro same
  have distinct := laid.distinct
  simp only [Option.toList_some, List.map_append, List.map_cons, List.map_nil,
    List.nodup_append] at distinct
  exact distinct.2.2 other.label (List.mem_map_of_mem member) passage.label
    List.mem_cons_self same.symm

/-- The passage that is being written is exchanged for another one at the same place. -/
theorem exchange (laid : assembler.LaidOut listing ended (some passage)) {new : Passage}
    {more : List Listed} (label : new.label = passage.label) (offset : new.offset = passage.offset)
    (blocks : after.graph.blocks = assembler.graph.blocks)
    (edges : ∀ label, after.graph.edgesOf label =
      if passage.label = label then new.edges else assembler.graph.edgesOf label)
    (peaks : after.graph.peakOf = assembler.graph.peakOf)
    (offsets : ∀ label offset, assembler.graph.offset? label = some offset →
      after.graph.offset? label = some offset)
    (targets : ∀ label, assembler.graph.IsTarget label → after.graph.IsTarget label)
    (opened : (after.openBlock.map fun block => (block.label, block.height, block.peak))
      = some (new.label, new.height, new.peak))
    (stop : new.stop = after.code.size) (longer : assembler.code.size ≤ after.code.size)
    (fits : new.Fits (listing ++ more)) :
    after.LaidOut (listing ++ more) ended (some new) := by
  have labels : (ended ++ (some new).toList).map Passage.label
      = (ended ++ (some passage).toList).map Passage.label := by simp [label]
  have here : passage ∈ ended ++ (some passage).toList := by simp
  have inOld (other : Passage) (member : other ∈ ended) :
      other ∈ ended ++ (some passage).toList := List.mem_append_left _ member
  have each {motive : Passage → Prop} (old : ∀ other ∈ ended, motive other) (last : motive new) :
      ∀ other ∈ ended ++ (some new).toList, motive other :=
    List.forall_mem_append.mpr ⟨old, List.forall_mem_singleton.mpr last⟩
  constructor
  case blocks => rw [blocks, laid.blocks, labels]
  case first =>
    have first := laid.first
    cases ended with
    | nil => simpa [offset] using first
    | cons other rest => exact first
  case distinct =>
    rw [labels]
    exact laid.distinct
  case offsets =>
    refine each (fun other member => offsets _ _ (laid.offsets other (inOld other member))) ?_
    rw [label, offset]
    exact offsets _ _ (laid.offsets passage here)
  case edges =>
    refine each (fun other member => ?_) ?_
    · rw [edges, if_neg (laid.label_ne member)]
      exact laid.edges other (inOld other member)
    · rw [edges, if_pos label.symm]
  case others =>
    intro other outside
    rw [labels] at outside
    have different : passage.label ≠ other := by
      rintro rfl
      exact outside (List.mem_map_of_mem here)
    rw [edges, if_neg different]
    exact laid.others other outside
  case chain =>
    obtain ⟨chain, _, joint⟩ := List.isChain_append.mp laid.chain
    refine List.isChain_append.mpr ⟨chain, List.isChain_singleton new, ?_⟩
    intro other last next first
    obtain rfl : new = next := by simpa using first
    have before := joint other last passage (by simp)
    rw [Passage.Before, label, offset]
    exact before
  case fits =>
    exact each (fun other member => (laid.fits other (inOld other member)).mono
      fun _ => List.mem_append_left _) fits
  case within => exact fun other member => Nat.le_trans (laid.within other member) longer
  case ends => exact laid.ends
  case peaks =>
    rw [peaks]
    exact laid.peaks
  case targets =>
    exact fun other member target leads => targets _ (laid.targets other member target leads)
  case opened => exact opened
  case stop =>
    intro other member
    obtain rfl : new = other := by simpa using member
    exact stop

/-- The open block, if there is a passage that is being written. -/
theorem exists_openBlock (laid : assembler.LaidOut listing ended (some passage)) :
    ∃ block, assembler.openBlock = some block ∧ block.label = passage.label ∧
      block.height = passage.height ∧ block.peak = passage.peak := by
  obtain ⟨block, found, same⟩ := Option.map_eq_some_iff.mp laid.opened
  simp only [Prod.mk.injEq] at same
  exact ⟨block, found, same.1, same.2.1, same.2.2⟩

/-- No block is open, if there is no passage that is being written. -/
theorem openBlock_eq_none (laid : assembler.LaidOut listing ended none) :
    assembler.openBlock = none :=
  Option.map_eq_none_iff.mp laid.opened

/-- The label of the passage that is being written is known. -/
theorem isSome_node? (laid : assembler.LaidOut listing ended (some passage)) :
    (assembler.graph.node? passage.label).isSome :=
  FlowGraph.isSome_node?_of_offset? (laid.offsets passage (by simp))

/-- An instruction is written into the passage. -/
theorem write (laid : assembler.LaidOut listing ended (some passage))
    (unended : passage.last? = none) (here : listed.offset = assembler.code.size)
    (same : FlowGraph.Quiet assembler.graph after.graph)
    (opened : after.openBlock
      = assembler.openBlock.map (·.adjust listed.instruction.delta))
    (size : after.code.size = listed.stop) :
    after.LaidOut (listing ++ [listed]) ended (some (passage.add listed)) := by
  obtain ⟨block, found, label, height, peak⟩ := laid.exists_openBlock
  have stop := laid.stop passage rfl
  have behind : listed.offset = passage.stop := by omega
  refine laid.exchange (Passage.label_add _ _) (Passage.offset_add _ _) same.blocks ?_ same.peaks
    same.offsets same.targets ?_ ?_ ?_ ((laid.fits passage (by simp)).add unended behind)
  · intro other
    rw [same.edges, Passage.edges_add]
    split
    · rename_i own
      rw [← own, laid.edges passage (by simp)]
    · rfl
  · rw [opened, found, Passage.label_add, Passage.height_add unended, Passage.peak_add unended]
    simp [OpenBlock.adjust, label, height, peak]
  · rw [Passage.stop_add unended behind, size]
  · rw [size, ← here]
    exact Nat.le_add_right _ _

/-- An edge is added to the passage. -/
theorem link (laid : assembler.LaidOut listing ended (some passage)) (successor : Label)
    (next? : Option Label) : (assembler.addEdge successor).LaidOut listing ended
      (some { passage.link successor with next? }) := by
  obtain ⟨block, found, label, height, peak⟩ := laid.exists_openBlock
  have known := laid.isSome_node?
  have linked : assembler.addEdge successor = { assembler with
      graph := assembler.graph.prepend block.label ⟨.jump block.height, successor⟩ } := by
    simp [addEdge, found]
  rw [← List.append_nil listing, linked]
  refine laid.exchange rfl rfl rfl ?_ (FlowGraph.peakOf_update _ _ fun _ => rfl)
    (FlowGraph.offset?_update _ _ fun _ _ _ placed => placed)
    (FlowGraph.isTarget_update _ _ fun _ marked => marked) ?_ (laid.stop passage rfl)
    (Nat.le_refl _) ?_
  · intro other
    rw [FlowGraph.edgesOf_prepend (label ▸ known), label, height]
    split
    · rename_i own
      rw [← own, laid.edges passage (by simp)]
      rfl
    · rfl
  · rw [found, Option.map_some, label, height, peak]
    rfl
  · obtain ⟨contiguous, listed, straight, last⟩ := laid.fits passage (by simp)
    rw [List.append_nil]
    exact ⟨contiguous, listed, straight, last⟩

/-- Closing the open block records its peak. -/
theorem peakOf_closeBlock (laid : assembler.LaidOut listing ended current?) :
    ∀ passage ∈ ended ++ current?.toList,
      assembler.closeBlock.graph.peakOf passage.label = passage.peak := by
  intro passage member
  cases current? with
  | none =>
    rw [closeBlock_of_none laid.openBlock_eq_none]
    exact laid.peaks passage (by simpa using member)
  | some last =>
    obtain ⟨block, opened, label, _, peak⟩ := laid.exists_openBlock
    obtain ⟨node, known⟩ := Option.isSome_iff_exists.mp laid.isSome_node?
    rw [closeBlock_of_some opened]
    rcases List.mem_append.mp member with before | here
    · have different : block.label ≠ passage.label := label ▸ laid.label_ne before
      rw [← laid.peaks passage before]
      simp [update, FlowGraph.peakOf, FlowGraph.node?_update, different]
    · obtain rfl : passage = last := by simpa using here
      simp [update, FlowGraph.peakOf, FlowGraph.node?_update, label, known, peak]

/-- The passage ends where nothing more is open. -/
theorem close (laid : assembler.LaidOut listing ended (some passage)) (ends : passage.Ends)
    (targets : ∀ label ∈ passage.targets, assembler.graph.IsTarget label) :
    assembler.closeBlock.LaidOut listing (ended ++ [passage]) none := by
  obtain ⟨block, found, -⟩ := laid.exists_openBlock
  have same : (ended ++ [passage]) ++ (none : Option Passage).toList
      = ended ++ (some passage).toList := List.append_nil _
  constructor
  case blocks => rw [same, blocks_closeBlock, laid.blocks]
  case first => rw [same, laid.first]
  case distinct =>
    rw [same]
    exact laid.distinct
  case offsets =>
    rw [same, offset?_closeBlock]
    exact laid.offsets
  case edges =>
    rw [same, edgesOf_closeBlock]
    exact laid.edges
  case others =>
    rw [same, edgesOf_closeBlock]
    exact laid.others
  case chain =>
    rw [same]
    exact laid.chain
  case fits =>
    rw [same]
    exact laid.fits
  case within =>
    rw [code_closeBlock, List.forall_mem_append, List.forall_mem_singleton]
    exact ⟨laid.within, Nat.le_of_eq (laid.stop passage rfl)⟩
  case ends => exact List.forall_mem_append.mpr ⟨laid.ends, List.forall_mem_singleton.mpr ends⟩
  case peaks => exact laid.peakOf_closeBlock
  case targets =>
    rw [List.forall_mem_append, List.forall_mem_singleton]
    exact ⟨fun other before label leads =>
      isTarget_closeBlock (laid.targets other before label leads),
      fun label leads => isTarget_closeBlock (targets label leads)⟩
  case opened =>
    rw [closeBlock_of_some found]
    rfl
  case stop => simp

/-- A block starts at a label that has just been placed. -/
theorem openAt (laid : assembler.LaidOut listing ended none) {label : Label}
    (fresh : label ∉ ended.map Passage.label)
    (placed : assembler.graph.offset? label = some assembler.code.size)
    (falls : ∀ passage ∈ ended.getLast?, ∀ next, passage.next? = some next →
      next = label ∧ assembler.code.size = passage.stop) (isFallenInto : Bool) :
    (assembler.openAt label isFallenInto).LaidOut listing ended
      (some { label, offset := assembler.code.size }) := by
  have blocks := laid.blocks
  have distinct := laid.distinct
  have chain := laid.chain
  simp only [Option.toList_none, List.append_nil] at blocks distinct chain
  have inOld (other : Passage) (member : other ∈ ended) :
      other ∈ ended ++ (none : Option Passage).toList := List.mem_append_left _ member
  have noEdges : assembler.graph.edgesOf label = [] := laid.others label (by simpa using fresh)
  have each {motive : Passage → Prop} (old : ∀ other ∈ ended, motive other)
      (new : motive { label, offset := assembler.code.size }) :
      ∀ other ∈ ended ++ (some ({ label, offset := assembler.code.size } : Passage)).toList,
        motive other :=
    List.forall_mem_append.mpr ⟨old, List.forall_mem_singleton.mpr new⟩
  constructor
  case blocks => simp [Assembler.openAt, FlowGraph.pushBlock, blocks]
  case first =>
    have first := laid.first
    cases ended with
    | nil => simp at first
    | cons other rest => exact first
  case distinct =>
    simp only [Option.toList_some, List.map_append, List.map_cons, List.map_nil]
    exact List.nodup_append.mpr ⟨distinct, by simp, by
      intro one member other here same
      obtain rfl : other = label := by simpa using here
      exact fresh (same ▸ member)⟩
  case offsets => exact each (fun other member => laid.offsets other (inOld other member)) placed
  case edges => exact each (fun other member => laid.edges other (inOld other member)) noEdges
  case others =>
    intro other outside
    refine laid.others other ?_
    simp only [Option.toList_none, List.append_nil]
    exact fun member => outside (by simp [member])
  case chain =>
    refine List.isChain_append.mpr ⟨chain, List.isChain_singleton _, ?_⟩
    intro other last next first
    obtain rfl : { label, offset := assembler.code.size } = next := by simpa using first
    exact ⟨laid.within other (List.mem_of_getLast? last), falls other last⟩
  case fits =>
    refine each (fun other member => laid.fits other (inOld other member)) ?_
    exact ⟨trivial, by simp [Passage.instructions], by simp, by simp⟩
  case within => exact laid.within
  case ends => exact laid.ends
  case peaks => exact laid.peaks
  case targets => exact laid.targets
  case opened => rfl
  case stop =>
    intro other member
    obtain rfl : { label, offset := assembler.code.size } = other := by simpa using member
    rfl

end LaidOut

end Assembler

end MethodBody
