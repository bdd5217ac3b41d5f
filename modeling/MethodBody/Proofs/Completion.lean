import MethodBody.Proofs.Anchors
import MethodBody.Proofs.Handlers
import MethodBody.Proofs.Heights

/-!
# Layouts of finished methods

When a method without calls is finished, its passages account for the final flow graph
(`Assembler.Completes`): each block has the edges of its passage and those to handlers, and control
is transferred to blocks only.
-/

namespace MethodBody

/-- The row holds the offsets of the labels of the range. -/
structure Handler.FillsIn (handler : Handler) (graph : FlowGraph) (row : HandlerRow) : Prop where
  /-- The offset of the first label. -/
  start : graph.offset? handler.start = some row.start.toNat
  /-- The offset of the label behind the range. -/
  stop : graph.offset? handler.stop = some row.stop.toNat
  /-- The offset of the handler. -/
  entry : graph.offset? handler.handler = some row.handler.toNat
  /-- The class of the exceptions. -/
  catchType : row.catchType = handler.catchType

namespace Assembler

/-- The passages of a finished method: those that have ended, and possibly a last one that nothing
was written into. -/
structure Completes (code : MethodCode) (listing : List Listed) (ended : List Passage)
    (last? : Option Passage) : Prop where
  /-- Each block has its passage. -/
  blocks : code.graph.blocks.toList = (ended ++ last?.toList).map Passage.label
  /-- The first block starts where the code does. -/
  first : (ended ++ last?.toList).head?.map Passage.offset = some 0
  /-- No block starts twice. -/
  distinct : ((ended ++ last?.toList).map Passage.label).Nodup
  /-- Each block has its offset. -/
  offsets : ∀ passage ∈ ended ++ last?.toList,
    code.graph.offset? passage.label = some passage.offset
  /-- The blocks follow each other. -/
  chain : (ended ++ last?.toList).IsChain Passage.Before
  /-- The instructions are listed. -/
  fits : ∀ passage ∈ ended ++ last?.toList, passage.Fits listing
  /-- The edges lead wherever control can go. -/
  ends : ∀ passage ∈ ended, passage.Ends
  /-- Control falls out of a block only if another one follows. -/
  falls : last? = none → ∀ passage ∈ ended.getLast?, passage.next? = none
  /-- Each block has its edges. -/
  edges : ∀ passage ∈ ended, ∀ edge ∈ passage.edges, edge ∈ code.graph.edgesOf passage.label
  /-- All other edges lead to handlers. -/
  others : ∀ label, ∀ edge ∈ code.graph.edgesOf label, edge.transfer = .exception ∨
    ∃ passage ∈ ended, passage.label = label ∧ edge ∈ passage.edges
  /-- The heights of each block are recorded. -/
  peaks : ∀ passage ∈ ended ++ last?.toList, code.graph.peakOf passage.label = passage.peak
  /-- Control is transferred to blocks. -/
  targets : ∀ passage ∈ ended, ∀ label ∈ passage.targets,
    ∃ other ∈ ended ++ last?.toList, other.label = label
  /-- Nothing was written into a last block that has not ended. -/
  last : ∀ passage ∈ last?, passage.instructions = [] ∧ passage.offset = code.code.size
  /-- A handler is a block, which each block that holds a protected instruction has an edge to. -/
  handlers : ∀ row ∈ code.handlers, ∃ handler ∈ ended ++ last?.toList,
    handler.offset = row.handler.toNat ∧ ∀ passage ∈ ended, ∀ offset, passage.offset ≤ offset →
      offset < passage.stop → row.start.toNat ≤ offset → offset < row.stop.toNat →
        ⟨.exception, handler.label⟩ ∈ code.graph.edgesOf passage.label

/-- A block that is not the last one has ended. -/
theorem mem_ended {ended : List Passage} {last? : Option Passage} {passage : Passage}
    (member : passage ∈ ended ++ last?.toList) (notLast : passage ∉ last?) : passage ∈ ended := by
  rcases List.mem_append.mp member with block | last
  · exact block
  · exact absurd (Option.mem_toList.mp last) notLast

/-- One block lies behind another one. -/
def Precedes (first second : Passage) : Prop := first.stop ≤ second.offset

/-- Blocks that lie behind each other lie in a row. -/
instance : Trans Precedes Precedes Precedes where
  trans {first second third} one two := by
    have inside : second.offset ≤ second.stop := Nat.le_add_right _ _
    exact Nat.le_trans one (Nat.le_trans inside two)

/-- Blocks that follow each other lie one behind the other. -/
theorem pairwise_of_chain {passages : List Passage} (chain : passages.IsChain Passage.Before) :
    passages.Pairwise Precedes := by
  have behind : passages.IsChain Precedes := chain.imp fun _ _ before => before.1
  exact behind.pairwise

/-- A block that holds an instruction between two other blocks lies between them. -/
theorem index_between {passages : List Passage} (chain : passages.IsChain Passage.Before)
    {first last index offset : Nat} {start stop passage : Passage}
    (starts : passages[first]? = some start) (stops : passages[last]? = some stop)
    (here : passages[index]? = some passage) (behind : start.offset ≤ offset)
    (before : offset < stop.offset) (since : passage.offset ≤ offset)
    (until_ : offset < passage.stop) : first ≤ index ∧ index < last := by
  have ordered := List.pairwise_iff_getElem.mp (pairwise_of_chain chain)
  obtain ⟨startInside, rfl⟩ := List.getElem?_eq_some_iff.mp starts
  obtain ⟨stopInside, rfl⟩ := List.getElem?_eq_some_iff.mp stops
  obtain ⟨inside, rfl⟩ := List.getElem?_eq_some_iff.mp here
  constructor
  · refine Nat.le_of_not_lt fun less => ?_
    have apart : passages[index].stop ≤ passages[first].offset :=
      ordered index first inside startInside less
    omega
  · refine Nat.lt_of_not_le fun more => ?_
    rcases Nat.eq_or_lt_of_le more with rfl | less
    · omega
    · have apart : passages[last].stop ≤ passages[index].offset :=
        ordered last index stopInside inside less
      have short : passages[last].offset ≤ passages[last].stop := Nat.le_add_right _ _
      omega

variable {assembler : Assembler} {listing : List Listed} {ended : List Passage}
  {current? : Option Passage} {handled returned : FlowGraph} {code : MethodCode}

/-- The offset in a table is that of the label. -/
theorem of_tableOffset {label : Label} {word : UInt16}
    (found : assembler.tableOffset label = .ok word) :
    assembler.graph.offset? label = some word.toNat := by
  unfold tableOffset at found
  obtain ⟨node, looked, rest⟩ := bind_eq_ok.mp found
  obtain ⟨offset, placed, fits⟩ := bind_eq_ok.mp rest
  have known := FlowGraph.known_of_node looked
  have place : node.offset? = some offset := by
    unfold Node.offset at placed
    split at placed
    · rename_i place
      rw [place, Except.ok.inj placed]
    · simp at placed
  unfold toWord at fits
  split at fits
  · rename_i small
    obtain rfl := Except.ok.inj fits
    simp only [FlowGraph.offset?, known, Option.bind_some, place, UInt16.toNat_ofNat']
    rw [Nat.mod_eq_of_lt small]
  · simp at fits

/-- The rows of the exception table hold the offsets of the labels of the handlers. -/
theorem Finishes.fillsIn (finishes : assembler.Finishes handled returned code) :
    List.Forall₂ (fun handler row => handler.FillsIn code.graph row) assembler.handlers.toList
      code.handlers := by
  have rows := forall₂_of_mapM finishes.handlers_eq
  simp only [handlers_closeBlock] at rows
  refine rows.imp fun handler row found => ?_
  obtain ⟨start, starts, others⟩ := bind_eq_ok.mp found
  obtain ⟨stop, stops, last⟩ := bind_eq_ok.mp others
  obtain ⟨entry, handles, row⟩ := bind_eq_ok.mp last
  obtain rfl := Except.ok.inj row
  exact ⟨of_tableOffset starts, of_tableOffset stops, of_tableOffset handles, rfl⟩

/-- Finishing a method without calls only adds edges to handlers. -/
theorem Finishes.addsHandlers (finishes : assembler.Finishes handled returned code)
    (plain : assembler.callsSubroutines = false) :
    FlowGraph.AddsHandlers assembler.closeBlock.graph returned := by
  have returns := finishes.returns
  rw [plain] at returns
  obtain rfl : returned = handled := by simpa using returns
  exact (mem_edgesOf_of_forEach finishes.handles).1

/-- Computing the maxima keeps the flow. -/
theorem Finishes.sameFlow (finishes : assembler.Finishes handled returned code)
    (plain : ∀ label node, returned.node? label = some node → node.flags.callsSubroutine = false) :
    FlowGraph.SameFlow returned code.graph := by
  have measures := finishes.measures
  split at measures
  · obtain ⟨height, yields, _⟩ := measures
    exact (FlowGraph.le_of_computeMaxStack yields plain).1
  · rw [measures.1]
    exact ⟨rfl, rfl, rfl⟩

/-- No subroutine is called after the last block is closed. -/
theorem Anchored.closed_plain (anchored : assembler.Anchored false none) :
    ∀ label node, assembler.closeBlock.graph.node? label = some node →
      node.flags.callsSubroutine = false :=
  fun label node known => by simpa using (anchored.closeBlock.labels label node known).plain

/-- The block that is open when a method is finished is empty and lies at the end of the code. -/
theorem Finishes.last (finishes : assembler.Finishes handled returned code)
    (laid : assembler.LaidOut listing ended current?)
    (bytes : ∀ listed ∈ listing, listed.offset < listed.stop) {passage : Passage}
    (member : passage ∈ current?) :
    passage.instructions = [] ∧ passage.offset = code.code.size := by
  obtain rfl : current? = some passage := member
  obtain ⟨block, opened, label, _, _⟩ := laid.exists_openBlock
  have here : passage ∈ ended ++ (some passage).toList := by simp
  obtain ⟨node, known, place⟩ := Option.bind_eq_some_iff.mp (laid.offsets passage here)
  have complete := (of_unfinished?_eq_none finishes.complete).1
  have ends : node.offset? = some assembler.code.cursor := by
    rw [← label] at known
    simp only [unfinishedBlock?, opened, known, Option.bind_eq_bind, Option.bind_some] at complete
    split at complete
    · rename_i fine
      simp only [Bool.and_eq_true, decide_eq_true_eq] at fine
      exact fine.1.1
    · simp at complete
  have offset : passage.offset = assembler.code.size := Option.some.inj (place.symm.trans ends)
  have stop : passage.stop = assembler.code.size := laid.stop passage rfl
  refine ⟨?_, by rw [offset, finishes.code_eq]⟩
  cases written : passage.instructions with
  | nil => rfl
  | cons listed rest =>
    have short := bytes listed ((laid.fits passage here).listed listed (by simp [written]))
    have behind : passage.stop = passage.offset + Listed.size ([listed] ++ rest) := by
      rw [Passage.stop, written]
      rfl
    have first := listed.offset_add_size
    rw [Listed.size_append] at behind
    omega

/-- A label that control is transferred to has a passage if it has an offset. -/
theorem LaidOut.exists_passage (laid : assembler.LaidOut listing ended current?)
    (anchored : assembler.Anchored false none) {label : Label}
    (marked : assembler.graph.IsTarget label)
    {offset : Nat} (placed : assembler.graph.offset? label = some offset) :
    ∃ passage ∈ ended ++ current?.toList, passage.label = label := by
  have block := Array.mem_toList_iff.mpr (anchored.isBlock marked placed)
  rw [laid.blocks] at block
  exact List.mem_map.mp block

/-- The passages stand in the order of the blocks. -/
theorem LaidOut.getElem?_blocks_closeBlock (laid : assembler.LaidOut listing ended current?)
    (place : Nat) : assembler.closeBlock.graph.blocks[place]?
      = (ended ++ current?.toList)[place]?.map Passage.label := by
  rw [blocks_closeBlock, ← Array.getElem?_toList, laid.blocks, List.getElem?_map]

/-- The edges that a method without calls has in the end are those to handlers and those of the
passages that have ended. -/
theorem LaidOut.exception_or_of_mem (laid : assembler.LaidOut listing ended current?)
    (settled : Settled ended current?)
    (adds : FlowGraph.AddsHandlers assembler.closeBlock.graph returned)
    (flow : FlowGraph.SameFlow returned code.graph) {label : Label} {edge : Edge}
    (member : edge ∈ code.graph.edgesOf label) : edge.transfer = .exception ∨
      ∃ passage ∈ ended, passage.label = label ∧ edge ∈ passage.edges := by
  rw [flow.edges] at member
  rcases adds.new label edge member with before | handles
  · rw [edgesOf_closeBlock] at before
    by_cases block : label ∈ (ended ++ current?.toList).map Passage.label
    · obtain ⟨passage, inside, rfl⟩ := List.mem_map.mp block
      rw [laid.edges passage inside] at before
      rcases List.mem_append.mp inside with old | new
      · exact .inr ⟨passage, old, rfl, before⟩
      · rw [(settled.fresh passage (Option.mem_toList.mp new)).edges] at before
        simp at before
    · rw [laid.others label block] at before
      simp at before
  · exact .inl handles

/-- Control is transferred to labels only that have a passage. -/
theorem Finishes.exists_target (finishes : assembler.Finishes handled returned code)
    (laid : assembler.LaidOut listing ended current?) (anchored : assembler.Anchored false none)
    {passage : Passage} (block : passage ∈ ended) {label : Label}
    (named : label ∈ passage.targets) :
    ∃ other ∈ ended ++ current?.toList, other.label = label := by
  have marked := laid.targets passage block label named
  obtain ⟨node, known, flagged⟩ := marked
  have complete := (of_unfinished?_eq_none finishes.complete).2.1
  have placed := (of_unplacedTargets_eq_nil complete known).2 flagged
  obtain ⟨offset, place⟩ := Option.isSome_iff_exists.mp placed
  have has : assembler.graph.offset? label = some offset := by
    simp [FlowGraph.offset?, known, place]
  exact laid.exists_passage anchored ⟨node, known, flagged⟩ has

/-- A block that holds a protected instruction has an edge to the handler. -/
theorem Finishes.mem_edgesOf_of_protected (finishes : assembler.Finishes handled returned code)
    (laid : assembler.LaidOut listing ended current?) (plain : assembler.callsSubroutines = false)
    (flow : FlowGraph.SameFlow returned code.graph) {handler : Handler}
    (listed : handler ∈ assembler.handlers.toList) {row : HandlerRow}
    (fills : handler.FillsIn code.graph row) {passage : Passage}
    (block : passage ∈ ended) {offset : Nat}
    (since : passage.offset ≤ offset) (within : offset < passage.stop)
    (behind : row.start.toNat ≤ offset) (before : offset < row.stop.toNat) :
    ⟨.exception, handler.handler⟩ ∈ code.graph.edgesOf passage.label := by
  obtain ⟨protected_, found, leads⟩ := (mem_edgesOf_of_forEach finishes.handles).2 handler listed
  obtain ⟨first, last, -, firstIs, lastIs, rfl⟩ := exists_of_protectedBlocks found
  rw [laid.getElem?_blocks_closeBlock] at firstIs lastIs
  obtain ⟨start, startIs, startLabel⟩ := Option.map_eq_some_iff.mp firstIs
  obtain ⟨stop, stopIs, stopLabel⟩ := Option.map_eq_some_iff.mp lastIs
  have startOffset := laid.offsets start (List.mem_of_getElem? startIs)
  have stopOffset := laid.offsets stop (List.mem_of_getElem? stopIs)
  rw [startLabel, ← finishes.offset?_eq, fills.start] at startOffset
  rw [stopLabel, ← finishes.offset?_eq, fills.stop] at stopOffset
  obtain ⟨here, isHere⟩ := List.mem_iff_getElem?.mp (List.mem_append_left current?.toList block)
  have range := index_between laid.chain startIs stopIs isHere
    (by rw [← Option.some.inj startOffset]; exact behind)
    (by rw [← Option.some.inj stopOffset]; exact before) since within
  have edge := leads passage.label (FlowGraph.mem_extract_iff.mpr
    ⟨here, range.1, range.2, by rw [laid.getElem?_blocks_closeBlock, isHere]; rfl⟩)
  have returns := finishes.returns
  rw [plain] at returns
  obtain rfl : returned = handled := by simpa using returns
  rw [flow.edges]
  exact edge

/-- A handler in the exception table has a passage, and the blocks that hold protected instructions
have edges to it. -/
theorem Finishes.exists_handler (finishes : assembler.Finishes handled returned code)
    (laid : assembler.LaidOut listing ended current?) (anchored : assembler.Anchored false none)
    (flow : FlowGraph.SameFlow returned code.graph) {row : HandlerRow}
    (member : row ∈ code.handlers) :
    ∃ handler ∈ ended ++ current?.toList, handler.offset = row.handler.toNat ∧
      ∀ passage ∈ ended, ∀ offset, passage.offset ≤ offset → offset < passage.stop →
        row.start.toNat ≤ offset → offset < row.stop.toNat →
          ⟨.exception, handler.label⟩ ∈ code.graph.edgesOf passage.label := by
  obtain ⟨handler, listed, fills⟩ := exists_of_mem_forall₂ finishes.fillsIn member
  have handles := fills.entry
  rw [finishes.offset?_eq] at handles
  obtain ⟨entry, inside, label⟩ :=
    laid.exists_passage anchored
      (anchored.handlers handler (Array.mem_toList_iff.mp listed)) handles
  refine ⟨entry, inside, ?_, fun passage block offset since within behind before => ?_⟩
  · have found := laid.offsets entry inside
    rw [label, handles] at found
    exact (Option.some.inj found).symm
  · rw [label]
    exact finishes.mem_edgesOf_of_protected laid anchored.noCalls flow listed
      fills block since within
      behind before

/-- The passages of a method that is finished. -/
theorem Finishes.completes (finishes : assembler.Finishes handled returned code)
    (laid : assembler.LaidOut listing ended current?) (settled : Settled ended current?)
    (anchored : assembler.Anchored false none)
    (bytes : ∀ listed ∈ listing, listed.offset < listed.stop) :
    Completes code listing ended current? := by
  have adds := finishes.addsHandlers anchored.noCalls
  have flow := finishes.sameFlow (adds.plain anchored.closed_plain)
  constructor
  case blocks => rw [flow.blocks, adds.blocks, blocks_closeBlock, laid.blocks]
  case first => exact laid.first
  case distinct => exact laid.distinct
  case offsets =>
    intro passage member
    rw [finishes.offset?_eq, laid.offsets passage member]
  case chain => exact laid.chain
  case fits => exact laid.fits
  case ends => exact laid.ends
  case falls => exact settled.last
  case edges =>
    intro passage member edge leaves
    rw [← laid.edges passage (List.mem_append_left _ member)] at leaves
    rw [flow.edges]
    exact adds.kept _ edge (edgesOf_closeBlock assembler ▸ leaves)
  case others => exact fun label edge member => laid.exception_or_of_mem settled adds flow member
  case peaks =>
    intro passage member
    rw [flow.peaks, adds.peaks]
    exact laid.peakOf_closeBlock passage member
  case targets =>
    exact fun passage member label named => finishes.exists_target laid anchored member named
  case last => exact fun passage member => finishes.last laid bytes member
  case handlers => exact fun row member => finishes.exists_handler laid anchored flow member

/-- Control falls out of a block without instructions. -/
theorem Completes.isSome_next? (completes : Completes code listing ended current?)
    {passage : Passage}
    (block : passage ∈ ended) (empty : passage.instructions = []) : passage.next?.isSome := by
  have unended : passage.last? = none := by
    cases last : passage.last? with
    | none => rfl
    | some listed => simp [Passage.instructions, last] at empty
  rw [(completes.ends passage block).next, unended]
  rfl

/-- A block that has ended is not a last one that has not. -/
theorem Completes.not_mem_last_of_mem (completes : Completes code listing ended current?)
    {passage : Passage} (block : passage ∈ ended) : passage ∉ current? := by
  intro member
  have distinct := completes.distinct
  rw [List.map_append, List.nodup_append] at distinct
  exact distinct.2.2 passage.label (List.mem_map_of_mem block) passage.label
    (List.mem_map_of_mem (Option.mem_toList.mpr member)) rfl

/-- Control does not fall out of the last of all blocks. -/
theorem Completes.next?_of_getLast? (completes : Completes code listing ended current?)
    {passage : Passage} (block : passage ∈ ended)
    (final : (ended ++ current?.toList).getLast? = some passage) : passage.next? = none := by
  cases last : current? with
  | none =>
    rw [last, Option.toList_none, List.append_nil] at final
    exact completes.falls last passage final
  | some other =>
    rw [last] at final
    obtain rfl : other = passage := by simpa using final
    exact absurd last (completes.not_mem_last_of_mem block)

/-- An instruction that names a label is the last one of its block. -/
theorem Completes.last?_of_targets (completes : Completes code listing ended current?)
    {passage : Passage}
    (member : passage ∈ ended ++ current?.toList) {front back : List Listed} {listed : Listed}
    (split : passage.instructions = front ++ listed :: back) {target : Label}
    (named : target ∈ listed.instruction.targets) :
    passage.last? = some listed ∧ back = [] := by
  have outside : listed ∉ passage.body := by
    intro inside
    have straight := (completes.fits passage member).straight listed inside
    simp only [Instruction.isStraight, Bool.and_eq_true, List.isEmpty_iff] at straight
    rw [straight.1] at named
    simp at named
  unfold Passage.instructions at split
  cases last : passage.last? with
  | none =>
    rw [last, Option.toList_none, List.append_nil] at split
    exact absurd (split ▸ List.mem_append_right front List.mem_cons_self) outside
  | some final =>
    rw [last, Option.toList_some] at split
    rcases List.eq_nil_or_concat back with rfl | ⟨others, other, rfl⟩
    · obtain ⟨_, only⟩ := List.append_inj' split rfl
      exact ⟨congrArg some (List.cons.inj only).1, rfl⟩
    · have body : passage.body ++ [final] = (front ++ listed :: others) ++ [other] := by
        simpa using split
      obtain ⟨same, _⟩ := List.append_inj' body rfl
      exact absurd (same ▸ List.mem_append_right front List.mem_cons_self) outside

/-- The instructions make up the code, and all of them have bytes. -/
structure IsWhole (code : MethodCode) (listing : List Listed) : Prop where
  /-- There are no gaps. -/
  contiguous : Contiguous 0 listing
  /-- Nothing else is in the code. -/
  size : code.code.size = Listed.size listing
  /-- No instruction is empty. -/
  bytes : ∀ listed ∈ listing, listed.offset < listed.stop

/-- An instruction lies within the code. -/
theorem IsWhole.stop_le (whole : IsWhole code listing) {listed : Listed} (here : listed ∈ listing) :
    listed.stop ≤ code.code.size := by
  have stop := (Listed.stop_le whole.contiguous here).2
  rw [whole.size, Listed.size]
  omega

/-- A run in which no operation fails, and none is a call, has passages when it is finished. No
stack height in them wraps around if none did when they were written. -/
theorem exists_completes {settings : Settings} {parameterSlots : UInt16}
    {operations : List Operation}
    (succeeds : (start settings parameterSlots).Succeeds operations)
    (noCall : ∀ operation ∈ operations, operation.isCall = false)
    (finishes :
      ((start settings parameterSlots).afterAll operations).Finishes handled returned code) :
    IsWhole code ((start settings parameterSlots).listing operations) ∧ ∃ ended last?,
      Completes code ((start settings parameterSlots).listing operations) ended last? ∧
        ((start settings parameterSlots).WritesAllExactly operations → AllExact ended last?) := by
  obtain ⟨ended, current?, laid, settled, heights⟩ :=
    (hasLayout_start settings parameterSlots).afterAll succeeds noCall
  have anchored := (anchored_start false settings parameterSlots).afterAll succeeds noCall
  obtain ⟨contiguous, size⟩ := contiguous_of_succeeds succeeds
  have bytes (listed : Listed)
      (member : listed ∈ (start settings parameterSlots).listing operations) :
      listed.offset < listed.stop := offset_lt_stop_of_mem_listing member
  refine ⟨⟨contiguous, ?_, bytes⟩, ended, current?,
    finishes.completes laid settled anchored bytes, fun exactly => heights ⟨trivial, exactly⟩⟩
  rw [finishes.code_eq, size]
  exact Nat.zero_add _

end Assembler

end MethodBody
