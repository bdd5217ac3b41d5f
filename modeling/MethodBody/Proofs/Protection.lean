import MethodBody.Proofs.Agreement
import MethodBody.Proofs.BlockOrder
import MethodBody.Proofs.Contract

/-!
# Protected ranges

A protected range is kept twice: as two offsets in the exception table, and as the edges from the
blocks between its labels to its handler. Blocks are kept in the order of their offsets, so both say
the same of every byte (`exception_table_agrees`). A range is refused if its labels are no blocks in
this order, and a method that is complete is refused for that if one of its ranges is.
-/

namespace MethodBody

/-- The labels of the range are blocks, and the first starts before the second. -/
def Handler.Spans (handler : Handler) (graph : FlowGraph) : Prop :=
  ∃ first last : Nat, first < last ∧ graph.blocks[first]? = some handler.start ∧
    graph.blocks[last]? = some handler.stop

/-- The byte at the offset lies in the protected range. -/
def Handler.guards (handler : Handler) (graph : FlowGraph) (offset : Nat) : Bool :=
  match graph.offset? handler.start, graph.offset? handler.stop with
  | some start, some stop => start ≤ offset && offset < stop
  | _, _ => false

/-- The byte at the offset belongs to the block: it lies neither before the block nor behind the
start of the block that follows. -/
def MethodCode.HasByte (code : MethodCode) (block : Label) (offset : Nat) : Prop :=
  ∃ index first : Nat, code.graph.blocks[index]? = some block ∧
    code.graph.offset? block = some first ∧ first ≤ offset ∧ offset < code.limit index

namespace FlowGraph

/-- The block gets one more edge, which leads to the handler. -/
def GetsHandler (before after : FlowGraph) (block handler : Label) : Prop :=
  (after.edgesOf block).Perm (⟨.exception, handler⟩ :: before.edgesOf block)

variable {graph before after : FlowGraph} {block label handler : Label}

/-- Only the block itself gets an edge to a handler. -/
theorem edgesOf_addHandler {answer : Unit}
    (yields : (addHandler block handler).Yields before answer after) :
    before.GetsHandler after block handler ∧
      ∀ label, block ≠ label → after.edgesOf label = before.edgesOf label := by
  unfold addHandler revise at yields
  simp only [Action.yields_bind, Action.yields_read, Action.yields_modify] at yields
  obtain ⟨revised, _, ⟨found, rfl⟩, rfl⟩ := yields
  obtain ⟨node, looked, accepted⟩ := bind_eq_ok.mp found
  have known := known_of_node looked
  constructor
  · have perm := perm_of_addHandler accepted
    simpa [GetsHandler, edgesOf, node?_update, known] using perm
  · intro label other
    simp [edgesOf, node?_update, other]

/-- Each of the blocks gets one edge to the handler, and no other label gets one. -/
theorem edgesOf_forEach_addHandler {blocks : List Label} (distinct : blocks.Nodup)
    (yields : (Action.forEach blocks fun block =>
      addHandler block handler).Yields before () after) :
    ∀ label, (label ∈ blocks → before.GetsHandler after label handler) ∧
      (label ∉ blocks → after.edgesOf label = before.edgesOf label) := by
  induction blocks generalizing before with
  | nil =>
    obtain ⟨-, rfl⟩ := Action.yields_pure.mp yields
    simp
  | cons first rest ih =>
    obtain ⟨middle, one, others⟩ := Action.yields_forEach_cons.mp yields
    obtain ⟨fresh, distinctRest⟩ := List.nodup_cons.mp distinct
    obtain ⟨gains, kept⟩ := edgesOf_addHandler one
    intro label
    -- The first block is none of the others, so it gets no second edge.
    obtain ⟨gainsLater, keptLater⟩ := ih distinctRest others label
    constructor
    · intro member
      rcases List.mem_cons.mp member with rfl | later
      · rw [GetsHandler, keptLater fresh]
        exact gains
      · have other : first ≠ label := by
          rintro rfl
          exact fresh later
        rw [GetsHandler, ← kept label other]
        exact gainsLater later
    · intro outside
      obtain ⟨other, outsideRest⟩ := not_or.mp (mt List.mem_cons.mpr outside)
      rw [keptLater outsideRest, kept label fun same => other same.symm]

/-- A block that starts later lies no further in front. -/
theorem precedes_of_lt (ascending : graph.blocks.toList.Pairwise graph.Precedes) {first last : Nat}
    (ordered : first < last) {front back : Label} (here : graph.blocks[first]? = some front)
    (there : graph.blocks[last]? = some back) : graph.Precedes front back := by
  obtain ⟨insideFirst, rfl⟩ := Array.getElem?_eq_some_iff.mp here
  obtain ⟨insideLast, rfl⟩ := Array.getElem?_eq_some_iff.mp there
  have precedes := List.pairwise_iff_getElem.mp ascending first last
    (by simpa using insideFirst) (by simpa using insideLast) ordered
  simpa only [Array.getElem_toList] using precedes

/-- Blocks lie in the order in which they started. -/
theorem offset_le (ascending : graph.blocks.toList.Pairwise graph.Precedes) {first last : Nat}
    (ordered : first ≤ last) {front back : Label} (here : graph.blocks[first]? = some front)
    (there : graph.blocks[last]? = some back) {start stop : Nat}
    (starts : graph.offset? front = some start) (stops : graph.offset? back = some stop) :
    start ≤ stop := by
  rcases Nat.lt_or_eq_of_le ordered with before | rfl
  · obtain ⟨one, other, isOne, isOther, precedes⟩ := precedes_of_lt ascending before here there
    rw [starts] at isOne
    rw [stops] at isOther
    rw [Option.some.inj isOne, Option.some.inj isOther]
    exact precedes
  · obtain rfl : front = back := Option.some.inj (here.symm.trans there)
    exact Nat.le_of_eq (Option.some.inj (starts.symm.trans stops))

/-- No label is a block twice. -/
theorem index_eq_of_nodup (distinct : graph.blocks.toList.Nodup) {first second : Nat}
    (here : graph.blocks[first]? = some label) (there : graph.blocks[second]? = some label) :
    first = second := by
  obtain ⟨inside, _⟩ := Array.getElem?_eq_some_iff.mp here
  refine (List.getElem?_inj (by simpa using inside) distinct).mp ?_
  rw [Array.getElem?_toList, Array.getElem?_toList, here, there]

/-- Some of the blocks that follow each other are distinct if all are. -/
theorem nodup_extract (distinct : graph.blocks.toList.Nodup) (first last : Nat) :
    (graph.blocks.extract first last).toList.Nodup := by
  rw [Array.toList_extract]
  exact distinct.sublist ((List.take_sublist _ _).trans (List.drop_sublist _ _))

end FlowGraph

namespace Assembler

variable {graph before after : FlowGraph} {handler : Handler} {label : Label}

/-- A label that is a block is found among the blocks. -/
theorem idxOf?_of_getElem? (distinct : graph.blocks.toList.Nodup) {index : Nat}
    (here : graph.blocks[index]? = some label) : graph.blocks.idxOf? label = some index := by
  cases found : graph.blocks.idxOf? label with
  | none =>
    exfalso
    have member := Array.mem_of_getElem? here
    simp [Array.idxOf?_eq_none_iff] at found
    exact found member
  | some other =>
    exact congrArg some (FlowGraph.index_eq_of_nodup distinct (getElem?_of_idxOf? found) here)

/-- The blocks that a range protects are those from its first label up to its last one. -/
theorem protectedBlocks_eq_ok_iff (distinct : graph.blocks.toList.Nodup) {blocks : List Label} :
    protectedBlocks graph handler = .ok blocks ↔
      ∃ first last : Nat, first < last ∧ graph.blocks[first]? = some handler.start ∧
        graph.blocks[last]? = some handler.stop ∧
        blocks = (graph.blocks.extract first last).toList := by
  constructor
  · exact exists_of_protectedBlocks
  · rintro ⟨first, last, ordered, starts, stops, rfl⟩
    unfold protectedBlocks
    rw [idxOf?_of_getElem? distinct starts, idxOf?_of_getElem? distinct stops]
    exact if_pos ordered

/-- A range protects blocks unless its labels are no blocks in this order. -/
theorem exists_protectedBlocks_iff (distinct : graph.blocks.toList.Nodup) :
    (∃ blocks, protectedBlocks graph handler = .ok blocks) ↔ handler.Spans graph := by
  constructor
  · rintro ⟨blocks, found⟩
    obtain ⟨first, last, ordered, starts, stops, -⟩ := (protectedBlocks_eq_ok_iff distinct).mp found
    exact ⟨first, last, ordered, starts, stops⟩
  · rintro ⟨first, last, ordered, starts, stops⟩
    exact ⟨_, (protectedBlocks_eq_ok_iff distinct).mpr ⟨first, last, ordered, starts, stops, rfl⟩⟩

/-- The blocks between the labels of a range get one edge to the handler each, and no other label
gets one. -/
theorem edgesOf_addHandlerEdges (distinct : before.blocks.toList.Nodup)
    (yields : (addHandlerEdges handler).Yields before () after) :
    ∃ first last : Nat, first < last ∧ before.blocks[first]? = some handler.start ∧
      before.blocks[last]? = some handler.stop ∧ ∀ label,
        (before.LiesBetween first last label → before.GetsHandler after label handler.handler) ∧
        (¬ before.LiesBetween first last label → after.edgesOf label = before.edgesOf label) := by
  unfold addHandlerEdges at yields
  simp only [Action.yields_bind, Action.yields_read] at yields
  obtain ⟨blocks, _, ⟨found, rfl⟩, each⟩ := yields
  obtain ⟨first, last, ordered, starts, stops, rfl⟩ := exists_of_protectedBlocks found
  refine ⟨first, last, ordered, starts, stops, fun label => ?_⟩
  have edges :=
    FlowGraph.edgesOf_forEach_addHandler (FlowGraph.nodup_extract distinct first last) each
    label
  rwa [FlowGraph.mem_extract_iff] at edges

end Assembler

section Bytes

variable {code : MethodCode} {handler : Handler} {label : Label} {offset : Nat}

/-- A block ends no later than any block that follows it starts. -/
theorem MethodCode.limit_le (ascending : code.graph.blocks.toList.Pairwise code.graph.Precedes)
    {index last : Nat} (before : index < last) {back : Label}
    (there : code.graph.blocks[last]? = some back) {stop : Nat}
    (stops : code.graph.offset? back = some stop) : code.limit index ≤ stop := by
  have inside := (Array.getElem?_eq_some_iff.mp there).1
  obtain ⟨next, follows⟩ : ∃ next, code.graph.blocks[index + 1]? = some next :=
    ⟨_, Array.getElem?_eq_getElem (by omega)⟩
  obtain ⟨start, starts⟩ : ∃ start, code.graph.offset? next = some start := by
    rcases Nat.lt_or_eq_of_le (Nat.succ_le_of_lt before) with further | same
    · obtain ⟨start, _, starts, _⟩ := FlowGraph.precedes_of_lt ascending further follows there
      exact ⟨start, starts⟩
    · rw [← same] at there
      obtain rfl : next = back := Option.some.inj (follows.symm.trans there)
      exact ⟨stop, stops⟩
  have limit : code.limit index = start := by simp [MethodCode.limit, follows, starts]
  rw [limit]
  exact FlowGraph.offset_le ascending (Nat.succ_le_of_lt before) follows there starts stops

/-- A byte lies in a protected range if its block is one of those between the labels of the
range. -/
theorem MethodCode.HasByte.guards_iff
    (ascending : code.graph.blocks.toList.Pairwise code.graph.Precedes)
    (distinct : code.graph.blocks.toList.Nodup) {first last : Nat} (ordered : first < last)
    (starts : code.graph.blocks[first]? = some handler.start)
    (stops : code.graph.blocks[last]? = some handler.stop) (byte : code.HasByte label offset) :
    handler.guards code.graph offset = true ↔ code.graph.LiesBetween first last label := by
  obtain ⟨index, front, here, place, behind, before⟩ := byte
  obtain ⟨start, stop, startPlace, stopPlace, -⟩ :=
    FlowGraph.precedes_of_lt ascending ordered starts stops
  simp only [Handler.guards, startPlace, stopPlace, Bool.and_eq_true, decide_eq_true_eq]
  constructor
  · rintro ⟨afterStart, beforeStop⟩
    refine ⟨index, ?_, ?_, here⟩
    · by_contra early
      -- A block in front of the range ends where the range starts, or before that.
      have limit := MethodCode.limit_le ascending (Nat.lt_of_not_le early) starts startPlace
      omega
    · by_contra late
      -- A block behind the range starts where the range ends, or after that.
      have past := FlowGraph.offset_le ascending (Nat.le_of_not_lt late) stops here stopPlace place
      omega
  · rintro ⟨other, afterFirst, beforeLast, there⟩
    obtain rfl : index = other := FlowGraph.index_eq_of_nodup distinct here there
    have reached := FlowGraph.offset_le ascending afterFirst starts here startPlace place
    have limit := MethodCode.limit_le ascending beforeLast stops stopPlace
    omega

end Bytes

namespace FlowGraph

/-- The edges of a block to handlers. -/
def exceptionsOf (graph : FlowGraph) (block : Label) : List Edge :=
  (graph.edgesOf block).filter (·.transfer = .exception)

variable {graph before after : FlowGraph} {label : Label}

/-- A block that keeps its edges keeps those to handlers. -/
theorem exceptionsOf_congr (same : after.edgesOf = before.edgesOf) :
    after.exceptionsOf = before.exceptionsOf := by
  funext block
  rw [exceptionsOf, exceptionsOf, same]

/-- A change that keeps the edges to handlers. -/
theorem exceptionsOf_update {change : Node → Node}
    (same : ∀ node, (change node).edges.filter (·.transfer = .exception)
      = node.edges.filter (·.transfer = .exception)) (graph : FlowGraph) (changed : Label) :
    (graph.update changed change).exceptionsOf = graph.exceptionsOf := by
  funext label
  simp only [exceptionsOf, edgesOf, node?_update]
  split
  · cases graph.node? label with
    | none => rfl
    | some node => exact same node
  · rfl

/-- An edge along which a subroutine returns leads to no handler. -/
theorem exceptions_addReturn (node : Node) (subroutine : Option SubroutineId)
    (continuation : Label) :
    (node.addReturn subroutine continuation).edges.filter (·.transfer = .exception)
      = node.edges.filter (·.transfer = .exception) := by
  unfold Node.addReturn
  split
  · exact List.filter_cons_of_neg (by simp)
  · rfl

/-- Only the edges of protected blocks lead to handlers. -/
theorem ChangesTo.exceptionsOf_eq (changes : ChangesTo [] before after) :
    after.exceptionsOf = before.exceptionsOf := by
  induction changes with
  | refl => rfl
  | tail _ change ih =>
    refine Eq.trans ?_ ih
    cases change with
    | protects registered => simp at registered
    | returns block subroutine =>
      exact exceptionsOf_update (fun node => exceptions_addReturn node subroutine _) _ block
    | closes block => exact exceptionsOf_congr (edgesOf_update _ block fun _ => rfl)
    | assigns block => exact exceptionsOf_congr (edgesOf_update _ block fun _ => rfl)
    | reaches arrival => exact exceptionsOf_congr (edgesOf_update _ arrival.block fun _ => rfl)

end FlowGraph

namespace Assembler

variable {before after : Assembler} {code : MethodCode}

/-- No operation adds an edge to a handler. -/
theorem Alters.exceptionsOf_eq (alters : before.Alters after) :
    after.graph.exceptionsOf = before.graph.exceptionsOf := by
  cases alters with
  | writes graph => rw [graph]
  | creates flags => exact FlowGraph.exceptionsOf_congr (FlowGraph.quiet_create _ flags).edges
  | changes label edges =>
    exact FlowGraph.exceptionsOf_congr (FlowGraph.edgesOf_update _ label edges)
  | @settles label =>
    exact FlowGraph.exceptionsOf_congr (FlowGraph.edgesOf_update _ label fun _ => rfl)
  | links block =>
    exact FlowGraph.exceptionsOf_update (fun _ => List.filter_cons_of_neg (by simp)) _ block
  | starts => rfl

/-- Before a method is finished, no edge leads to a handler. -/
theorem exceptionsOf_afterAll (settings : Settings) (slots : UInt16) (operations : List Operation)
    (block : Label) :
    ((start settings slots).afterAll operations).graph.exceptionsOf block = [] := by
  let holds (assembler : Assembler) : Prop := ∀ block, assembler.graph.exceptionsOf block = []
  have began : holds (start settings slots) := by
    rintro ⟨index⟩
    cases index <;> rfl
  have kept : holds ((start settings slots).afterAll operations) :=
    holds_afterAll (fun alters none block => by rw [alters.exceptionsOf_eq]; exact none block)
      (fun handler? none => by cases handler? <;> exact none) began operations
  exact kept block

/-- After the edges to the handlers are added, no more edges to handlers are. -/
theorem Finishes.exceptionsOf_eq {assembler : Assembler} {handled returned : FlowGraph}
    (finishes : assembler.Finishes handled returned code) :
    code.graph.exceptionsOf = handled.exceptionsOf := by
  have returns : FlowGraph.ChangesTo [] handled returned := by
    have found := finishes.returns
    split at found
    · obtain ⟨count, yields⟩ := found
      exact FlowGraph.changesTo_analyzeSubroutines.of_yields yields
    · rw [found]
  have measures : FlowGraph.ChangesTo [] returned code.graph := by
    have found := finishes.measures
    split at found
    · obtain ⟨height, yields, _⟩ := found
      exact FlowGraph.changesTo_computeMaxStack.of_yields yields
    · rw [found.1]
  exact FlowGraph.ChangesTo.exceptionsOf_eq (returns.trans measures)

end Assembler

/-- The edge from a block that the handler protects. -/
def Handler.edge (handler : Handler) : Edge := ⟨.exception, handler.handler⟩

/-- Adding the edges to a handler gives one to each block whose bytes the range protects, and none
to any other block that has bytes. -/
structure Handler.Protects (handler : Handler) (code : MethodCode) (before after : FlowGraph) : Prop
    where
  /-- The edges are added. -/
  adds : (Assembler.addHandlerEdges handler).Yields before () after
  /-- Either a block gets one and all its bytes are protected, or it gets none and no byte is. -/
  each : ∀ block,
    before.GetsHandler after block handler.handler ∧
        (∀ offset, code.HasByte block offset → handler.guards code.graph offset = true) ∨
      after.edgesOf block = before.edgesOf block ∧
        ∀ offset, code.HasByte block offset → handler.guards code.graph offset = false

section Handling

variable {code : MethodCode} {handler : Handler} {before after : FlowGraph} {block : Label}
  {offset : Nat}

/-- The edges that are added for a range are those from the blocks whose bytes it protects. -/
theorem Handler.protects_of_yields
    (ascending : code.graph.blocks.toList.Pairwise code.graph.Precedes)
    (distinct : code.graph.blocks.toList.Nodup) (blocks : before.blocks = code.graph.blocks)
    (adds : (Assembler.addHandlerEdges handler).Yields before () after) :
    handler.Protects code before after := by
  obtain ⟨first, last, ordered, starts, stops, edges⟩ :=
    Assembler.edgesOf_addHandlerEdges (blocks ▸ distinct) adds
  rw [blocks] at starts stops
  refine ⟨adds, fun block => ?_⟩
  obtain ⟨gains, keeps⟩ := edges block
  have same : before.LiesBetween first last block ↔ code.graph.LiesBetween first last block := by
    rw [FlowGraph.LiesBetween, FlowGraph.LiesBetween, blocks]
  by_cases between : before.LiesBetween first last block
  · refine .inl ⟨gains between, fun offset byte => ?_⟩
    exact (byte.guards_iff ascending distinct ordered starts stops).mpr (same.mp between)
  · refine .inr ⟨keeps between, fun offset byte => Bool.eq_false_iff.mpr fun guards => ?_⟩
    exact between (same.mpr ((byte.guards_iff ascending distinct ordered starts stops).mp guards))

/-- A block gets an edge to the handler if one of its bytes is protected. -/
theorem Handler.Protects.perm_exceptionsOf (protects : handler.Protects code before after)
    (byte : code.HasByte block offset) : (after.exceptionsOf block).Perm
      (if handler.guards code.graph offset then handler.edge :: before.exceptionsOf block
        else before.exceptionsOf block) := by
  rcases protects.each block with ⟨gains, guarded⟩ | ⟨keeps, unguarded⟩
  · rw [if_pos (guarded offset byte)]
    exact gains.filter _
  · rw [unguarded offset byte, FlowGraph.exceptionsOf, keeps]
    exact .refl _

/-- A block gets one edge for each of the handlers that protect a byte of it. -/
theorem Handler.perm_exceptionsOf_of_forEach
    (ascending : code.graph.blocks.toList.Pairwise code.graph.Precedes)
    (distinct : code.graph.blocks.toList.Nodup) {handlers : List Handler}
    (blocks : before.blocks = code.graph.blocks)
    (yields : (Action.forEach handlers Assembler.addHandlerEdges).Yields before () after)
    (byte : code.HasByte block offset) : (after.exceptionsOf block).Perm
      ((handlers.filter (·.guards code.graph offset)).map Handler.edge
          ++ before.exceptionsOf block) := by
  induction handlers generalizing before with
  | nil =>
    obtain ⟨-, rfl⟩ := Action.yields_pure.mp yields
    exact .refl _
  | cons handler rest ih =>
    obtain ⟨middle, adds, others⟩ := Action.yields_forEach_cons.mp yields
    -- Edges move no block, so each range still finds the blocks of the finished method.
    have kept : middle.blocks = before.blocks :=
      ((Assembler.addsHandlers_addHandlerEdges handler).of_yields adds).blocks
    have first := (Handler.protects_of_yields ascending distinct blocks adds).perm_exceptionsOf byte
    have later := ih (kept.trans blocks) others
    cases guarded : handler.guards code.graph offset with
    | true =>
      rw [if_pos guarded] at first
      simp only [List.filter_cons, guarded, if_true, List.map_cons]
      exact later.trans ((first.append_left _).trans List.perm_middle)
    | false =>
      rw [guarded] at first
      simp only [List.filter_cons, guarded, Bool.false_eq_true, if_false]
      exact later.trans (first.append_left _)

end Handling

/-- The exception table of a method and the edges to its handlers say the same of every byte, given
the assembler that it was finished with and the protected ranges in the order in which they were
added. -/
structure MethodCode.ProtectsAlike (code : MethodCode) (assembler : Assembler)
    (handlers : List Handler) : Prop where
  /-- The rows of the table hold the offsets of the labels. -/
  rows : List.Forall₂ (fun handler row => handler.FillsIn code.graph row) handlers code.handlers
  /-- The edges for each range, after those for the ranges before it, are those from the blocks
  whose bytes it protects. -/
  steps : ∀ done handler rest, handlers = done ++ handler :: rest → ∃ before after,
    (Action.forEach done Assembler.addHandlerEdges).Yields assembler.closeBlock.graph () before ∧
      handler.Protects code before after
  /-- So a block has one edge for each of the ranges that protect a byte of it. -/
  edges : ∀ block offset, code.HasByte block offset → (code.graph.exceptionsOf block).Perm
    ((handlers.filter (·.guards code.graph offset)).map Handler.edge)

namespace Assembler

variable {assembler : Assembler} {code : MethodCode} {handled returned : FlowGraph}

namespace Finishes

/-- The blocks are the same in all stages. -/
theorem blocks_eq (finishes : assembler.Finishes handled returned code) :
    code.graph.blocks = assembler.graph.blocks :=
  FlowGraph.ChangesTo.blocks_eq finishes.changesTo

/-- Blocks lie in the same order in all stages. -/
theorem ascending (finishes : assembler.Finishes handled returned code)
    (ascending : assembler.graph.blocks.toList.Pairwise assembler.graph.Precedes) :
    code.graph.blocks.toList.Pairwise code.graph.Precedes := by
  rw [finishes.blocks_eq]
  refine ascending.imp fun precedes => ?_
  unfold FlowGraph.Precedes
  rw [finishes.offset?_eq]
  exact precedes

/-- In a finished method the exception table and the edges to handlers say the same. -/
theorem protectsAlike (finishes : assembler.Finishes handled returned code)
    (ascending : assembler.graph.blocks.toList.Pairwise assembler.graph.Precedes)
    (distinct : assembler.graph.blocks.toList.Nodup)
    (none : ∀ block, assembler.graph.exceptionsOf block = []) :
    code.ProtectsAlike assembler assembler.handlers.toList := by
  have inOrder := finishes.ascending ascending
  have apart : code.graph.blocks.toList.Nodup := finishes.blocks_eq ▸ distinct
  have closed : assembler.closeBlock.graph.blocks = code.graph.blocks :=
    (blocks_closeBlock assembler).trans finishes.blocks_eq.symm
  refine ⟨finishes.fillsIn, fun done handler rest split => ?_, fun block offset byte => ?_⟩
  · have handles := finishes.handles
    rw [split] at handles
    obtain ⟨before, earlier, later⟩ := Action.yields_forEach_append.mp handles
    obtain ⟨after, adds, -⟩ := Action.yields_forEach_cons.mp later
    have kept := (mem_edgesOf_of_forEach earlier).1.blocks
    exact ⟨before, after, earlier,
      Handler.protects_of_yields inOrder apart (kept.trans closed) adds⟩
  · have edges := Handler.perm_exceptionsOf_of_forEach inOrder apart closed finishes.handles byte
    have fresh : assembler.closeBlock.graph.exceptionsOf block = [] := by
      rw [FlowGraph.exceptionsOf_congr (edgesOf_closeBlock assembler)]
      exact none block
    rw [fresh, List.append_nil] at edges
    rw [finishes.exceptionsOf_eq]
    exact edges

end Finishes

/-- A complete method is refused for one of its ranges if, and only if, the labels of some range are
no blocks in this order. -/
theorem exists_invalidRange_iff (complete : assembler.unfinished? = none)
    (consistent : assembler.graph.IsConsistent)
    (handles : ∀ handler ∈ assembler.handlerLabels, (assembler.graph.node? handler).isSome)
    (distinct : assembler.graph.blocks.toList.Nodup) :
    (∃ first last, (finish.run assembler).answer = .error (.invalidRange first last)) ↔
      ∃ handler ∈ assembler.handlers.toList, ¬ handler.Spans assembler.graph := by
  have refused {handler : Handler} {cause : Error}
      (failed : protectedBlocks assembler.graph handler = .error cause) :
      ¬ handler.Spans assembler.graph := by
    intro spans
    obtain ⟨blocks, found⟩ := (exists_protectedBlocks_iff distinct).mpr spans
    simp [failed] at found
  constructor
  · rintro ⟨first, last, failed⟩
    rcases failsOnly_finish_of_complete complete consistent handles _ failed with
      late | ⟨handler, member, invalid⟩
    · exact late.elim
    · exact ⟨handler, member, refused invalid⟩
  · rintro ⟨handler, member, apart⟩
    rw [answer_finish_of_complete complete, forEach_onGraph]
    cases protecting : (Action.run (Action.forEach assembler.handlers.toList addHandlerEdges)
      assembler.closeBlock.graph).answer with
    | ok answer =>
      -- If the edges of all ranges were added, this range too would have had its blocks.
      obtain ⟨blocks, found, -⟩ :=
        (mem_edgesOf_of_forEach (Action.yields_of_answer protecting)).2 handler member
      have same : protectedBlocks assembler.graph handler = .ok blocks := by
        rw [protectedBlocks, blocks_closeBlock] at found
        exact found
      exact absurd ((exists_protectedBlocks_iff distinct).mp ⟨blocks, same⟩) apart
    | error cause =>
      obtain ⟨other, _, invalid⟩ :=
        failsOnly_forEach_addHandlerEdges consistent handles cause protecting
      rw [eq_of_protectedBlocks_eq_error invalid] at protecting
      exact ⟨other.start, other.stop, Action.answer_bind_eq_error.mpr (.inl protecting)⟩

/-- A method that is finished has a row in its exception table for each protected range that was
added, and a block has an edge to the handler if the bytes of the block are protected, and not
otherwise. A method that is complete is refused for one of its ranges if, and only if, the labels of
some range are no blocks in this order. -/
theorem exception_table_agrees (settings : Settings) (slots : UInt16)
    (operations : List Operation) :
    let assembler := (start settings slots).afterAll operations
    let handlers := (start settings slots).protections operations
    (∀ code, (finish.run assembler).answer = .ok code → code.ProtectsAlike assembler handlers) ∧
      (assembler.unfinished? = none →
        ((∃ first last, (finish.run assembler).answer = .error (.invalidRange first last)) ↔
          ∃ handler ∈ handlers, ¬ handler.Spans assembler.graph)) := by
  intro assembler handlers
  have added : assembler.handlers.toList = handlers :=
    handlers_afterAll (start settings slots) operations
  have wired := wired_afterAll settings slots operations
  have anchored := anchored_afterAll settings slots operations
  constructor
  · intro code finished
    obtain ⟨handled, returned, finishes⟩ := exists_finishes finished
    have alike := finishes.protectsAlike (Ascends.afterAll settings slots operations).ascending
      wired.1.distinct (exceptionsOf_afterAll settings slots operations)
    rw [added] at alike
    exact alike
  · intro complete
    rw [← added]
    have honors := wired.1.honorsCalls wired.2
    refine exists_invalidRange_iff complete (wired.1.isConsistent honors) ?_ wired.1.distinct
    intro label registered
    obtain ⟨handler, member, rfl⟩ := List.mem_map.mp registered
    obtain ⟨node, known, -⟩ := anchored.handlers handler (Array.mem_toList_iff.mp member)
    exact Option.isSome_of_eq_some known

/-- One range lies within another one. The outer one is added before its labels have their places
and the inner one afterwards, and the first block of the inner one is empty. -/
def nestedRanges : List Operation :=
  [.freshLabel, .freshLabel, .freshLabel, .freshLabel, .freshLabel,
    .addHandler ⟨.start, ⟨3⟩, ⟨4⟩, 0⟩, .instruction [0x00] 0, .place ⟨1⟩, .place ⟨2⟩,
    .instruction [0x00] 0, .place ⟨3⟩, .instruction [0xb1] 0, .place ⟨4⟩, .instruction [0xbf] (-1),
    .place ⟨5⟩, .instruction [0xbf] (-1), .addHandler ⟨⟨1⟩, ⟨3⟩, ⟨5⟩, 7⟩]

/-- The first byte is in the outer range only, the second one in both and the third one in none of
them. If the labels of one more range lie the other way round, the method is refused for it. -/
theorem exception_table_agrees_nestedRanges :
    (∃ code, (finish.run ((start {} 0).afterAll nestedRanges)).answer = .ok code ∧
      code.handlers = [⟨0, 2, 3, 0⟩, ⟨1, 2, 4, 7⟩] ∧
      (code.graph.exceptionsOf .start).Perm [⟨.exception, ⟨4⟩⟩] ∧
      (code.graph.exceptionsOf ⟨2⟩).Perm [⟨.exception, ⟨4⟩⟩, ⟨.exception, ⟨5⟩⟩] ∧
      (code.graph.exceptionsOf ⟨3⟩).Perm []) ∧
    ∃ first last, (finish.run ((start {} 0).afterAll
      (nestedRanges ++ [.addHandler ⟨⟨3⟩, ⟨1⟩, ⟨4⟩, 0⟩]))).answer
        = .error (.invalidRange first last) := by
  constructor
  · obtain ⟨code, found, table, blocks, offsets, limits, guarded⟩ :
        ∃ code ∈ (finish.run ((start {} 0).afterAll nestedRanges)).answer.toOption,
          code.handlers = [⟨0, 2, 3, 0⟩, ⟨1, 2, 4, 7⟩] ∧
          code.graph.blocks = #[.start, ⟨1⟩, ⟨2⟩, ⟨3⟩, ⟨4⟩, ⟨5⟩] ∧
          [.start, ⟨2⟩, ⟨3⟩].map code.graph.offset? = [some 0, some 1, some 2] ∧
          [0, 2, 3].map code.limit = [1, 2, 3] ∧
          [0, 1, 2].map (fun offset => (((start {} 0).protections nestedRanges).filter
            (·.guards code.graph offset)).map Handler.edge) =
              [[⟨.exception, ⟨4⟩⟩], [⟨.exception, ⟨4⟩⟩, ⟨.exception, ⟨5⟩⟩], []] := by
      decide +kernel
    simp only [List.map_cons, List.map_nil, List.cons.injEq, and_true] at offsets limits guarded
    obtain ⟨first, second, third⟩ := guarded
    have finished := eq_ok_of_mem_toOption found
    have edges := ((exception_table_agrees {} 0 nestedRanges).1 code finished).edges
    have startEdges := edges .start 0 ⟨0, 0, by simp [blocks], offsets.1, by omega, by omega⟩
    have innerEdges := edges ⟨2⟩ 1 ⟨2, 1, by simp [blocks], offsets.2.1, by omega, by omega⟩
    have lastEdges := edges ⟨3⟩ 2 ⟨3, 2, by simp [blocks], offsets.2.2, by omega, by omega⟩
    rw [first] at startEdges
    rw [second] at innerEdges
    rw [third] at lastEdges
    exact ⟨code, finished, table, startEdges, innerEdges, lastEdges⟩
  · refine ((exception_table_agrees {} 0 _).2 (by decide +kernel)).mpr ?_
    refine ⟨⟨⟨3⟩, ⟨1⟩, ⟨4⟩, 0⟩, by decide +kernel, ?_⟩
    let graph := ((start {} 0).afterAll
      (nestedRanges ++ [.addHandler ⟨⟨3⟩, ⟨1⟩, ⟨4⟩, 0⟩])).graph
    have blocks : graph.blocks = #[.start, ⟨1⟩, ⟨2⟩, ⟨3⟩, ⟨4⟩, ⟨5⟩] := by decide +kernel
    have distinct : graph.blocks.toList.Nodup := by rw [blocks]; decide
    rintro ⟨first, last, ordered, starts, stops⟩
    have third : first = 3 :=
      FlowGraph.index_eq_of_nodup distinct starts (by rw [blocks]; rfl)
    have one : last = 1 := FlowGraph.index_eq_of_nodup distinct stops (by rw [blocks]; rfl)
    omega

end Assembler

end MethodBody
