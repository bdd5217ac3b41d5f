import MethodBody.Proofs.Binding
import MethodBody.Proofs.FlowDependence
import MethodBody.Proofs.IdleLabels

/-!
# Labels that are placed unnoticed

Two flow graphs may differ only in that an idle label has a place in one of them
(`FlowGraph.Hides`). What is found out about subroutines and stack heights depends on the blocks,
the edges and the flags alone, so the analyses run in step on such graphs
(`inStep_analyzeSubroutines`, `inStep_computeMaxStack`), and so do the changes of other labels.
Afterwards the label is still idle in one of the graphs, and its place is still all that is
different.
-/

namespace MethodBody

/-- What makes a label idle: whether it is there for debugging only, its place or the references
that wait for one, and its lines. -/
def Node.usage (node : Node) : Bool × Placement × Array UInt16 :=
  (node.flags.debugOnly, node.placement, node.lines)

/-- A label stays idle if only the flow through its block changes. -/
theorem Node.IsIdle.of_usage {node revised : Node} (idle : node.IsIdle)
    (same : revised.usage = node.usage) : revised.IsIdle := by
  obtain ⟨debugOnly, others⟩ := Prod.mk.inj same
  obtain ⟨placement, lines⟩ := Prod.mk.inj others
  constructor
  · exact debugOnly.trans idle.debugOnly
  · rw [isPlaced, offset?, placement]
    exact idle.unplaced
  · rw [pending, placement]
    exact idle.unreferenced
  · exact lines.trans idle.lines

/-- The change does not depend on whether a label has its place, and an idle label stays idle. -/
structure Node.Overlooks (offset : Nat) (change : Node → Node) : Prop where
  /-- It does not matter whether the label gets its place before or after the change. -/
  commutes : ∀ node, change (node.placedAt offset) = (change node).placedAt offset
  /-- Idle labels stay idle. -/
  idle : ∀ node, node.IsIdle → (change node).IsIdle

/-- A change of the flow through a block overlooks its place. -/
theorem Node.Overlooks.of_usage {offset : Nat} {change : Node → Node}
    (same : ∀ node, change (node.placedAt offset) = (change node).placedAt offset ∧
      (change node).usage = node.usage) : Node.Overlooks offset change :=
  ⟨fun node => (same node).1, fun node idle => idle.of_usage (same node).2⟩

/-- An edge to the continuation of a call is added whether the block has its place or not. -/
theorem Node.addReturn_placedAt (node : Node) (offset : Nat) (subroutine : Option SubroutineId)
    (continuation : Label) :
    (node.placedAt offset).addReturn subroutine continuation
      = (node.addReturn subroutine continuation).placedAt offset := by
  have same : (node.placedAt offset).returnsFromOther subroutine
      = node.returnsFromOther subroutine := rfl
  simp only [addReturn, same]
  split <;> rfl

/-- Adding an edge to a continuation overlooks the place of the block. -/
theorem Node.overlooks_addReturn (offset : Nat) (subroutine : Option SubroutineId)
    (continuation : Label) : Node.Overlooks offset (·.addReturn subroutine continuation) := by
  refine .of_usage fun node => ⟨node.addReturn_placedAt offset subroutine continuation, ?_⟩
  simp only [addReturn]
  split <;> rfl

namespace FlowGraph

/-- The label is idle in one graph, and the other one differs from it only in that the label has a
place. -/
structure Hides (hidden : Label) (offset : Nat) (plain marked : FlowGraph) : Prop where
  /-- The label is idle. -/
  idle : ∃ node, plain.node? hidden = some node ∧ node.IsIdle
  /-- Only its place is different. -/
  same : marked = plain.update hidden (·.placedAt offset)

variable {hidden label : Label} {offset : Nat} {plain marked : FlowGraph} {α : Type}

namespace Hides

/-- The same is known about any other label. -/
theorem node?_eq (hides : Hides hidden offset plain marked) (other : label ≠ hidden) :
    marked.node? label = plain.node? label := by
  rw [hides.same, node?_update, if_neg other.symm]

/-- The same is known about any label but for its place. -/
theorem view_node? (hides : Hides hidden offset plain marked) (view : Option Node → α)
    (overlooks : ∀ node, view (some (node.placedAt offset)) = view (some node)) (label : Label) :
    view (marked.node? label) = view (plain.node? label) := by
  rw [hides.same, node?_update]
  split
  · cases plain.node? label with
    | none => rfl
    | some node => exact overlooks node
  · rfl

/-- What is worked out from a label that must exist does not depend on its place. -/
theorem view_node (hides : Hides hidden offset plain marked) (view : Node → Except Error α)
    (overlooks : ∀ node, view (node.placedAt offset) = view node) (label : Label) :
    (marked.node label >>= view) = (plain.node label >>= view) := by
  have worked (graph : FlowGraph) : (graph.node label >>= view)
      = (graph.node? label).elim (.error (.unknownLabel label)) view := by
    unfold node
    cases graph.node? label <;> rfl
  rw [worked, worked]
  exact hides.view_node? (·.elim (.error (.unknownLabel label)) view) overlooks label

/-- The blocks are the same. -/
theorem blocks_eq (hides : Hides hidden offset plain marked) : marked.blocks = plain.blocks := by
  rw [hides.same, blocks_update]

/-- There are as many labels. -/
theorem size_eq (hides : Hides hidden offset plain marked) :
    marked.nodes.size = plain.nodes.size := by
  rw [hides.same, size_update]

/-- The same label is created next. -/
theorem nextLabel_eq (hides : Hides hidden offset plain marked) :
    marked.nextLabel = plain.nextLabel :=
  congrArg Label.mk hides.size_eq

/-- A label that is created is another one. -/
theorem nextLabel_ne (hides : Hides hidden offset plain marked) : plain.nextLabel ≠ hidden := by
  rintro rfl
  obtain ⟨node, known, -⟩ := hides.idle
  simp at known

/-- Control flows in the same way. -/
theorem sameControl (hides : Hides hidden offset plain marked) : plain.SameControl marked := by
  rw [hides.same]
  refine .of_update ?_ plain hidden
  exact fun _ => rfl

/-- Another label changes, or the change overlooks the places of labels. -/
theorem update (hides : Hides hidden offset plain marked) {change : Node → Node}
    (apart : label ≠ hidden ∨ Node.Overlooks offset change) :
    Hides hidden offset (plain.update label change) (marked.update label change) := by
  obtain ⟨node, known, idle⟩ := hides.idle
  constructor
  · rw [node?_update]
    split
    · rename_i same
      exact ⟨change node, by simp [known], (apart.resolve_left (not_not_intro same)).idle node idle⟩
    · exact ⟨node, known, idle⟩
  · refine eq_of_node? hides.blocks_eq fun other => ?_
    simp only [hides.same, node?_update]
    split
    · rename_i same
      split
      · rename_i here
        have commutes := (apart.resolve_left (not_not_intro (same.trans here.symm))).commutes
        simp only [Option.map_map]
        exact congrArg (Option.map · _) (funext commutes)
      · rfl
    · rfl

/-- Several labels change, and the change overlooks their places. -/
theorem updateAll (hides : Hides hidden offset plain marked) {change : Node → Node}
    (overlooks : Node.Overlooks offset change) (labels : List Label) :
    Hides hidden offset (plain.updateAll labels change) (marked.updateAll labels change) := by
  induction labels generalizing plain marked with
  | nil => exact hides
  | cons label rest ih => exact ih (hides.update (.inr overlooks))

/-- A label is created. -/
theorem create (hides : Hides hidden offset plain marked) (flags : Flags) :
    Hides hidden offset (plain.create flags) (marked.create flags) := by
  have other := hides.nextLabel_ne
  constructor
  · obtain ⟨node, known, idle⟩ := hides.idle
    exact ⟨node, by rw [node?_create, if_neg other.symm, known], idle⟩
  · refine eq_of_node? hides.blocks_eq fun label => ?_
    rw [node?_create, node?_update, node?_create, hides.nextLabel_eq, hides.same, node?_update]
    split
    · rename_i created
      rw [created, if_neg other.symm]
    · rfl

/-- A block starts. -/
theorem pushBlock (hides : Hides hidden offset plain marked) (block : Label) :
    Hides hidden offset (plain.pushBlock block) (marked.pushBlock block) :=
  ⟨hides.idle, by rw [hides.same]; rfl⟩

/-- The heights at the starts of blocks are recorded. -/
theorem foldl_reach (hides : Hides hidden offset plain marked) (arrivals : List Arrival) :
    Hides hidden offset (arrivals.foldl reach plain) (arrivals.foldl reach marked) := by
  induction arrivals generalizing plain marked with
  | nil => exact hides
  | cons arrival rest ih =>
    refine ih (hides.update (.inr (.of_usage ?_)))
    exact fun _ => ⟨rfl, rfl⟩

end Hides

/-- What is known about a label is found, and its place is not used. -/
theorem inStep_getNode_bind {next : Node → Action FlowGraph α}
    (overlooks : ∀ node, next (node.placedAt offset) = next node)
    (each : ∀ node, Action.InStep (Hides hidden offset) (next node)) (label : Label) :
    Action.InStep (Hides hidden offset) (getNode label >>= next) := by
  intro plain marked hides
  have runs (graph : FlowGraph) : (getNode label >>= next).run graph
      = ((graph.node? label).map next).elim ⟨.error (.unknownLabel label), graph, []⟩
          (·.run graph) := by
    simp only [getNode, node, Action.run_bind, Action.run_read]
    cases graph.node? label <;> rfl
  have found : (marked.node? label).map next = (plain.node? label).map next :=
    hides.view_node? (·.map next) (fun node => congrArg some (overlooks node)) label
  rw [runs, runs, found]
  cases plain.node? label with
  | none => exact ⟨rfl, rfl, hides⟩
  | some node => exact each node plain marked hides

/-- What is known about another label is revised. -/
theorem inStep_revise (other : label ≠ hidden) (revision : Node → Except Error Node) :
    Action.InStep (Hides hidden offset) (revise label revision) :=
  .bind (.read fun hides => by simp only [node, hides.node?_eq other])
    fun _ => .modify fun hides => hides.update (.inl other)

/-- What is known about a label is revised, and the revision does not depend on its place. -/
theorem inStep_revise_of_overlooks {revision : Node → Except Error Node}
    (commutes : ∀ node, revision (node.placedAt offset) = (revision node).map (·.placedAt offset))
    (idle : ∀ node revised, revision node = .ok revised → node.IsIdle → revised.IsIdle)
    (label : Label) :
    Action.InStep (Hides hidden offset) (revise label revision) := by
  by_cases other : label ≠ hidden
  · exact inStep_revise other revision
  obtain rfl := not_not.mp other
  intro plain marked hides
  obtain ⟨node, known, isIdle⟩ := hides.idle
  have knownToo : marked.node? label = some (node.placedAt offset) := by
    rw [hides.same, node?_update, if_pos rfl, known]
    rfl
  cases accepted : revision node with
  | error cause =>
    have refused : revision (node.placedAt offset) = .error cause := by rw [commutes, accepted]; rfl
    rw [run_revise_of_refused known accepted, run_revise_of_refused knownToo refused]
    exact ⟨rfl, rfl, hides⟩
  | ok revised =>
    have acceptedToo : revision (node.placedAt offset) = .ok (revised.placedAt offset) := by
      rw [commutes, accepted]
      rfl
    rw [run_revise known accepted, run_revise knownToo acceptedToo]
    refine ⟨rfl, rfl, ⟨revised, ?_, idle node revised accepted isIdle⟩, ?_⟩
    · simp [node?_update, known]
    · refine eq_of_node? hides.blocks_eq fun other => ?_
      simp only [hides.same, node?_update]
      split
      · simp only [Option.map_map]
        rfl
      · rfl

/-- An edge to a handler is added whether the block has its place or not. -/
theorem inStep_addHandler (block handler : Label) :
    Action.InStep (Hides hidden offset) (addHandler block handler) := by
  refine inStep_revise_of_overlooks (fun node => ?_) (fun node revised accepted idle => ?_) block
  · simp only [Node.addHandler, Node.placedAt]
    split <;> rfl
  · refine idle.of_usage ?_
    unfold Node.addHandler at accepted
    split at accepted <;> cases accepted <;> rfl

/-- The edges from the blocks that a handler protects are added. -/
theorem inStep_addHandlerEdges (handler : Handler) :
    Action.InStep (Hides hidden offset) (Assembler.addHandlerEdges handler) := by
  refine .bind (.read fun hides => ?_) fun _ => .forEach fun block _ => inStep_addHandler block _
  simp only [Assembler.protectedBlocks, hides.blocks_eq]

/-- The same blocks are reached within a subroutine. -/
theorem Hides.run_regionWalk (hides : Hides hidden offset plain marked) (entry : Label) :
    marked.regionWalk.run entry = plain.regionWalk.run entry := by
  have labels : marked.regionWalk.label = plain.regionWalk.label := rfl
  refine Walk.run_congr labels rfl (funext fun block => ?_) hides.size_eq entry
  exact hides.view_node Node.unassignedSuccessors (fun _ => rfl) block

/-- The same blocks are reached along the edges to a continuation. -/
theorem Hides.run_returnWalk (hides : Hides hidden offset plain marked)
    (subroutine : Option SubroutineId) (continuation entry : Label) :
    (marked.returnWalk subroutine continuation).run entry
      = (plain.returnWalk subroutine continuation).run entry := by
  have labels : (marked.returnWalk subroutine continuation).label
      = (plain.returnWalk subroutine continuation).label := rfl
  refine Walk.run_congr labels rfl (funext fun block => ?_) hides.size_eq entry
  refine hides.view_node (fun node =>
    (node.addReturn subroutine continuation).bodySuccessors) ?_ block
  intro node
  rw [node.addReturn_placedAt]
  rfl

/-- The same blocks are among those that pass a test of what does not depend on their places. -/
theorem Hides.filter_eq (hides : Hides hidden offset plain marked) {test : Node → Bool}
    (overlooks : ∀ node, test (node.placedAt offset) = test node) (blocks : List Label) :
    (blocks.filter fun block => (marked.node? block).any test)
      = blocks.filter fun block => (plain.node? block).any test :=
  List.filter_congr fun block _ => hides.view_node? (fun node? => node?.any test) overlooks block

/-- The blocks that an entry reaches are assigned to a subroutine. -/
theorem inStep_mark (entry : Label) (subroutine : SubroutineId) :
    Action.InStep (Hides hidden offset) (mark entry subroutine) := by
  have overlooks : Node.Overlooks offset fun node =>
    { node with subroutine := some subroutine } := by
    refine .of_usage ?_
    exact fun _ => ⟨rfl, rfl⟩
  exact .bind (.inspect fun hides => hides.run_regionWalk entry) fun sweep =>
    .bind (.inspect fun hides => hides.filter_eq (fun _ => rfl) sweep.visited) fun region =>
      .bind (.modify fun hides => hides.updateAll overlooks region) fun _ =>
        .bind (.check _) fun _ => .bind (.report _) fun _ => .pure _

/-- The edges to the continuation of a call are added. -/
theorem inStep_addReturns (entry caller : Label) :
    Action.InStep (Hides hidden offset) (addReturns entry caller) := by
  refine inStep_getNode_bind (fun _ => rfl) (fun node => ?_) caller
  refine .bind (.ofExcept _) fun (continuation, _) =>
    .bind (.inspect fun hides => hides.run_returnWalk node.subroutine continuation.successor entry)
      fun sweep => .bind (.inspect fun hides => hides.filter_eq (fun _ => rfl) sweep.visited)
        fun returns => .bind (.modify fun hides => hides.updateAll ?_ returns) fun _ =>
          .bind (.check _) fun _ => .bind (.report _) fun _ => .pure _
  exact Node.overlooks_addReturn offset node.subroutine continuation.successor

/-- The subroutine that a block calls is found. -/
theorem inStep_callee (block : Label) : Action.InStep (Hides hidden offset) (callee block) :=
  .bind (.read fun hides => hides.view_node Node.callEdges (fun _ => rfl) block) fun _ => .pure _

/-- The subroutine that a block calls is marked. -/
theorem inStep_markCallee (current last : SubroutineId) (block : Label) :
    Action.InStep (Hides hidden offset) (markCallee current last block) := by
  refine inStep_getNode_bind (fun _ => rfl) (fun node => ?_) block
  split
  · refine .bind (inStep_callee block) fun entry =>
      inStep_getNode_bind (fun _ => rfl) (fun other => ?_) entry
    split
    · exact .bind (inStep_mark entry _) fun _ => .pure _
    · exact .pure last
  · exact .pure last

/-- The edges along which control returns from the subroutine that a block calls are added. -/
theorem inStep_closeCall (block : Label) :
    Action.InStep (Hides hidden offset) (closeCall block) := by
  refine inStep_getNode_bind (fun _ => rfl) (fun node => ?_) block
  split
  · exact .bind (inStep_callee block) fun entry =>
      .bind (inStep_addReturns entry block) fun _ => .pure ()
  · exact .pure ()

/-- The subroutines are found whether the label has its place or not. -/
theorem inStep_analyzeSubroutines : Action.InStep (Hides hidden offset) analyzeSubroutines := by
  refine .bind (.inspect fun hides => ?_) fun first? => ?_
  · rw [firstBlock?, firstBlock?, hides.blocks_eq]
  cases first? with
  | none => exact .pure 0
  | some first =>
    refine .bind (inStep_mark first .main) fun _ => .bind (.inspect fun hides => ?_) fun blocks =>
      .bind (.inspect fun hides => ?_) fun ids =>
        .bind (.fold (fun current _ last => ?_) _) fun last =>
        .bind (.forEach fun block _ => inStep_closeCall block) fun _ => .pure _
    · rw [hides.blocks_eq]
    · rw [subroutineIds, subroutineIds, hides.size_eq]
    · unfold markCallees
      split
      · exact .fold (fun block _ value => inStep_markCallee current value block) last
      · exact .pure last

/-- The maximum is computed whether the label has its place or not. -/
theorem inStep_computeMaxStack : Action.InStep (Hides hidden offset) computeMaxStack := by
  refine .bind (.inspect fun hides => ?_) fun first? => ?_
  · rw [firstBlock?, firstBlock?, hides.blocks_eq]
  cases first? with
  | none => exact .pure 0
  | some first =>
    refine inStep_getNode_bind (fun _ => rfl) (fun _ => ?_) first
    refine .bind (.inspect fun hides => hides.sameControl.run_heightWalk ⟨first, 0⟩) fun sweep =>
      .bind (.modify fun hides => hides.foldl_reach sweep.entered) fun _ =>
        .bind (.check _) fun _ =>
        .bind (.inspect fun hides => ?_) fun _ => .bind (.report _) fun _ => .pure _
    rw [hides.sameControl.peak_eq]

end FlowGraph

end MethodBody
