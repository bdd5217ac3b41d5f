import MethodBody.Proofs.Lockstep
import MethodBody.Proofs.RecordedHeights

/-!
# What the maximum depends on

The maximum stack height is a matter of the flow of control alone: the blocks, their edges and
peaks, and which of them end with a call (`SameControl`). Whatever else is recorded in a graph,
stale heights of an earlier computation among it, goes unnoticed, since a height is only used at a
block that was entered in the same computation. So a second computation finds what the first one has
found and changes nothing (`computeMaxStack_of_sameControl`). This does not depend on where the
heights of pending blocks are kept: reading them back from the graph comes to the same
(`Survey.ends_start_iff`).
-/

namespace MethodBody

/-- What the flow of control through a block depends on: its edges, its peak and whether it ends
with a call. -/
def Node.control (node : Node) : List Edge × Int32 × Bool :=
  (node.edges, node.peakHeight, node.flags.callsSubroutine)

namespace FlowGraph

/-- Control flows through both graphs in the same way: they have the same blocks in the same order
and the same labels, and label by label the same edges, peaks and calls. -/
structure SameControl (first second : FlowGraph) : Prop where
  /-- The blocks are the same. -/
  blocks : second.blocks = first.blocks
  /-- The flow through each label is the same. -/
  nodes : ∀ label, (second.node? label).map Node.control = (first.node? label).map Node.control

/-- The label is visited when the maximum is computed: the first block reaches it, other than from a
call to its continuation. -/
def IsVisited (graph : FlowGraph) (label : Label) : Prop :=
  ∃ first, graph.firstBlock? = some first ∧ graph.ReachesBut 0 first label

variable {first second third : FlowGraph} {start label : Label} {arrival : Arrival} {most : Nat}

namespace SameControl

/-- Control flows in the same way the other way round. -/
theorem symm (same : first.SameControl second) : second.SameControl first :=
  ⟨same.blocks.symm, fun label => (same.nodes label).symm⟩

/-- Control flows in the same way through a third graph. -/
theorem trans (one : first.SameControl second) (two : second.SameControl third) :
    first.SameControl third :=
  ⟨two.blocks.trans one.blocks, fun label => (two.nodes label).trans (one.nodes label)⟩

/-- A change that the flow of control does not depend on. -/
theorem of_update {change : Node → Node} (same : ∀ node, (change node).control = node.control)
    (graph : FlowGraph) (changed : Label) : graph.SameControl (graph.update changed change) := by
  refine ⟨rfl, fun label => ?_⟩
  rw [node?_update]
  split
  · rw [Option.map_map]
    exact congrArg (Option.map · _) (funext same)
  · rfl

/-- The flow of control does not depend on the heights that are recorded. -/
theorem of_reach (arrivals : List Arrival) (graph : FlowGraph) :
    graph.SameControl (arrivals.foldl reach graph) := by
  induction arrivals generalizing graph with
  | nil => exact ⟨rfl, fun _ => rfl⟩
  | cons arrival rest ih =>
    refine SameControl.trans (of_update ?_ graph arrival.block) (ih _)
    exact fun _ => rfl

/-- A label is unknown in both graphs, or control flows through it in the same way. -/
theorem unknown_or_same (same : first.SameControl second) (label : Label) :
    first.node? label = none ∧ second.node? label = none ∨
      ∃ one other, first.node? label = some one ∧ second.node? label = some other ∧
        other.control = one.control := by
  have node := same.nodes label
  cases one : first.node? label with
  | none => exact .inl ⟨rfl, by simpa [one] using node⟩
  | some found =>
    rw [one, Option.map_some] at node
    obtain ⟨other, foundToo, alike⟩ := Option.map_eq_some_iff.mp node
    exact .inr ⟨found, other, rfl, foundToo, alike⟩

/-- The same labels exist. -/
theorem isSome_node? (same : first.SameControl second) (label : Label) :
    (second.node? label).isSome = (first.node? label).isSome := by
  simpa using congrArg Option.isSome (same.nodes label)

/-- The first block is the same. -/
theorem firstBlock?_eq (same : first.SameControl second) :
    second.firstBlock? = first.firstBlock? := by
  rw [firstBlock?, firstBlock?, same.blocks]

/-- There are as many labels. -/
theorem size_nodes (same : first.SameControl second) : second.nodes.size = first.nodes.size := by
  have created (index : Nat) : index < second.nodes.size ↔ index < first.nodes.size := by
    have alike : second.nodes[index]?.isSome = first.nodes[index]?.isSome :=
      same.isSome_node? ⟨index⟩
    simpa only [isSome_getElem?] using Bool.eq_iff_iff.mp alike
  have one := created first.nodes.size
  have other := created second.nodes.size
  omega

/-- The same arrivals are refused. -/
theorem refusal_heightWalk_eq (same : first.SameControl second) (arrival : Arrival) :
    second.heightWalk.refusal arrival = first.heightWalk.refusal arrival := by
  rcases same.unknown_or_same arrival.block with ⟨one, other⟩ | ⟨_, _, one, other, -⟩ <;>
    simp [heightWalk, one, other]

/-- A block is left in the same way. -/
theorem next_heightWalk_eq (same : first.SameControl second) (arrival : Arrival) :
    second.heightWalk.next arrival = first.heightWalk.next arrival := by
  rcases same.unknown_or_same arrival.block with ⟨one, other⟩ | ⟨node, found, one, other, alike⟩
  · simp [Walk.next, heightWalk, FlowGraph.node, one, other]
  · obtain ⟨edges, flow⟩ := Prod.mk.inj alike
    have calls : found.flags.callsSubroutine = node.flags.callsSubroutine := congrArg Prod.snd flow
    have departs : found.departures arrival = node.departures arrival := by
      rw [Node.departures, Node.departures, Node.flowEdges, Node.flowEdges, edges, calls]
    simp [Walk.next, heightWalk, FlowGraph.node, one, other, bind, Except.bind, departs]

/-- The walks over the heights are the same. -/
theorem run_heightWalk (same : first.SameControl second) (arrival : Arrival) :
    second.heightWalk.run arrival = first.heightWalk.run arrival := by
  have labels : second.heightWalk.label = first.heightWalk.label := rfl
  exact Walk.run_congr labels (funext same.refusal_heightWalk_eq) (funext same.next_heightWalk_eq)
    same.size_nodes arrival

/-- The peaks are the same. -/
theorem peak_eq (same : first.SameControl second) : second.peak = first.peak := by
  funext arrival
  rcases same.unknown_or_same arrival.block with ⟨one, other⟩ | ⟨node, found, one, other, alike⟩
  · simp [peak, one, other]
  · have peaks : found.peakHeight = node.peakHeight := congrArg (·.2.1) alike
    simp [peak, one, other, peaks]

/-- The peaks stay the same when the same heights are recorded. -/
theorem peak_reach (same : first.SameControl second) (arrivals : List Arrival) :
    (arrivals.foldl reach second).peak = (arrivals.foldl reach first).peak :=
  (((of_reach arrivals first).symm.trans same).trans (of_reach arrivals second)).peak_eq

end SameControl

/-- The maximum that is computed, or the refusal, is the same if control flows in the same way. -/
theorem SameControl.run_computeMaxStack (same : first.SameControl second) :
    (computeMaxStack.run second).answer = (computeMaxStack.run first).answer ∧
      (computeMaxStack.run second).events = (computeMaxStack.run first).events := by
  have begins := same.firstBlock?_eq
  cases found : first.firstBlock? with
  | none =>
    rw [run_computeMaxStack_of_none found, run_computeMaxStack_of_none (begins.trans found)]
    exact ⟨rfl, rfl⟩
  | some start =>
    rcases same.unknown_or_same start with ⟨one, other⟩ | ⟨_, _, one, other, -⟩
    · rw [run_computeMaxStack_of_unknown found one,
        run_computeMaxStack_of_unknown (begins.trans found) other]
      exact ⟨rfl, rfl⟩
    · rw [FlowGraph.run_computeMaxStack found (by simp [one]),
        FlowGraph.run_computeMaxStack (begins.trans found) (by simp [other])]
      simp only [same.run_heightWalk, same.peak_reach]
      cases (first.heightWalk.run ⟨start, 0⟩).failure <;> exact ⟨rfl, rfl⟩

/-- Recording the same heights again changes nothing, if no block has two of them. -/
theorem foldl_reach_foldl_reach {arrivals : List Arrival}
    (distinct : (arrivals.map Arrival.block).Nodup) (graph : FlowGraph) :
    arrivals.foldl reach (arrivals.foldl reach graph) = arrivals.foldl reach graph := by
  refine eq_of_node? (SameControl.of_reach arrivals _).blocks fun label => ?_
  by_cases recorded : ∃ arrival ∈ arrivals, arrival.block = label
  · obtain ⟨arrival, member, rfl⟩ := recorded
    simp only [node?_foldl_reach_of_mem distinct member, Option.map_map]
    rfl
  · exact node?_foldl_reach_of_ne fun arrival member same => recorded ⟨arrival, member, same⟩

/-- A computation that succeeds records the heights of the arrivals of a walk, and nothing else. -/
theorem explores_of_yields (begins : first.firstBlock? = some start) {after : FlowGraph}
    (yields : computeMaxStack.Yields first most after) :
    first.heightWalk.Explores ⟨start, 0⟩ (first.heightWalk.run ⟨start, 0⟩) ∧
      (first.heightWalk.run ⟨start, 0⟩).visited.foldl reach first = after := by
  obtain ⟨-, complete, is, -⟩ := (yields_computeMaxStack_iff begins).mp yields
  have explores := Walk.explores_run complete
  rw [Sweep.entered, explores.pending, List.append_nil] at is
  exact ⟨explores, is⟩

/-- The same heights are recorded at the labels that are visited, if control flows in the same
way. -/
theorem SameControl.inputOf_eq (same : first.SameControl second) {after later : FlowGraph}
    (yields : computeMaxStack.Yields first most after)
    (yieldsToo : computeMaxStack.Yields second most later) (visited : first.IsVisited label) :
    later.inputOf label = after.inputOf label := by
  obtain ⟨start, begins, reached⟩ := visited
  have beginsToo := same.firstBlock?_eq.trans begins
  obtain ⟨explores, rfl⟩ := explores_of_yields begins yields
  obtain ⟨-, rfl⟩ := explores_of_yields beginsToo yieldsToo
  obtain ⟨arrival, member, rfl⟩ := (exists_visited_iff explores).mpr reached
  have known := Option.isSome_iff_exists.mpr (exists_known explores member)
  rw [same.run_heightWalk, inputOf_foldl_reach explores.distinct member known]
  exact inputOf_foldl_reach explores.distinct member (by rw [same.isSome_node?]; exact known)

/-- Computing the maximum once more gives the same and changes nothing. -/
theorem run_computeMaxStack_of_yields {after : FlowGraph}
    (yields : computeMaxStack.Yields first most after) :
    computeMaxStack.run after = computeMaxStack.run first := by
  cases begins : first.firstBlock? with
  | none =>
    obtain rfl : first = after := by
      simpa only [run_computeMaxStack_of_none begins] using yields.2
    rfl
  | some start =>
    obtain ⟨explores, is⟩ := explores_of_yields begins yields
    obtain ⟨known, complete, -⟩ := (yields_computeMaxStack_iff begins).mp yields
    have same : first.SameControl after := is ▸ .of_reach _ first
    have beginsToo := same.firstBlock?_eq.trans begins
    have again : (first.heightWalk.run ⟨start, 0⟩).visited.foldl reach after = after := by
      rw [← is]
      exact foldl_reach_foldl_reach explores.distinct first
    rw [run_computeMaxStack begins known,
      run_computeMaxStack beginsToo (by rw [same.isSome_node?]; exact known)]
    simp only [same.run_heightWalk, Sweep.entered, explores.pending, List.append_nil, again, is]

/-- If control flows through two graphs in the same way, the same maximum is computed in both, or
both are refused for the same cause. Then the same heights are recorded at the labels that are
visited, and computing the maximum once more gives the same and changes nothing. -/
theorem computeMaxStack_of_sameControl (same : first.SameControl second) :
    (computeMaxStack.run second).answer = (computeMaxStack.run first).answer ∧
      (computeMaxStack.run second).events = (computeMaxStack.run first).events ∧
      ∀ most, (computeMaxStack.run first).answer = .ok most →
        (∀ label, first.IsVisited label →
          (computeMaxStack.run second).state.inputOf label
            = (computeMaxStack.run first).state.inputOf label) ∧
        computeMaxStack.run (computeMaxStack.run first).state = computeMaxStack.run first := by
  obtain ⟨answer, events⟩ := same.run_computeMaxStack
  refine ⟨answer, events, fun most succeeds => ?_⟩
  have yields := Action.yields_of_answer succeeds
  have yieldsToo := Action.yields_of_answer (answer.trans succeeds)
  exact ⟨fun label visited => same.inputOf_eq yields yieldsToo visited,
    run_computeMaxStack_of_yields yields⟩

/-- The loop in which a subroutine is called, with stale contents at the continuation of the
call. -/
def staleLoop : FlowGraph := loopedCall.update ⟨2⟩ fun node =>
  { node with
    placement := .placed 4
    lines := #[7]
    subroutine := some .main
    inputHeight := 77
    outputHeight := -5
    flags.reachable := true
    flags.jumpTarget := true }

/-- The stale contents go unnoticed: the height at the continuation is recorded anew, and the
maximum is the same. -/
theorem computeMaxStack_of_sameControl_staleLoop :
    loopedCall.SameControl staleLoop ∧ staleLoop.inputOf ⟨2⟩ = 77 ∧
      (computeMaxStack.run staleLoop).answer = .ok 5 ∧
      (computeMaxStack.run staleLoop).state.inputOf ⟨2⟩ = 2 ∧
      computeMaxStack.run (computeMaxStack.run loopedCall).state
        = computeMaxStack.run loopedCall := by
  have same : loopedCall.SameControl staleLoop := by
    refine .of_update ?_ _ _
    exact fun _ => rfl
  have five : (computeMaxStack.run loopedCall).answer = .ok 5 := by decide +kernel
  have begins : loopedCall.LeadsBut 0 ⟨0⟩ ⟨1⟩ := ⟨_, ⟨_, rfl, 0, rfl, by decide⟩, rfl⟩
  have calls : loopedCall.LeadsBut 0 ⟨1⟩ ⟨3⟩ := ⟨_, ⟨_, rfl, 1, rfl, by decide⟩, rfl⟩
  have returns : loopedCall.LeadsBut 0 ⟨3⟩ ⟨2⟩ := ⟨_, ⟨_, rfl, 0, rfl, by decide⟩, rfl⟩
  have reached : loopedCall.ReachesBut 0 ⟨0⟩ ⟨2⟩ :=
    .head begins (.head calls (.single returns))
  have visited : loopedCall.IsVisited ⟨2⟩ := ⟨⟨0⟩, rfl, reached⟩
  obtain ⟨answer, -, succeeds⟩ := computeMaxStack_of_sameControl same
  obtain ⟨heights, again⟩ := succeeds 5 five
  refine ⟨same, rfl, answer.trans five, (heights ⟨2⟩ visited).trans (by decide +kernel), again⟩

end FlowGraph

end MethodBody
