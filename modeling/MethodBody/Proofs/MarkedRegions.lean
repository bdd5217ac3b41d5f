import MethodBody.Proofs.Regions
import MethodBody.Proofs.Routes

/-!
# The region that is marked

Marking a subroutine starts at its entry and spreads along edges, past the second edge of a call and
no further than blocks that belong to a subroutine already. The region it covers is the one that can
be described by paths (`InRegion`), whatever cycles, repeated edges and earlier regions there are:
all of it is assigned, nothing else is touched, and the answer is its size. A block in the region
that calls without having the edges of a call makes the marking fail, and nothing else does
(`mark_assigns_region`).
-/

namespace MethodBody

namespace FlowGraph

variable {graph after : FlowGraph} {entry label block next : Label} {node : Node}
  {subroutine : SubroutineId} {count : Nat}

/-- A path leads from the entry to the label, past no call and along labels only that belong to no
subroutine. -/
inductive InRegion (graph : FlowGraph) (entry : Label) : Label → Prop
  /-- The path begins at the entry. -/
  | entry (free : graph.isUnassigned entry = true) : InRegion graph entry entry
  /-- The path goes on along an edge. -/
  | step {block next : Label} (inside : InRegion graph entry block)
    (leads : graph.LeadsBut 1 block next) (free : graph.isUnassigned next = true) :
    InRegion graph entry next

/-- The label is the entry, or an edge leads to it from within the region. -/
def Touches (graph : FlowGraph) (entry label : Label) : Prop :=
  label = entry ∨ ∃ block, graph.InRegion entry block ∧ graph.LeadsBut 1 block label

/-- The blocks in a region are assigned to a subroutine, and nothing else has changed. -/
structure AssignsRegion (before : FlowGraph) (entry : Label) (subroutine : SubroutineId)
    (after : FlowGraph) : Prop where
  /-- The blocks are the same. -/
  blocks : after.blocks = before.blocks
  /-- A block in the region belongs to the subroutine, and that is all that has changed about it. -/
  inside : ∀ label, before.InRegion entry label → after.node? label =
    (before.node? label).map fun node => { node with subroutine := some subroutine }
  /-- What is known about any other label is the same. -/
  outside : ∀ label, ¬before.InRegion entry label → after.node? label = before.node? label

/-- A block in a region belongs to no subroutine. -/
theorem InRegion.free (inside : graph.InRegion entry label) : graph.isUnassigned label = true := by
  cases inside with
  | entry free => exact free
  | step _ _ free => exact free

/-- A block without a subroutine to which an edge leads from a region is in the region. -/
theorem Touches.inRegion (touches : graph.Touches entry label)
    (free : graph.isUnassigned label = true) : graph.InRegion entry label := by
  rcases touches with rfl | ⟨block, inside, leads⟩
  · exact .entry free
  · exact .step inside leads free

/-- A block belongs to no subroutine if that is known. -/
theorem isUnassigned_of_known (known : graph.node? label = some node)
    (unassigned : graph.subroutineOf label = none) : graph.isUnassigned label = true := by
  simpa [isUnassigned, subroutineOf, known] using unassigned

/-- A block without a subroutine is known to have none. -/
theorem subroutineOf_of_isUnassigned (free : graph.isUnassigned label = true) :
    graph.subroutineOf label = none := by
  obtain ⟨node, known, unassigned⟩ := (Option.any_eq_true _ _).mp free
  simpa [subroutineOf, known] using unassigned

/-- If control passes on from a block, it has the edges of a call if it calls. -/
theorem Flows.complete (flows : graph.Flows block next) (known : graph.node? block = some node) :
    ¬node.LacksCallEdges := by
  intro lacks
  obtain ⟨other, labels, knownToo, body, -⟩ := flows
  obtain rfl := Option.some.inj (known.symm.trans knownToo)
  simp [Node.bodySuccessors_of_lacks lacks] at body

/-- Control passes on along edges, but for the second of a call. -/
theorem Flows.leadsBut (flows : graph.Flows block next) : graph.LeadsBut 1 block next := by
  obtain ⟨node, _, known, -⟩ := id flows
  exact (flows_iff_of_complete known (flows.complete known)).mp flows

/-- The walk over a region comes to no label besides the entry and those that an edge leads to from
within. -/
theorem touches_of_reaches (reaches : graph.regionWalk.Reaches entry label) :
    graph.Touches entry label := by
  induction reaches with
  | refl => exact .inl rfl
  | @tail block next _ leads ih =>
    obtain ⟨unassigned, flows⟩ := leads_regionWalk_iff.mp leads
    obtain ⟨node, _, known, -⟩ := id flows
    exact .inr ⟨block, ih.inRegion (isUnassigned_of_known known unassigned), flows.leadsBut⟩

/-- A block that the walk leaves has the edges of a call if it calls. -/
theorem complete_of_visited (complete : (graph.regionWalk.run entry).failure = none)
    (visited : label ∈ (graph.regionWalk.run entry).visited)
    (free : graph.isUnassigned label = true)
    (known : graph.node? label = some node) : ¬node.LacksCallEdges := by
  intro lacks
  obtain ⟨items, found, -⟩ := (Walk.explores_run complete).closed label visited
  have unassigned : node.subroutine.isNone = true := by simpa [isUnassigned, known] using free
  have step : graph.regionWalk.next label = node.unassignedSuccessors := by
    simp [Walk.next, regionWalk, FlowGraph.node, known, bind, Except.bind]
  rw [step, Node.unassignedSuccessors, if_pos unassigned,
    Node.bodySuccessors_of_lacks lacks] at found
  cases found

/-- A walk that does not end early comes to the whole region. -/
theorem InRegion.reaches (complete : (graph.regionWalk.run entry).failure = none)
    (inside : graph.InRegion entry label) : graph.regionWalk.Reaches entry label := by
  induction inside with
  | entry free => exact .refl
  | step inside leads _ ih =>
    have free := inside.free
    obtain ⟨node, known, -⟩ := (Option.any_eq_true _ _).mp free
    have visited := ((Walk.explores_run complete).mem_visited_iff fun _ _ same => same).mpr ih
    have full := complete_of_visited complete visited free known
    exact ih.tail (leads_regionWalk_iff.mpr
      ⟨subroutineOf_of_isUnassigned free, (flows_iff_of_complete known full).mpr leads⟩)

/-- The blocks that are chosen by the walk are those in the region. -/
theorem mem_region_iff_inRegion (complete : (graph.regionWalk.run entry).failure = none) :
    label ∈ graph.region entry ↔ graph.InRegion entry label := by
  rw [mem_region_iff complete]
  constructor
  · rintro ⟨unassigned, reaches⟩
    obtain ⟨items, found, -⟩ := (Walk.explores_run complete).closed label
      (((Walk.explores_run complete).mem_visited_iff fun _ _ same => same).mpr reaches)
    obtain ⟨node, is, -⟩ := bind_eq_ok.mp found
    exact (touches_of_reaches reaches).inRegion
      (isUnassigned_of_known (known_of_node is) unassigned)
  · exact fun inside => ⟨subroutineOf_of_isUnassigned inside.free, inside.reaches complete⟩

/-- A walk over a region ends early only at a label that does not exist, or at a block in the region
that lacks the edges of a call. -/
theorem of_failure_regionWalk {cause : Error}
    (failed : (graph.regionWalk.run entry).failure = some cause) :
    (∃ label, graph.Touches entry label ∧ graph.node? label = none) ∨
      ∃ label node, graph.InRegion entry label ∧ graph.node? label = some node ∧
        node.LacksCallEdges ∧ cause = .malformedCaller node.label node.edges.length := by
  obtain ⟨label, reaches, stuck | refused⟩ := Walk.exists_of_failure_run failed
  · have touches := touches_of_reaches reaches
    rcases Walk.next_eq_error stuck with ⟨unknown, -⟩ | ⟨node, known, left⟩
    · exact .inl ⟨label, touches, unknown⟩
    · simp only [regionWalk, Node.unassignedSuccessors] at known left
      split at left
      · rename_i free
        by_cases lacks : node.LacksCallEdges
        · rw [Node.bodySuccessors_of_lacks lacks] at left
          have inside := touches.inRegion (by simpa [isUnassigned, known] using free)
          exact .inr ⟨label, node, inside, known, lacks, (Except.error.inj left).symm⟩
        · obtain ⟨labels, body, -⟩ := Node.bodySuccessors_of_complete lacks
          simp [body] at left
      · simp at left
  · simp [regionWalk] at refused

/-- A region has as many blocks as the walk chooses. -/
theorem length_region (complete : (graph.regionWalk.run entry).failure = none) :
    (graph.region entry).length = {label | graph.InRegion entry label}.ncard :=
  length_eq_ncard (nodup_region complete) fun _ => mem_region_iff_inRegion complete

/-- If all labels that a region touches exist, a walk over it ends early only at a block that lacks
the edges of a call. -/
theorem exists_of_failure_regionWalk {cause : Error}
    (known : ∀ label, graph.Touches entry label → (graph.node? label).isSome)
    (failed : (graph.regionWalk.run entry).failure = some cause) :
    ∃ label node, graph.InRegion entry label ∧ graph.node? label = some node ∧
      node.LacksCallEdges ∧ cause = .malformedCaller node.label node.edges.length := by
  refine (of_failure_regionWalk failed).resolve_left ?_
  rintro ⟨label, touches, unknown⟩
  simpa [unknown] using known label touches

/-- If all blocks in a region that call have the edges of a call, marking assigns them all. -/
theorem exists_yields_mark (subroutine : SubroutineId)
    (known : ∀ label, graph.Touches entry label → (graph.node? label).isSome)
    (callers : ∀ label node, graph.InRegion entry label → graph.node? label = some node →
      node.flags.callsSubroutine = true → 2 ≤ node.edges.length) :
    ∃ after, (mark entry subroutine).Yields graph {label | graph.InRegion entry label}.ncard after ∧
      graph.AssignsRegion entry subroutine after := by
  have complete : (graph.regionWalk.run entry).failure = none := by
    by_contra failed
    obtain ⟨cause, failed⟩ := Option.ne_none_iff_exists'.mp failed
    obtain ⟨label, node, inside, found, lacks, -⟩ := exists_of_failure_regionWalk known failed
    exact absurd (callers label node inside found lacks.1) (Nat.not_le.mpr lacks.2)
  have distinct := nodup_region complete
  refine ⟨_, ⟨?_, rfl⟩, ?_, fun label inside => ?_, fun label outside => ?_⟩
  · rw [run_mark, complete, ← length_region complete]
  · have marked := (assigns_mark entry subroutine graph).blocks
    exact marked
  · rw [run_mark, complete]
    simp only
    rw [node?_updateAll distinct, if_pos ((mem_region_iff_inRegion complete).mpr inside)]
  · rw [run_mark, complete]
    simp only
    rw [node?_updateAll distinct, if_neg (mt (mem_region_iff_inRegion complete).mp outside)]

/-- If some block in a region calls without having the edges of a call, such a block makes the
marking fail. -/
theorem exists_answer_mark (subroutine : SubroutineId)
    (known : ∀ label, graph.Touches entry label → (graph.node? label).isSome)
    (bad : ∃ label node, graph.InRegion entry label ∧ graph.node? label = some node ∧
      node.flags.callsSubroutine = true ∧ node.edges.length < 2) :
    ∃ label node, graph.InRegion entry label ∧ graph.node? label = some node ∧
      node.flags.callsSubroutine = true ∧ node.edges.length < 2 ∧
      ((mark entry subroutine).run graph).answer
        = .error (.malformedCaller node.label node.edges.length) := by
  obtain ⟨bad, badNode, badInside, badFound, calls, short⟩ := bad
  cases failed : (graph.regionWalk.run entry).failure with
  | none =>
    have visited := ((Walk.explores_run failed).mem_visited_iff fun _ _ same => same).mpr
      (badInside.reaches failed)
    exact absurd ⟨calls, short⟩ (complete_of_visited failed visited badInside.free badFound)
  | some cause =>
    obtain ⟨label, node, inside, found, lacks, rfl⟩ := exists_of_failure_regionWalk known failed
    refine ⟨label, node, inside, found, lacks.1, lacks.2, ?_⟩
    rw [run_mark, failed]

/-- Marking assigns exactly the region around the entry and counts its blocks, unless some block in
it calls without having the edges of a call. Then such a block is what makes it fail. -/
theorem mark_assigns_region (graph : FlowGraph) (entry : Label) (subroutine : SubroutineId)
    (known : ∀ label, graph.Touches entry label → (graph.node? label).isSome) :
    ((∀ label node, graph.InRegion entry label → graph.node? label = some node →
        node.flags.callsSubroutine = true → 2 ≤ node.edges.length) →
      ∃ after, (mark entry subroutine).Yields graph
          {label | graph.InRegion entry label}.ncard after ∧
        graph.AssignsRegion entry subroutine after) ∧
    ((∃ label node, graph.InRegion entry label ∧ graph.node? label = some node ∧
        node.flags.callsSubroutine = true ∧ node.edges.length < 2) →
      ∃ label node, graph.InRegion entry label ∧ graph.node? label = some node ∧
        node.flags.callsSubroutine = true ∧ node.edges.length < 2 ∧
        ((mark entry subroutine).run graph).answer
          = .error (.malformedCaller node.label node.edges.length)) :=
  ⟨exists_yields_mark subroutine known, exists_answer_mark subroutine known⟩

/-- The labels that a region touches exist if its entry does and all edges lead to labels that
do. -/
theorem Touches.isSome_of_forall (entryKnown : (graph.node? entry).isSome)
    (rows : ∀ node ∈ graph.nodes.toList, ∀ edge ∈ node.edges, (graph.node? edge.successor).isSome)
    (touches : graph.Touches entry label) : (graph.node? label).isSome := by
  rcases touches with rfl | ⟨block, -, leads⟩
  · exact entryKnown
  · exact leads.isSome rows

/-- A loop with a call, in front of a block that belongs to another subroutine. -/
def loopBesideRegion : FlowGraph where
  nodes := #[
    { label := ⟨0⟩, edges := [⟨.jump 0, ⟨1⟩⟩, ⟨.jump 0, ⟨1⟩⟩] },
    { label := ⟨1⟩, flags.callsSubroutine := true,
      edges := [⟨.jump 0, ⟨2⟩⟩, ⟨.jump 1, ⟨3⟩⟩, ⟨.exception, ⟨4⟩⟩] },
    { label := ⟨2⟩, edges := [⟨.jump 0, ⟨0⟩⟩, ⟨.jump 0, ⟨4⟩⟩] },
    { label := ⟨3⟩ },
    { label := ⟨4⟩, subroutine := some ⟨7⟩, edges := [⟨.jump 0, ⟨5⟩⟩] },
    { label := ⟨5⟩ }]

/-- A block in front of one that calls with a single edge. -/
def halfCall : FlowGraph where
  nodes := #[{ label := ⟨0⟩, edges := [⟨.jump 0, ⟨1⟩⟩] },
    { label := ⟨1⟩, flags.callsSubroutine := true, edges := [⟨.jump 0, ⟨0⟩⟩] }]

/-- The three blocks of the loop are marked. The call with a single edge is refused. -/
theorem mark_assigns_region_loop :
    (∃ after, (mark ⟨0⟩ ⟨2⟩).Yields loopBesideRegion 3 after ∧
      loopBesideRegion.AssignsRegion ⟨0⟩ ⟨2⟩ after ∧
      {label | loopBesideRegion.InRegion ⟨0⟩ label}.ncard = 3) ∧
    ∃ label node, halfCall.InRegion ⟨0⟩ label ∧ halfCall.node? label = some node ∧
      node.flags.callsSubroutine = true ∧ node.edges.length < 2 ∧
      ((mark ⟨0⟩ ⟨2⟩).run halfCall).answer
        = .error (.malformedCaller node.label node.edges.length) := by
  have marks := (mark_assigns_region loopBesideRegion ⟨0⟩ ⟨2⟩ fun label touches =>
    touches.isSome_of_forall (by decide) (by decide)).1
  have refuses := (mark_assigns_region halfCall ⟨0⟩ ⟨2⟩ fun label touches =>
    touches.isSome_of_forall (by decide) (by decide)).2
  constructor
  · obtain ⟨after, yields, assigns⟩ := marks fun label node _ known =>
      (by decide : ∀ node ∈ loopBesideRegion.nodes.toList,
        node.flags.callsSubroutine = true → 2 ≤ node.edges.length) node (mem_nodes_of_known known)
    have three : ((mark ⟨0⟩ ⟨2⟩).run loopBesideRegion).answer = .ok 3 := by decide +kernel
    have size := Except.ok.inj (yields.1.symm.trans three)
    exact ⟨after, size ▸ yields, assigns, size⟩
  · have inside : halfCall.InRegion ⟨0⟩ ⟨1⟩ :=
      .step (.entry rfl) ⟨_, ⟨_, rfl, 0, rfl, by simp⟩, rfl⟩ rfl
    exact refuses ⟨⟨1⟩, _, inside, rfl, rfl, by decide⟩

end FlowGraph

end MethodBody
