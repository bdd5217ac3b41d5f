import MethodBody.Proofs.Tours
import MethodBody.Proofs.Routes

/-!
# The edges along which a call returns

The edges that a call gives to the returns of other subroutines lead to its continuation, so they
bring into reach what the continuation reaches. One such edge is enough for that: what the call
leads to can be said in terms of the graph as it was, without any of the edges that are added
(`LeadsInto`). The returns among those labels get one edge each, in whatever order the blocks are
visited (`addReturns_extends_returns`).
-/

namespace MethodBody

namespace FlowGraph

variable {graph after : FlowGraph} {caller entry continuation block next label : Label}
  {node : Node} {first : Edge}

/-- All blocks that call have the two edges of a call. -/
def CallersComplete (graph : FlowGraph) : Prop :=
  ∀ label node, graph.node? label = some node → node.flags.callsSubroutine = true →
    2 ≤ node.edges.length

/-- Edges lead from the entry to the label without the second edge of any call. If they lead to a
return from another subroutine than that of the caller, they may begin at the continuation too. -/
def LeadsInto (graph : FlowGraph) (caller entry continuation label : Label) : Prop :=
  graph.ReachesBut 1 entry label ∨
    (∃ block, graph.ReachesBut 1 entry block ∧ graph.ReturnsTo caller block) ∧
      graph.ReachesBut 1 continuation label

/-- The returns from other subroutines that a call leads to. -/
def returnsInto (graph : FlowGraph) (caller entry continuation : Label) : Set Label :=
  {label | graph.LeadsInto caller entry continuation label ∧ graph.ReturnsTo caller label}

/-- Some blocks have one more edge, which leads to the continuation with the stack as it is at the
end of the block and stands in front of the others. Nothing else has changed. -/
structure ExtendsReturns (before : FlowGraph) (returns : Set Label) (continuation : Label)
    (after : FlowGraph) : Prop where
  /-- The blocks are the same. -/
  blocks : after.blocks = before.blocks
  /-- A block that gets an edge keeps the edges it has, in order. -/
  inside : ∀ label ∈ returns, after.node? label = (before.node? label).map fun node =>
    { node with edges := ⟨.jump node.outputHeight, continuation⟩ :: node.edges }
  /-- What is known about any other label is the same. -/
  outside : ∀ label ∉ returns, after.node? label = before.node? label

/-- A block in a graph whose callers are complete does not lack the edges of a call. -/
theorem CallersComplete.not_lacks (callers : graph.CallersComplete)
    (known : graph.node? block = some node) : ¬node.LacksCallEdges :=
  fun lacks => Nat.not_le.mpr lacks.2 (callers block node known lacks.1)

/-- An edge to the continuation does not take the edges of a call away. -/
theorem not_lacks_addReturn (complete : ¬node.LacksCallEdges) (subroutine : Option SubroutineId) :
    ¬(node.addReturn subroutine continuation).LacksCallEdges := by
  unfold Node.addReturn
  split
  · intro lacks
    exact complete ⟨lacks.1, Nat.lt_of_succ_lt lacks.2⟩
  · exact complete

/-- If all callers are complete, control passes on along the edges but for the second of a call. -/
theorem flows_iff_leadsBut (callers : graph.CallersComplete) :
    graph.Flows block next ↔ graph.LeadsBut 1 block next := by
  cases known : graph.node? block with
  | none => simp [Flows, LeadsBut, LeavesBut, known]
  | some node => exact flows_iff_of_complete known (callers.not_lacks known)

/-- What control gets to, return edges included, is what the call leads to along the edges that are
there without them. -/
theorem reaches_flowsBack_iff (callers : graph.CallersComplete) :
    Relation.ReflTransGen (graph.FlowsBack caller continuation) entry label ↔
      graph.LeadsInto caller entry continuation label := by
  have along {start target : Label} (path : graph.ReachesBut 1 start target) :
      Relation.ReflTransGen (graph.FlowsBack caller continuation) start target :=
    Relation.ReflTransGen.mono (fun _ _ leads =>
      .inl ((flows_iff_leadsBut callers).mpr leads)) _ _ path
  constructor
  · intro path
    induction path with
    | refl => exact .inl .refl
    | @tail block next _ step ih =>
      rcases step with flows | ⟨returns, rfl⟩
      · have leads := (flows_iff_leadsBut callers).mp flows
        exact ih.imp (·.tail leads) fun ⟨back, path⟩ => ⟨back, path.tail leads⟩
      · -- Either this is a return that the entry reaches, or such a return was met before.
        rcases ih with path | ⟨back, -⟩
        · exact .inr ⟨⟨block, path, returns⟩, .refl⟩
        · exact .inr ⟨back, .refl⟩
  · rintro (path | ⟨⟨block, path, returns⟩, onward⟩)
    · exact along path
    · exact ((along path).tail (.inr ⟨returns, rfl⟩)).trans (along onward)

/-- The walk for a call does not end early if all callers are complete and the labels exist. -/
theorem returnWalk_complete (callers : graph.CallersComplete) (exclusive : graph.Exclusive)
    (exist : ∀ label,
      graph.LeadsInto caller entry continuation label → (graph.node? label).isSome) :
    ((graph.returnWalk (graph.subroutineOf caller) continuation).run entry).failure = none := by
  by_contra failed
  obtain ⟨cause, failed⟩ := Option.ne_none_iff_exists'.mp failed
  obtain ⟨label, reaches, stuck | refused⟩ := Walk.exists_of_failure_run failed
  · have path := Relation.ReflTransGen.mono (fun _ _ => (leads_returnWalk_iff exclusive).mp) _ _
      reaches
    have there := exist label ((reaches_flowsBack_iff callers).mp path)
    rcases Walk.next_eq_error stuck with ⟨unknown, -⟩ | ⟨node, known, left⟩
    · rw [show graph.node? label = none from unknown] at there
      cases there
    · obtain ⟨labels, body, -⟩ := Node.bodySuccessors_of_complete
        (not_lacks_addReturn (callers.not_lacks known) _)
      cases left.symm.trans body
  · cases refused

/-- The call gives an edge to exactly the returns from other subroutines that it leads to, in front
of the edges they have, and it counts those edges. So does every tour of the blocks, in whatever
order it visits them, and all tours come to an end. -/
theorem addReturns_extends_returns (callers : graph.CallersComplete) (exclusive : graph.Exclusive)
    (known : graph.node? caller = some node) (calls : node.flags.callsSubroutine = true)
    (begins : node.edges.head? = some first)
    (exist : ∀ label, graph.LeadsInto caller entry first.successor label →
      (graph.node? label).isSome) :
    ∃ after,
      (addReturns entry caller).Yields graph
        (graph.returnsInto caller entry first.successor).ncard after ∧
      graph.ExtendsReturns (graph.returnsInto caller entry first.successor) first.successor after ∧
      (∀ tour, Relation.ReflTransGen (Tour.Visits node.subroutine first.successor)
          (Tour.start graph entry) tour →
        (tour.pending = [] → tour.graph = after ∧
          tour.added = (graph.returnsInto caller entry first.successor).ncard) ∧
        ∃ last, Relation.ReflTransGen (Tour.Visits node.subroutine first.successor) tour last ∧
          last.pending = []) ∧
      ¬∃ tours : Nat → Tour, tours 0 = Tour.start graph entry ∧
        ∀ place, Tour.Visits node.subroutine first.successor (tours place) (tours (place + 1)) := by
  have edges : ∃ second, node.callEdges = .ok (first, second) := by
    have long := callers caller node known calls
    rcases rows : node.edges with _ | ⟨only, _ | ⟨second, others⟩⟩
    · simp [rows] at begins
    · simp [rows] at long
    · obtain rfl : only = first := by simpa [rows] using begins
      exact ⟨second, by rw [Node.callEdges, calls, rows]⟩
  obtain ⟨second, edges⟩ := edges
  have subroutine : node.subroutine = graph.subroutineOf caller := by simp [subroutineOf, known]
  rw [subroutine]
  have complete := returnWalk_complete callers exclusive exist
  have distinct := nodup_returns complete
  have chosen (label : Label) :
      label ∈ graph.returns (graph.subroutineOf caller) first.successor entry ↔
        label ∈ graph.returnsInto caller entry first.successor := by
    rw [mem_returns_iff exclusive complete, Gains, reaches_flowsBack_iff callers]
    exact And.comm
  have size := length_eq_ncard distinct chosen
  refine ⟨_, ⟨?_, rfl⟩, ⟨?_, fun label inside => ?_, fun label outside => ?_⟩,
    fun tour path => ?_, ?_⟩
  · rw [run_addReturns known edges, complete]
    exact congrArg Except.ok size
  · rw [run_addReturns known edges, complete]
    exact blocks_updateAll _ _ _
  · obtain ⟨-, node, found, returned⟩ := id inside
    rw [run_addReturns known edges, complete]
    simp only
    rw [node?_updateAll distinct, if_pos ((chosen label).mpr inside), found, Option.map_some,
      Node.addReturn_of_returnsFromOther returned]
    rfl
  · rw [run_addReturns known edges, complete]
    simp only
    rw [node?_updateAll distinct, if_neg (mt (chosen label).mp outside)]
  · obtain ⟨visited, covers⟩ := Tour.exists_covers exclusive path
    refine ⟨fun ended => ?_, covers.exists_finished exclusive complete⟩
    obtain ⟨same, count⟩ := covers.eq_of_finished exclusive complete ended
    refine ⟨?_, count.trans size⟩
    rw [run_addReturns known edges, complete]
    exact same
  · exact Tour.not_exists_endless exclusive complete

/-- The labels that a call leads to exist if its entry and its continuation do and all edges lead to
labels that do. -/
theorem LeadsInto.isSome (into : graph.LeadsInto caller entry continuation label)
    (entryKnown : (graph.node? entry).isSome)
    (continuationKnown : (graph.node? continuation).isSome)
    (rows : ∀ node ∈ graph.nodes.toList, ∀ edge ∈ node.edges, (graph.node? edge.successor).isSome) :
    (graph.node? label).isSome := by
  have along {start target : Label} (path : graph.ReachesBut 1 start target)
      (known : (graph.node? start).isSome) : (graph.node? target).isSome := by
    induction path with
    | refl => exact known
    | tail _ leads _ => exact leads.isSome rows
  rcases into with path | ⟨-, path⟩
  · exact along path entryKnown
  · exact along path continuationKnown

/-- A call in a loop, of a subroutine with two returns. The continuation leads to a return from a
third subroutine, and a handler ends with a return from the subroutine of the caller. -/
def callWithReturns : FlowGraph where
  nodes := #[
    { label := ⟨0⟩, flags.callsSubroutine := true, subroutine := some ⟨1⟩,
      edges := [⟨.jump 0, ⟨1⟩⟩, ⟨.jump 1, ⟨2⟩⟩] },
    { label := ⟨1⟩, subroutine := some ⟨1⟩, edges := [⟨.jump 0, ⟨0⟩⟩, ⟨.jump 0, ⟨5⟩⟩] },
    { label := ⟨2⟩, subroutine := some ⟨2⟩, edges := [⟨.jump (-1), ⟨3⟩⟩, ⟨.jump 0, ⟨4⟩⟩] },
    { label := ⟨3⟩, flags.endsSubroutine := true, subroutine := some ⟨2⟩, outputHeight := 2,
      edges := [⟨.exception, ⟨6⟩⟩] },
    { label := ⟨4⟩, flags.endsSubroutine := true, subroutine := some ⟨2⟩ },
    { label := ⟨5⟩, flags.endsSubroutine := true, subroutine := some ⟨3⟩ },
    { label := ⟨6⟩, flags.endsSubroutine := true, subroutine := some ⟨1⟩ }]

/-- The two returns of the subroutine get an edge, and so does the one that the continuation leads
to. -/
theorem addReturns_extends_returns_loop :
    ∃ after, (addReturns ⟨2⟩ ⟨0⟩).Yields callWithReturns 3 after ∧
      callWithReturns.ExtendsReturns (callWithReturns.returnsInto ⟨0⟩ ⟨2⟩ ⟨1⟩) ⟨1⟩ after ∧
      (callWithReturns.returnsInto ⟨0⟩ ⟨2⟩ ⟨1⟩).ncard = 3 := by
  have callers : callWithReturns.CallersComplete := fun _ node known =>
    (by decide : ∀ node ∈ callWithReturns.nodes.toList,
      node.flags.callsSubroutine = true → 2 ≤ node.edges.length) node (mem_nodes_of_known known)
  have exclusive : callWithReturns.Exclusive := fun _ node known =>
    (by decide : ∀ node ∈ callWithReturns.nodes.toList,
      node.flags.callsSubroutine = true → node.flags.endsSubroutine = false) node
      (mem_nodes_of_known known)
  obtain ⟨node, known, calls, begins⟩ : ∃ node, callWithReturns.node? ⟨0⟩ = some node ∧
      node.flags.callsSubroutine = true ∧ node.edges.head? = some ⟨.jump 0, ⟨1⟩⟩ :=
    ⟨_, rfl, rfl, rfl⟩
  obtain ⟨after, yields, extended, -⟩ := addReturns_extends_returns callers exclusive known calls
    begins fun _ into =>
      into.isSome (show (callWithReturns.node? ⟨2⟩).isSome from rfl) rfl (by decide)
  have three : ((addReturns ⟨2⟩ ⟨0⟩).run callWithReturns).answer = .ok 3 := by decide +kernel
  have size := Except.ok.inj (yields.1.symm.trans three)
  exact ⟨after, size ▸ yields, extended, size⟩

end FlowGraph

end MethodBody
