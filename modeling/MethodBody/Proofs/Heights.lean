import MethodBody.Proofs.Exploration
import MethodBody.Proofs.Layout

/-!
# Stack heights of blocks

Computing the maximum is a walk from the first block, whose heights are recorded and whose largest
one is the answer (`run_computeMaxStack`). If all ways into a block agree on the stack height at its
start, then the maximum is no less than the largest height in any block that the first one reaches
(`le_of_computeMaxStack`).
-/

namespace MethodBody

namespace FlowGraph

/-- An edge leads from one block to another. -/
def Leads (graph : FlowGraph) (block next : Label) : Prop :=
  ∃ edge ∈ graph.edgesOf block, edge.successor = next

/-- The first block reaches the block along edges. -/
def Reachable (graph : FlowGraph) (block : Label) : Prop :=
  ∃ first, graph.firstBlock? = some first ∧ Relation.ReflTransGen graph.Leads first block

/-- All ways from the first block into a block agree on the stack height at its start. -/
structure HasHeights (graph : FlowGraph) (height : Label → Int32) : Prop where
  /-- The first block starts with nothing on the stack. -/
  first : ∀ first, graph.firstBlock? = some first → height first = 0
  /-- Each edge leads to the height at the start of its successor. -/
  edges : ∀ block, graph.Reachable block → ∀ edge ∈ graph.edgesOf block,
    height edge.successor = edge.entryHeight (height block)

/-- The graphs have the same blocks, edges and peaks. -/
structure SameFlow (before after : FlowGraph) : Prop where
  /-- The blocks are the same. -/
  blocks : after.blocks = before.blocks
  /-- The edges are the same. -/
  edges : after.edgesOf = before.edgesOf
  /-- The peaks are the same. -/
  peaks : after.peakOf = before.peakOf

variable {graph after : FlowGraph} {height : Label → Int32} {block : Label} {bound : Nat}

/-- The largest height in a block is its peak on top of the height that it is entered with. -/
theorem peak_eq (graph : FlowGraph) (arrival : Arrival) :
    graph.peak arrival = arrival.height + graph.peakOf arrival.block := by
  rw [FlowGraph.peak, peakOf]
  cases graph.node? arrival.block with
  | none => exact (Int32.add_zero _).symm
  | some node => rfl

/-- Without blocks the maximum is zero. -/
theorem run_computeMaxStack_of_none (empty : graph.firstBlock? = none) :
    computeMaxStack.run graph = ⟨.ok 0, graph, []⟩ := by
  simp [computeMaxStack, empty]

section Run

variable {first : Label} {most : Nat} (begins : graph.firstBlock? = some first)

include begins

/-- A first block that does not exist is refused. -/
theorem run_computeMaxStack_of_unknown (unknown : graph.node? first = none) :
    computeMaxStack.run graph = ⟨.error (.unknownLabel first), graph, []⟩ := by
  simp [computeMaxStack, begins, getNode, FlowGraph.node, unknown]

/-- Computing the maximum walks from the first block and records the heights of all blocks that were
entered. It fails where the walk does. -/
theorem run_computeMaxStack (known : (graph.node? first).isSome) :
    computeMaxStack.run graph =
      let sweep := graph.heightWalk.run ⟨first, 0⟩
      let recorded := sweep.entered.foldl reach graph
      let highest := (sweep.visited.map recorded.peak).foldl max 0
      match sweep.failure with
      | some cause => ⟨.error cause, recorded, []⟩
      | none => ⟨.ok highest.toNatClampNeg, recorded, [.maxStack highest]⟩ := by
  obtain ⟨node, found⟩ := Option.isSome_iff_exists.mp known
  simp only [computeMaxStack, Action.run_bind, Action.run_inspect, Outcome.andThen_ok, begins,
    Outcome.after_nil, getNode, Action.run_read, node_of_known found, Action.run_modify]
  cases (graph.heightWalk.run ⟨first, 0⟩).failure <;> rfl

/-- The maximum is computed if the walk from the first block does not end early, and that walk says
what it is. -/
theorem yields_computeMaxStack_iff : computeMaxStack.Yields graph most after ↔
    (graph.node? first).isSome ∧ (graph.heightWalk.run ⟨first, 0⟩).failure = none ∧
      (graph.heightWalk.run ⟨first, 0⟩).entered.foldl reach graph = after ∧
      (((graph.heightWalk.run ⟨first, 0⟩).visited.map after.peak).foldl max 0).toNatClampNeg
        = most := by
  by_cases known : (graph.node? first).isSome
  · rw [Action.Yields, run_computeMaxStack begins known]
    simp only [known, true_and]
    cases (graph.heightWalk.run ⟨first, 0⟩).failure with
    | some cause => simp
    | none =>
      simp only [Except.ok.injEq, true_and]
      constructor
      · rintro ⟨rfl, rfl⟩
        exact ⟨rfl, rfl⟩
      · rintro ⟨rfl, rfl⟩
        exact ⟨rfl, rfl⟩
  · have unknown := Option.not_isSome_iff_eq_none.mp known
    rw [Action.Yields, run_computeMaxStack_of_unknown begins unknown]
    simp [unknown]

end Run

/-- What a reachable block leads to is reachable. -/
theorem Reachable.tail (reachable : graph.Reachable block) {edge : Edge}
    (member : edge ∈ graph.edgesOf block) : graph.Reachable edge.successor := by
  obtain ⟨first, found, reached⟩ := reachable
  exact ⟨first, found, reached.tail ⟨edge, member, rfl⟩⟩

/-- Recording heights keeps the flow. -/
theorem sameFlow_reach (arrivals : List Arrival) (graph : FlowGraph) :
    SameFlow graph (arrivals.foldl reach graph) := by
  induction arrivals generalizing graph with
  | nil => exact ⟨rfl, rfl, rfl⟩
  | cons arrival rest ih =>
    obtain ⟨blocks, edges, peaks⟩ := ih (graph.reach arrival)
    exact ⟨blocks, edges.trans (edgesOf_update _ _ fun _ => rfl),
      peaks.trans (peakOf_update _ _ fun _ => rfl)⟩

/-- The items of a list are no larger than their maximum, whatever that starts with. -/
theorem le_foldl_max {items : List Int32} {item start : Int32} (member : item ∈ start :: items) :
    item ≤ items.foldl max start := by
  induction items generalizing item start with
  | nil => exact le_of_eq (by simpa using member)
  | cons first rest ih =>
    have both : max start first ≤ rest.foldl max (max start first) := ih List.mem_cons_self
    rw [List.foldl_cons]
    rcases List.mem_cons.mp member with rfl | later
    · exact (le_max_left _ _).trans both
    · rcases List.mem_cons.mp later with rfl | later
      · exact (le_max_right _ _).trans both
      · exact ih (List.mem_cons_of_mem _ later)

/-- An arrival leads along the edges of its block, if that calls no subroutine. -/
theorem next_heightWalk {arrival : Arrival} {items : List Arrival}
    (plain : ∀ label node, graph.node? label = some node → node.flags.callsSubroutine = false)
    (found : graph.heightWalk.next arrival = .ok items) :
    items = (graph.edgesOf arrival.block).map fun edge =>
      ⟨edge.successor, edge.entryHeight arrival.height⟩ := by
  change graph.node arrival.block >>= (fun node => .ok (node.departures arrival)) = .ok items
    at found
  unfold node at found
  cases known : graph.node? arrival.block with
  | none => simp [known, bind, Except.bind] at found
  | some node =>
    rw [known] at found
    obtain rfl := Except.ok.inj found
    simp [Node.departures, Node.flowEdges, plain _ _ known, edgesOf, known]

/-- No block is visited with less than nothing on the stack. -/
theorem nonnegative_of_visited {first : Label} {sweep : Sweep Arrival} {arrival : Arrival}
    (explores : graph.heightWalk.Explores ⟨first, 0⟩ sweep) (visited : arrival ∈ sweep.visited) :
    0 ≤ arrival.height := by
  rcases explores.accepted arrival visited with rfl | accepted
  · exact le_rfl
  · by_contra below
    simp [heightWalk, not_le.mp below] at accepted

/-- A walk over the heights comes to each block with its height. -/
theorem height_of_reaches {first : Label} {arrival : Arrival}
    (plain : ∀ label node, graph.node? label = some node → node.flags.callsSubroutine = false)
    (heights : graph.HasHeights height) (begins : graph.firstBlock? = some first)
    (reached : graph.heightWalk.Reaches ⟨first, 0⟩ arrival) :
    graph.Reachable arrival.block ∧ arrival.height = height arrival.block := by
  induction reached with
  | refl => exact ⟨⟨first, begins, .refl⟩, (heights.first first begins).symm⟩
  | @tail before after _ leads ih =>
    obtain ⟨items, found, follows⟩ := leads
    obtain rfl := next_heightWalk plain found
    obtain ⟨edge, member, rfl⟩ := List.mem_map.mp follows
    refine ⟨ih.1.tail member, ?_⟩
    simp only [ih.2, heights.edges before.block ih.1 edge member]

/-- A walk over the heights comes to each block that the first one reaches. -/
theorem exists_visited {first : Label} {sweep : Sweep Arrival}
    (plain : ∀ label node, graph.node? label = some node → node.flags.callsSubroutine = false)
    (explores : graph.heightWalk.Explores ⟨first, 0⟩ sweep)
    (reached : Relation.ReflTransGen graph.Leads first block) :
    ∃ arrival ∈ sweep.visited, arrival.block = block := by
  induction reached with
  | refl => exact ⟨_, explores.begins, rfl⟩
  | tail _ leads ih =>
    obtain ⟨edge, member, rfl⟩ := leads
    obtain ⟨arrival, visited, rfl⟩ := ih
    obtain ⟨items, found, closed⟩ := explores.closed arrival visited
    obtain rfl := next_heightWalk plain found
    exact closed _ (List.mem_map.mpr ⟨edge, member, rfl⟩)

/-- Computing the maximum keeps the flow. No block that the first one reaches starts with less than
nothing on the stack, and the maximum is no less than the largest height in any of them. -/
theorem le_of_computeMaxStack (yields : computeMaxStack.Yields graph bound after)
    (plain : ∀ label node, graph.node? label = some node → node.flags.callsSubroutine = false) :
    SameFlow graph after ∧ ∀ height, graph.HasHeights height → ∀ block, graph.Reachable block →
      0 ≤ height block ∧ (height block + graph.peakOf block).toInt ≤ bound := by
  cases begins : graph.firstBlock? with
  | none =>
    obtain rfl : graph = after := by
      simpa only [run_computeMaxStack_of_none begins] using yields.2
    refine ⟨⟨rfl, rfl, rfl⟩, fun _ _ block reachable => ?_⟩
    obtain ⟨first, found, _⟩ := reachable
    simp [begins] at found
  | some first =>
    obtain ⟨-, complete, recorded, counts⟩ := (yields_computeMaxStack_iff begins).mp yields
    have explores := Walk.explores_run complete
    have same : SameFlow graph after := recorded ▸ sameFlow_reach _ graph
    refine ⟨same, fun height heights block reachable => ?_⟩
    obtain ⟨other, found, reached⟩ := reachable
    obtain rfl := Option.some.inj (begins.symm.trans found)
    obtain ⟨arrival, visited, rfl⟩ := exists_visited plain explores reached
    have agrees := (height_of_reaches plain heights begins (explores.reached arrival visited)).2
    have counted : after.peak arrival
        ∈ (graph.heightWalk.run ⟨first, 0⟩).visited.map after.peak :=
      List.mem_map_of_mem visited
    have most := le_foldl_max (List.mem_cons_of_mem 0 counted)
    rw [peak_eq, same.peaks, agrees] at most
    rw [← counts]
    exact ⟨agrees ▸ nonnegative_of_visited explores visited,
      (Int32.le_iff_toInt_le.mp most).trans (Int.self_le_toNat _)⟩

end FlowGraph

end MethodBody
