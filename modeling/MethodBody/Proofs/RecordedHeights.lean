import MethodBody.Proofs.Heights
import MethodBody.Proofs.Routes
import Mathlib.Order.Bounds.Basic

/-!
# The heights that are recorded

Computing the maximum visits each block once, with the height of the first way into it that is
found. So it records one height at each block that the first one reaches, which comes along an edge
from another such block, and the maximum is taken over those blocks (`RecordsHeights`). If all ways
into blocks agree, those are the heights they agree on, and the computation does not fail. If it
refuses a block, then some way leads into the block with less than nothing on the stack
(`computeMaxStack_records`).
-/

namespace MethodBody

namespace Node

/-- A block that is reached with a height at its start. -/
def reachedAt (node : Node) (height : Int32) : Node :=
  { node with inputHeight := height, flags.reachable := true }

/-- What is known about a block, besides the height at its start and whether it is reached. -/
def unreached (node : Node) : Node :=
  { node with inputHeight := 0, flags.reachable := false }

end Node

namespace FlowGraph

variable {graph after : FlowGraph} {first label block : Label} {arrivals : List Arrival}
  {arrival next : Arrival} {sweep : Sweep Arrival} {height : Label → Int32} {most : Nat}

/-- The block is flagged as reached. -/
def IsFlagged (graph : FlowGraph) (label : Label) : Prop :=
  ∃ node, graph.node? label = some node ∧ node.flags.reachable = true

/-- The stack height that is recorded at the start of a block. -/
def inputOf (graph : FlowGraph) (label : Label) : Int32 :=
  (graph.node? label).elim 0 (·.inputHeight)

/-- Control passes from one arrival to another along an edge, other than from a call to its
continuation. -/
def Carries (graph : FlowGraph) (arrival next : Arrival) : Prop :=
  ∃ edge, graph.LeavesBut 0 arrival.block edge ∧
    next = ⟨edge.successor, edge.entryHeight arrival.height⟩

/-- A height is recorded at each block that the first one reaches, the maximum is taken over those
blocks, and nothing else has changed. -/
structure RecordsHeights (before : FlowGraph) (first : Label) (most : Nat) (after : FlowGraph) :
    Prop where
  /-- The blocks that are flagged are those that the first one reaches. -/
  flagged : ∀ label, after.IsFlagged label ↔ before.ReachesBut 0 first label
  /-- The first block starts with nothing on the stack. -/
  start : after.inputOf first = 0
  /-- Any other flagged block starts with what comes along an edge from a flagged block. -/
  entered : ∀ block, after.IsFlagged block → block ≠ first → 0 ≤ after.inputOf block ∧
    ∃ source edge, after.IsFlagged source ∧ before.LeavesBut 0 source edge ∧
      edge.successor = block ∧ after.inputOf block = edge.entryHeight (after.inputOf source)
  /-- The blocks are the same. -/
  blocks : after.blocks = before.blocks
  /-- What is known about a label that is not flagged is the same. -/
  others : ∀ label, ¬after.IsFlagged label → after.node? label = before.node? label
  /-- What is known about any label is the same, besides the height and the flag. -/
  frame : ∀ label, (after.node? label).map Node.unreached = (before.node? label).map Node.unreached
  /-- The maximum is the largest height in a flagged block, or zero. -/
  greatest : IsGreatest (insert 0 {height | ∃ block, after.IsFlagged block ∧
    height = (after.inputOf block + after.peakOf block).toInt}) (most : Int)

/-- All ways from the first block into a block agree on the stack height at its start, which is
never less than nothing. -/
structure AgreesOn (graph : FlowGraph) (first : Label) (height : Label → Int32) : Prop where
  /-- The first block starts with nothing on the stack. -/
  start : height first = 0
  /-- Each edge leads to the height at the start of its successor. -/
  edges : ∀ block edge, graph.ReachesBut 0 first block → graph.LeavesBut 0 block edge →
    height edge.successor = edge.entryHeight (height block)
  /-- No block starts with less than nothing on the stack. -/
  nonnegative : ∀ block, graph.ReachesBut 0 first block → 0 ≤ height block

section Walk

/-- The walk over the heights goes on where control passes. -/
theorem leads_heightWalk_iff :
    graph.heightWalk.Leads arrival next ↔ graph.Carries arrival next := by
  cases known : graph.node? arrival.block with
  | none =>
    simp [Walk.Leads, Walk.next, heightWalk, Carries, LeavesBut, FlowGraph.node, known, bind,
      Except.bind]
  | some node =>
    have step : graph.heightWalk.next arrival = .ok (node.departures arrival) := by
      simp [Walk.next, heightWalk, FlowGraph.node, known, bind, Except.bind]
    simp only [Walk.Leads, step, Except.ok.injEq, exists_eq_left', Node.departures, List.mem_map,
      Node.mem_flowEdges_iff, Carries, leavesBut_iff_of_known known]
    exact exists_congr fun edge => and_congr_right' eq_comm

/-- The walk over the heights comes to where control gets. -/
theorem reaches_heightWalk_iff :
    graph.heightWalk.Reaches arrival next ↔ Relation.ReflTransGen graph.Carries arrival next := by
  have same : graph.heightWalk.Leads = graph.Carries := by
    funext arrival next
    exact propext leads_heightWalk_iff
  rw [Walk.Reaches, same]

/-- Where control gets with some height it gets. -/
theorem reachesBut_of_carries (path : Relation.ReflTransGen graph.Carries arrival next) :
    graph.ReachesBut 0 arrival.block next.block := by
  refine path.lift Arrival.block fun before after carries => ?_
  obtain ⟨edge, leaves, rfl⟩ := carries
  exact ⟨edge, leaves, rfl⟩

/-- If all ways agree, control gets to each block with the height they agree on. -/
theorem AgreesOn.eq_height (agrees : graph.AgreesOn first height)
    (path : Relation.ReflTransGen graph.Carries ⟨first, 0⟩ arrival) :
    arrival.height = height arrival.block := by
  induction path with
  | refl => exact agrees.start.symm
  | @tail before after path carries ih =>
    obtain ⟨edge, leaves, rfl⟩ := carries
    rw [ih, agrees.edges before.block edge (reachesBut_of_carries path) leaves]

/-- A walk over the heights is refused an arrival with less than nothing on the stack, and a label
that does not exist. -/
theorem refusal_heightWalk_eq_some {cause : Error}
    (refused : graph.heightWalk.refusal arrival = some cause) :
    arrival.height < 0 ∧ cause = .stackUnderflow arrival.block ∨
      graph.node? arrival.block = none ∧ cause = .unknownLabel arrival.block := by
  simp only [heightWalk] at refused
  split at refused
  · rename_i below
    exact .inl ⟨below, (Option.some.inj refused).symm⟩
  · split at refused
    · rename_i unknown
      exact .inr ⟨Option.isNone_iff_eq_none.mp unknown, (Option.some.inj refused).symm⟩
    · simp at refused

/-- A walk over the heights leaves every known block. -/
theorem next_heightWalk_eq_error {cause : Error}
    (failed : graph.heightWalk.next arrival = .error cause) :
    graph.node? arrival.block = none ∧ cause = .unknownLabel arrival.block := by
  rcases Walk.next_eq_error failed with unknown | ⟨node, _, refused⟩
  · exact unknown
  · simp [heightWalk] at refused

/-- A block that was visited is known. -/
theorem exists_known (explores : graph.heightWalk.Explores ⟨first, 0⟩ sweep)
    (visited : arrival ∈ sweep.visited) : ∃ node, graph.node? arrival.block = some node := by
  obtain ⟨items, found, -⟩ := explores.closed arrival visited
  obtain ⟨node, is, -⟩ := bind_eq_ok.mp found
  exact ⟨node, known_of_node is⟩

/-- The blocks that are visited are those that the first one reaches. -/
theorem exists_visited_iff (explores : graph.heightWalk.Explores ⟨first, 0⟩ sweep) :
    (∃ arrival ∈ sweep.visited, arrival.block = block) ↔ graph.ReachesBut 0 first block := by
  constructor
  · rintro ⟨arrival, visited, rfl⟩
    exact reachesBut_of_carries (reaches_heightWalk_iff.mp (explores.reached arrival visited))
  · intro path
    induction path with
    | refl => exact ⟨_, explores.begins, rfl⟩
    | tail _ leads ih =>
      obtain ⟨edge, leaves, rfl⟩ := leads
      obtain ⟨arrival, visited, rfl⟩ := ih
      obtain ⟨items, found, closed⟩ := explores.closed arrival visited
      obtain ⟨others, foundToo, follows⟩ := leads_heightWalk_iff.mpr ⟨edge, leaves, rfl⟩
      obtain rfl := Except.ok.inj (found.symm.trans foundToo)
      exact closed _ follows

/-- If all ways into blocks agree, only a label that does not exist can end the walk early. -/
theorem AgreesOn.failure_eq_none (agrees : graph.AgreesOn first height)
    (known : ∀ block, graph.ReachesBut 0 first block → (graph.node? block).isSome) :
    (graph.heightWalk.run ⟨first, 0⟩).failure = none := by
  by_contra failed
  obtain ⟨cause, failed⟩ := Option.ne_none_iff_exists'.mp failed
  obtain ⟨arrival, reached, ended⟩ := Walk.exists_of_failure_run failed
  have path := reaches_heightWalk_iff.mp reached
  have block := reachesBut_of_carries path
  have unknown : graph.node? arrival.block = none := by
    rcases ended with stuck | refused
    · exact (next_heightWalk_eq_error stuck).1
    · rcases refusal_heightWalk_eq_some refused with ⟨below, -⟩ | ⟨unknown, -⟩
      · have least := agrees.nonnegative arrival.block block
        rw [← agrees.eq_height path] at least
        exact absurd below least.not_gt
      · exact unknown
  simpa [unknown] using known arrival.block block

end Walk

section Record

/-- Recording heights at other blocks leaves a label alone. -/
theorem node?_foldl_reach_of_ne (others : ∀ arrival ∈ arrivals, arrival.block ≠ label) :
    (arrivals.foldl reach graph).node? label = graph.node? label := by
  induction arrivals generalizing graph with
  | nil => rfl
  | cons arrival rest ih =>
    rw [List.foldl_cons, ih fun other member => others other (List.mem_cons_of_mem _ member), reach,
      node?_update, if_neg (others arrival List.mem_cons_self)]

/-- Each height is recorded at its block, if no block has two of them. -/
theorem node?_foldl_reach_of_mem (distinct : (arrivals.map Arrival.block).Nodup)
    (member : arrival ∈ arrivals) : (arrivals.foldl reach graph).node? arrival.block =
      (graph.node? arrival.block).map (·.reachedAt arrival.height) := by
  induction arrivals generalizing graph with
  | nil => simp at member
  | cons other rest ih =>
    rw [List.map_cons, List.nodup_cons] at distinct
    rw [List.foldl_cons]
    rcases List.mem_cons.mp member with rfl | later
    · rw [node?_foldl_reach_of_ne, reach, node?_update, if_pos rfl]
      · rfl
      · exact fun other member same => distinct.1 (List.mem_map.mpr ⟨other, member, same⟩)
    · have apart : other.block ≠ arrival.block := fun same =>
        distinct.1 (List.mem_map.mpr ⟨arrival, later, same.symm⟩)
      rw [ih distinct.2 later, reach, node?_update, if_neg apart]

/-- The maximum of a list is one of its items, or what it starts with. -/
theorem foldl_max_mem (items : List Int32) (start : Int32) :
    items.foldl max start ∈ start :: items := by
  induction items generalizing start with
  | nil => exact List.mem_cons_self
  | cons item rest ih =>
    rw [List.foldl_cons]
    rcases List.mem_cons.mp (ih (max start item)) with same | later
    · rw [same]
      rcases le_total start item with below | above
      · rw [max_eq_right below]
        exact List.mem_cons_of_mem _ List.mem_cons_self
      · rw [max_eq_left above]
        exact List.mem_cons_self
    · exact List.mem_cons_of_mem _ (List.mem_cons_of_mem _ later)

/-- The height of an arrival is recorded at its block, whatever was recorded there before. -/
theorem inputOf_foldl_reach (distinct : (arrivals.map Arrival.block).Nodup)
    (member : arrival ∈ arrivals) (known : (graph.node? arrival.block).isSome) :
    (arrivals.foldl reach graph).inputOf arrival.block = arrival.height := by
  obtain ⟨node, found⟩ := Option.isSome_iff_exists.mp known
  rw [inputOf, node?_foldl_reach_of_mem distinct member, found]
  rfl

/-- A block where a height is recorded counts with that height. -/
theorem peak_foldl_reach (distinct : (arrivals.map Arrival.block).Nodup)
    (member : arrival ∈ arrivals) (known : (graph.node? arrival.block).isSome) :
    (arrivals.foldl reach graph).peak arrival = (arrivals.foldl reach graph).inputOf arrival.block
      + (arrivals.foldl reach graph).peakOf arrival.block := by
  rw [inputOf_foldl_reach distinct member known, peak_eq]

/-- The blocks where heights are recorded are flagged, and no others are. -/
theorem isFlagged_foldl_reach_iff (distinct : (arrivals.map Arrival.block).Nodup)
    (known : ∀ arrival ∈ arrivals, (graph.node? arrival.block).isSome)
    (fresh : ∀ label, ¬graph.IsFlagged label) :
    (arrivals.foldl reach graph).IsFlagged label ↔ ∃ arrival ∈ arrivals, arrival.block = label := by
  constructor
  · rintro ⟨node, found, reached⟩
    by_contra other
    rw [node?_foldl_reach_of_ne fun arrival member same => other ⟨arrival, member, same⟩] at found
    exact fresh label ⟨node, found, reached⟩
  · rintro ⟨arrival, member, rfl⟩
    obtain ⟨node, found⟩ := Option.isSome_iff_exists.mp (known arrival member)
    exact ⟨_, by rw [node?_foldl_reach_of_mem distinct member, found, Option.map_some], rfl⟩

/-- Recording heights changes nothing about a label besides the height and the flag. -/
theorem map_unreached_foldl_reach (arrivals : List Arrival) (graph : FlowGraph) (label : Label) :
    ((arrivals.foldl reach graph).node? label).map Node.unreached
      = (graph.node? label).map Node.unreached := by
  induction arrivals generalizing graph with
  | nil => rfl
  | cons arrival rest ih =>
    rw [List.foldl_cons, ih, reach, node?_update]
    split
    · rw [Option.map_map]
      rfl
    · rfl

/-- The maximum of a list, and zero, is the greatest of them. -/
theorem isGreatest_foldl_max (items : List Int32) :
    IsGreatest (insert 0 {height | ∃ item ∈ items, height = item.toInt})
      (items.foldl max 0).toInt := by
  constructor
  · rcases List.mem_cons.mp (foldl_max_mem items 0) with same | member
    · exact .inl (congrArg Int32.toInt same)
    · exact .inr ⟨_, member, rfl⟩
  · rintro height (rfl | ⟨item, member, rfl⟩)
    · exact Int32.le_iff_toInt_le.mp (le_foldl_max List.mem_cons_self)
    · exact Int32.le_iff_toInt_le.mp (le_foldl_max (List.mem_cons_of_mem 0 member))

/-- Heights are recorded at the blocks of a walk that did not end early. -/
theorem recordsHeights_of_explores (explores : graph.heightWalk.Explores ⟨first, 0⟩ sweep)
    (traced : graph.heightWalk.Traced ⟨first, 0⟩ sweep.visited sweep.visited)
    (fresh : ∀ label, ¬graph.IsFlagged label)
    (is : sweep.visited.foldl reach graph = after)
    (counts : ((sweep.visited.map after.peak).foldl max 0).toNatClampNeg = most) :
    graph.RecordsHeights first most after := by
  have known (arrival : Arrival) (visited : arrival ∈ sweep.visited) :
      (graph.node? arrival.block).isSome :=
        Option.isSome_iff_exists.mpr (exists_known explores visited)
  have input (arrival : Arrival) (visited : arrival ∈ sweep.visited) :
      after.inputOf arrival.block = arrival.height :=
    is ▸ inputOf_foldl_reach explores.distinct visited (known arrival visited)
  have exactly (label : Label) :
      after.IsFlagged label ↔ ∃ arrival ∈ sweep.visited, arrival.block = label :=
    is ▸ isFlagged_foldl_reach_iff explores.distinct known fresh
  constructor
  case flagged => exact fun label => (exactly label).trans (exists_visited_iff explores)
  case start => exact input _ explores.begins
  case entered =>
    intro block flagged other
    obtain ⟨arrival, visited, rfl⟩ := (exactly block).mp flagged
    refine ⟨(input arrival visited).symm ▸ nonnegative_of_visited explores visited, ?_⟩
    rcases traced arrival visited with rfl | ⟨source, before, leads⟩
    · exact absurd rfl other
    · obtain ⟨edge, leaves, rfl⟩ := leads_heightWalk_iff.mp leads
      refine ⟨source.block, edge, (exactly _).mpr ⟨source, before, rfl⟩, leaves, rfl, ?_⟩
      rw [input source before]
      exact input _ visited
  case blocks => exact is ▸ (sameFlow_reach sweep.visited graph).blocks
  case others =>
    intro label unflagged
    rw [← is]
    exact node?_foldl_reach_of_ne fun arrival visited same =>
      unflagged ((exactly label).mpr ⟨arrival, visited, same⟩)
  case frame => exact is ▸ map_unreached_foldl_reach sweep.visited graph
  case greatest =>
    have heights : {height | ∃ block, after.IsFlagged block ∧
          height = (after.inputOf block + after.peakOf block).toInt}
        = {height | ∃ item ∈ sweep.visited.map after.peak, height = item.toInt} := by
      have peak (arrival : Arrival) (visited : arrival ∈ sweep.visited) :
          after.peak arrival = after.inputOf arrival.block + after.peakOf arrival.block :=
        is ▸ peak_foldl_reach explores.distinct visited (known arrival visited)
      refine Set.ext fun height => ⟨?_, fun member => ?_⟩
      · rintro ⟨block, flagged, rfl⟩
        obtain ⟨arrival, visited, rfl⟩ := (exactly block).mp flagged
        exact ⟨_, List.mem_map_of_mem visited, congrArg Int32.toInt (peak arrival visited).symm⟩
      · obtain ⟨item, counted, rfl⟩ := member
        obtain ⟨arrival, visited, rfl⟩ := List.mem_map.mp counted
        exact ⟨_, (exactly _).mpr ⟨arrival, visited, rfl⟩,
          congrArg Int32.toInt (peak arrival visited)⟩
    rw [← counts, heights, ← Int32.toInt_eq_toNatClampNeg (le_foldl_max List.mem_cons_self)]
    exact isGreatest_foldl_max _

end Record

section Run

variable (begins : graph.firstBlock? = some first)

include begins

/-- The height that is recorded at a block is the one that all ways into it agree on. -/
theorem AgreesOn.inputOf_eq (agrees : graph.AgreesOn first height)
    (yields : computeMaxStack.Yields graph most after) (reached : graph.ReachesBut 0 first block) :
    after.inputOf block = height block := by
  obtain ⟨-, complete, is, -⟩ := (yields_computeMaxStack_iff begins).mp yields
  have explores := Walk.explores_run complete
  rw [Sweep.entered, explores.pending, List.append_nil] at is
  obtain ⟨arrival, visited, rfl⟩ := (exists_visited_iff explores).mpr reached
  have known := Option.isSome_iff_exists.mpr (exists_known explores visited)
  have path := reaches_heightWalk_iff.mp (explores.reached arrival visited)
  rw [← agrees.eq_height path, ← is]
  exact inputOf_foldl_reach explores.distinct visited known

/-- Computing the maximum records one height at each block that the first one reaches, and takes the
maximum over those blocks. It succeeds if all ways into blocks agree on heights and lead to labels
that exist, and then it records those heights. If it refuses a block, some way leads into the block
with less than nothing on the stack. -/
theorem computeMaxStack_records :
    (∀ most after, (∀ label, ¬graph.IsFlagged label) → computeMaxStack.Yields graph most after →
      graph.RecordsHeights first most after) ∧
    (∀ height, graph.AgreesOn first height →
      ((∃ most after, computeMaxStack.Yields graph most after) ↔
        ∀ block, graph.ReachesBut 0 first block → (graph.node? block).isSome) ∧
      ∀ most after, computeMaxStack.Yields graph most after →
        ∀ block, graph.ReachesBut 0 first block → after.inputOf block = height block) ∧
    ∀ block, (computeMaxStack.run graph).answer = .error (.stackUnderflow block) →
      ∃ height < 0, Relation.ReflTransGen graph.Carries ⟨first, 0⟩ ⟨block, height⟩ := by
  refine ⟨fun most after fresh yields => ?_, fun height agrees => ⟨⟨?_, fun known => ?_⟩, ?_⟩,
    fun block refused => ?_⟩
  · obtain ⟨-, complete, is, counts⟩ := (yields_computeMaxStack_iff begins).mp yields
    have explores := Walk.explores_run complete
    rw [Sweep.entered, explores.pending, List.append_nil] at is
    exact recordsHeights_of_explores explores (Walk.traced_run complete) fresh is counts
  · rintro ⟨most, after, yields⟩ block reached
    obtain ⟨-, complete, -⟩ := (yields_computeMaxStack_iff begins).mp yields
    obtain ⟨arrival, visited, rfl⟩ := (exists_visited_iff (Walk.explores_run complete)).mpr reached
    exact Option.isSome_iff_exists.mpr (exists_known (Walk.explores_run complete) visited)
  · have complete := agrees.failure_eq_none known
    exact ⟨_, _, (yields_computeMaxStack_iff begins).mpr ⟨known first .refl, complete, rfl, rfl⟩⟩
  · exact fun most after yields block reached => agrees.inputOf_eq begins yields reached
  · cases known : graph.node? first with
    | none =>
      rw [run_computeMaxStack_of_unknown begins known] at refused
      simp at refused
    | some node =>
      rw [run_computeMaxStack begins (by simp [known])] at refused
      cases failed : (graph.heightWalk.run ⟨first, 0⟩).failure with
      | none => simp [failed] at refused
      | some cause =>
        obtain rfl : cause = .stackUnderflow block := by simpa [failed] using refused
        obtain ⟨⟨other, height⟩, reached, ended⟩ := Walk.exists_of_failure_run failed
        have path := reaches_heightWalk_iff.mp reached
        rcases ended with stuck | refused
        · exact absurd (next_heightWalk_eq_error stuck).2 (by simp)
        · rcases refusal_heightWalk_eq_some refused with ⟨below, same⟩ | ⟨-, same⟩
          · obtain rfl := Error.stackUnderflow.inj same
            exact ⟨height, below, path⟩
          · cases same

end Run

/-- Whether all ways into blocks agree can be seen at each label. -/
theorem AgreesOn.of_forall (start : height first = 0)
    (edges : ∀ index < graph.nodes.size, ∀ node ∈ graph.node? ⟨index⟩, ∀ edge ∈ node.flowEdges,
      height edge.successor = edge.entryHeight (height ⟨index⟩))
    (nonnegative : ∀ label, 0 ≤ height label) : graph.AgreesOn first height where
  start := start
  edges := by
    rintro block edge - ⟨node, known, offers⟩
    have created := (Array.getElem?_eq_some_iff.mp known).1
    exact edges block.index created node known edge (Node.mem_flowEdges_iff.mpr offers)
  nonnegative block _ := nonnegative block

/-- A loop in which a subroutine is called, with a handler for the call and for what follows it. The
last block cannot be reached. -/
def loopedCall : FlowGraph where
  nodes := #[
    { label := ⟨0⟩, peakHeight := 1, edges := [⟨.jump 1, ⟨1⟩⟩] },
    { label := ⟨1⟩, flags.callsSubroutine := true, peakHeight := 1,
      edges := [⟨.jump 1, ⟨2⟩⟩, ⟨.jump 2, ⟨3⟩⟩, ⟨.exception, ⟨4⟩⟩] },
    { label := ⟨2⟩, edges := [⟨.exception, ⟨4⟩⟩, ⟨.jump (-1), ⟨1⟩⟩] },
    { label := ⟨3⟩, flags.endsSubroutine := true, peakHeight := 2, edges := [⟨.jump (-1), ⟨2⟩⟩] },
    { label := ⟨4⟩, peakHeight := 2 },
    { label := ⟨5⟩, peakHeight := 9, edges := [⟨.jump 0, ⟨1⟩⟩] }]
  blocks := #[⟨0⟩, ⟨1⟩, ⟨2⟩, ⟨3⟩, ⟨4⟩, ⟨5⟩]

/-- The stack heights at the start of the blocks of the loop. -/
def loopedHeight : Label → Int32
  | ⟨0⟩ => 0
  | ⟨2⟩ => 2
  | ⟨3⟩ => 3
  | _ => 1

/-- A block that pops what was never pushed, in front of another. -/
def drainedBlock : FlowGraph where
  nodes := #[{ label := ⟨0⟩, edges := [⟨.jump (-1), ⟨1⟩⟩] }, { label := ⟨1⟩ }]
  blocks := #[⟨0⟩, ⟨1⟩]

/-- The largest height in the loop is that of the subroutine, and the block that pops too much leads
to a refusal. -/
theorem computeMaxStack_records_loopedCall :
    (∃ after, computeMaxStack.Yields loopedCall 5 after ∧ loopedCall.RecordsHeights ⟨0⟩ 5 after ∧
      ∀ block, loopedCall.ReachesBut 0 ⟨0⟩ block →
        after.inputOf block = loopedHeight block) ∧
    (computeMaxStack.run drainedBlock).answer = .error (.stackUnderflow ⟨1⟩) ∧
      ∃ height < 0, Relation.ReflTransGen drainedBlock.Carries ⟨⟨0⟩, 0⟩ ⟨⟨1⟩, height⟩ := by
  have fresh (label : Label) : ¬loopedCall.IsFlagged label := by
    rintro ⟨node, known, reached⟩
    have rows : ∀ node ∈ loopedCall.nodes.toList, node.flags.reachable = false := by decide
    simp [rows node (mem_nodes_of_known known)] at reached
  have agrees : loopedCall.AgreesOn ⟨0⟩ loopedHeight := by
    refine .of_forall rfl (by decide) fun block => ?_
    unfold loopedHeight
    split <;> decide
  have yields : computeMaxStack.Yields loopedCall 5 (computeMaxStack.run loopedCall).state :=
    ⟨by decide +kernel, rfl⟩
  have refused : (computeMaxStack.run drainedBlock).answer = .error (.stackUnderflow ⟨1⟩) := by
    decide +kernel
  obtain ⟨records, heights, -⟩ :=
    computeMaxStack_records (show loopedCall.firstBlock? = some ⟨0⟩ from rfl)
  have underflows :=
    (computeMaxStack_records (show drainedBlock.firstBlock? = some ⟨0⟩ from rfl)).2.2
  exact ⟨⟨_, yields, records 5 _ fresh yields, (heights _ agrees).2 5 _ yields⟩, refused,
    underflows ⟨1⟩ refused⟩

end FlowGraph

end MethodBody
