import MethodBody.Proofs.Exploration
import MethodBody.Proofs.Layout
import MethodBody.Proofs.Marking
import Mathlib.Data.List.Perm.Subperm

/-!
# How one call is closed

The walk for a call starts at its entry, goes on where control does without entering a subroutine,
and from each return of another subroutine also to the continuation of the call
(`leads_returnWalk_iff`). Closing the call adds an edge to the continuation to each return that the
walk comes to, and changes nothing else (`closesCall_of_yields`). A block without a call is left as
it is (`eq_of_yields_closeCall`).
-/

namespace MethodBody

namespace Node

variable {node : Node} {subroutine : Option SubroutineId} {continuation : Label}

/-- What is known about a block, besides its edges. -/
def unlinked (node : Node) : Node := { node with edges := [] }

/-- The edge to the continuation is added to the edges and changes nothing else. -/
@[simp]
theorem unlinked_addReturn (node : Node) (subroutine : Option SubroutineId) (continuation : Label) :
    (node.addReturn subroutine continuation).unlinked = node.unlinked := by
  unfold addReturn
  split <;> rfl

/-- The edge to the continuation is added in front of the others. -/
theorem addReturn_of_returnsFromOther (returns : node.returnsFromOther subroutine = true) :
    node.addReturn subroutine continuation
      = node.prepend ⟨.jump node.outputHeight, continuation⟩ := by
  rw [addReturn, if_pos returns]

/-- A block that returns from a subroutine ends with the return. -/
theorem endsSubroutine_of_returnsFromOther (returns : node.returnsFromOther subroutine = true) :
    node.flags.endsSubroutine = true := by
  simp only [returnsFromOther, Bool.and_eq_true] at returns
  exact returns.1

/-- A block that does not call goes on wherever its edges lead. -/
theorem bodySuccessors_of_plain (plain : node.flags.callsSubroutine = false) :
    node.bodySuccessors = .ok (node.edges.map (·.successor)) := by
  rw [bodySuccessors, if_neg (by simp [plain])]

end Node

namespace FlowGraph

/-- Control can pass from one block to another without entering a subroutine. -/
def Flows (graph : FlowGraph) (block next : Label) : Prop :=
  ∃ node labels, graph.node? block = some node ∧ node.bodySuccessors = .ok labels ∧ next ∈ labels

/-- The block calls the subroutine at the entry, which is to return to the continuation. -/
def Calls (graph : FlowGraph) (caller entry continuation : Label) : Prop :=
  ∃ node first second, graph.node? caller = some node ∧ node.callEdges = .ok (first, second) ∧
    first.successor = continuation ∧ second.successor = entry

/-- The subroutine that a block belongs to, if it belongs to one. -/
def subroutineOf (graph : FlowGraph) (label : Label) : Option SubroutineId :=
  (graph.node? label).bind (·.subroutine)

/-- The block ends with a return, from another subroutine than the one that the caller is in. -/
def ReturnsTo (graph : FlowGraph) (caller block : Label) : Prop :=
  ∃ node, graph.node? block = some node ∧
    node.returnsFromOther (graph.subroutineOf caller) = true

/-- The edge along which control returns from a block to a continuation, with its stack as it is. -/
def returnEdge (graph : FlowGraph) (block continuation : Label) : Edge :=
  ⟨.jump ((graph.node? block).elim 0 (·.outputHeight)), continuation⟩

/-- No block both ends with a call and ends with a return. -/
def Exclusive (graph : FlowGraph) : Prop :=
  ∀ label node, graph.node? label = some node → node.flags.callsSubroutine = true →
    node.flags.endsSubroutine = false

/-- Control passes on without entering a subroutine, or returns to the continuation of a call. -/
def FlowsBack (graph : FlowGraph) (caller continuation block next : Label) : Prop :=
  graph.Flows block next ∨ graph.ReturnsTo caller block ∧ next = continuation

/-- The walk for a call comes to the block, and control returns from there. -/
def Gains (graph : FlowGraph) (caller entry continuation block : Label) : Prop :=
  graph.ReturnsTo caller block ∧
    Relation.ReflTransGen (graph.FlowsBack caller continuation) entry block

/-- From a block that does not call, control passes on along the edges. -/
theorem flows_iff_of_plain {graph : FlowGraph} {block next : Label} {node : Node}
    (known : graph.node? block = some node) (plain : node.flags.callsSubroutine = false) :
    graph.Flows block next ↔ next ∈ node.edges.map (·.successor) := by
  have body := Node.bodySuccessors_of_plain plain
  constructor
  · rintro ⟨other, labels, knownToo, follows, member⟩
    obtain rfl := Option.some.inj (known.symm.trans knownToo)
    obtain rfl := Except.ok.inj (body.symm.trans follows)
    exact member
  · exact fun member => ⟨node, _, known, body, member⟩

/-- A call has one entry and one continuation. -/
theorem Calls.unique {graph : FlowGraph} {caller entry continuation otherEntry other : Label}
    (one : graph.Calls caller entry continuation) (two : graph.Calls caller otherEntry other) :
    entry = otherEntry ∧ continuation = other := by
  obtain ⟨node, first, second, known, edges, rfl, rfl⟩ := one
  obtain ⟨same, third, fourth, knownToo, edgesToo, rfl, rfl⟩ := two
  obtain rfl := Option.some.inj (known.symm.trans knownToo)
  obtain ⟨rfl, rfl⟩ := Prod.mk.inj (Except.ok.inj (edges.symm.trans edgesToo))
  exact ⟨rfl, rfl⟩

/-- Only a block that ends with a call has the edges of one. -/
theorem callsSubroutine_of_callEdges {node : Node} {edges : Edge × Edge}
    (found : node.callEdges = .ok edges) : node.flags.callsSubroutine = true := by
  unfold Node.callEdges at found
  split at found
  · assumption
  · simp at found

variable {graph before after : FlowGraph} {caller entry continuation block next : Label}

/-- A block that ends with a return does not end with a call. -/
theorem Exclusive.plain (exclusive : graph.Exclusive) {node : Node}
    (known : graph.node? block = some node) (ends : node.flags.endsSubroutine = true) :
    node.flags.callsSubroutine = false := by
  by_cases calls : node.flags.callsSubroutine = true
  · simp [exclusive block node known calls] at ends
  · simpa using calls

/-- The walk for a call goes on where control does, and to the continuation of the call from the
returns. -/
theorem leads_returnWalk_iff (exclusive : graph.Exclusive) :
    (graph.returnWalk (graph.subroutineOf caller) continuation).Leads block next ↔
      graph.FlowsBack caller continuation block next := by
  cases known : graph.node? block with
  | none =>
    simp [Walk.Leads, Walk.next, returnWalk, FlowsBack, Flows, ReturnsTo, FlowGraph.node, known,
      bind, Except.bind]
  | some node =>
    have step : (graph.returnWalk (graph.subroutineOf caller) continuation).next block
        = (node.addReturn (graph.subroutineOf caller) continuation).bodySuccessors := by
      simp [Walk.next, returnWalk, FlowGraph.node, known, bind, Except.bind]
    simp only [Walk.Leads, step, FlowsBack, Flows, ReturnsTo, known, Option.some.injEq,
      exists_eq_left', exists_and_left]
    by_cases returns : node.returnsFromOther (graph.subroutineOf caller) = true
    · have plain := exclusive.plain known (Node.endsSubroutine_of_returnsFromOther returns)
      have longer : (node.prepend ⟨.jump node.outputHeight, continuation⟩).flags.callsSubroutine
          = false := plain
      rw [Node.addReturn_of_returnsFromOther returns, Node.bodySuccessors_of_plain longer,
        Node.bodySuccessors_of_plain plain]
      simp only [Except.ok.injEq, Node.prepend, List.map_cons, exists_eq_left',
        List.mem_cons, returns, true_and]
      exact Or.comm
    · rw [Node.addReturn, if_neg returns]
      simp [returns]

/-- A change of each label of a list, in which no label stands twice. -/
theorem node?_updateAll {labels : List Label} (distinct : labels.Nodup) (change : Node → Node)
    (label : Label) : (graph.updateAll labels change).node? label =
      if label ∈ labels then (graph.node? label).map change else graph.node? label := by
  unfold updateAll
  induction labels generalizing graph with
  | nil => simp
  | cons first rest ih =>
    obtain ⟨fresh, others⟩ := List.nodup_cons.mp distinct
    rw [List.foldl_cons, ih others, node?_update]
    by_cases same : first = label
    · subst same
      simp [fresh]
    · have other : label ≠ first := fun equal => same equal.symm
      simp [same, other]

/-- Changing what is known about labels keeps the blocks. -/
@[simp]
theorem blocks_updateAll (graph : FlowGraph) (labels : List Label) (change : Node → Node) :
    (graph.updateAll labels change).blocks = graph.blocks := by
  unfold updateAll
  induction labels generalizing graph with
  | nil => rfl
  | cons first rest ih => rw [List.foldl_cons, ih, blocks_update]

/-- There are no more known labels than were created. -/
theorem length_le_of_known {labels : List Label} (distinct : labels.Nodup)
    (known : ∀ label ∈ labels, (graph.node? label).isSome) : labels.length ≤ graph.nodes.size := by
  have inside : labels ⊆ (List.range graph.nodes.size).map Label.mk := by
    intro label member
    obtain ⟨node, found⟩ := Option.isSome_iff_exists.mp (known label member)
    have created : label.index < graph.nodes.size := (Array.getElem?_eq_some_iff.mp found).1
    exact List.mem_map.mpr ⟨label.index, List.mem_range.mpr created, rfl⟩
  have fewer := (List.Nodup.subperm distinct inside).length_le
  rwa [List.length_map, List.length_range] at fewer

/-- Edges were added to blocks that end with a return, and nothing else has changed. -/
structure AddsReturns (before after : FlowGraph) : Prop where
  /-- What is known about each label is the same, besides its edges. -/
  frame : ∀ label, (after.node? label).map Node.unlinked = (before.node? label).map Node.unlinked
  /-- A block that does not end with a return has the same edges. -/
  kept : ∀ label node, before.node? label = some node → node.flags.endsSubroutine = false →
    after.node? label = some node

namespace AddsReturns

/-- Doing nothing adds no edge. -/
theorem refl (graph : FlowGraph) : AddsReturns graph graph :=
  ⟨fun _ => rfl, fun _ _ known _ => known⟩

/-- Edges can be added in two steps. -/
theorem trans {first second third : FlowGraph} (one : AddsReturns first second)
    (two : AddsReturns second third) : AddsReturns first third where
  frame label := (two.frame label).trans (one.frame label)
  kept label node known plain := two.kept label node (one.kept label node known plain) plain

/-- A known label was known before, and all but its edges was the same. -/
theorem exists_node (adds : AddsReturns before after) {label : Label} {node : Node}
    (known : after.node? label = some node) :
    ∃ old, before.node? label = some old ∧ node = { old with edges := node.edges } := by
  have same := adds.frame label
  rw [known, Option.map_some] at same
  obtain ⟨old, was, equal⟩ := Option.map_eq_some_iff.mp same.symm
  refine ⟨old, was, ?_⟩
  have back : node = { node.unlinked with edges := node.edges } := rfl
  rw [back, ← equal]
  rfl

/-- A known label stays known, and all but its edges stays the same. -/
theorem exists_after (adds : AddsReturns before after) {label : Label} {node : Node}
    (known : before.node? label = some node) :
    ∃ new, after.node? label = some new ∧ new = { node with edges := new.edges } := by
  have same := adds.frame label
  rw [known, Option.map_some] at same
  obtain ⟨new, is, equal⟩ := Option.map_eq_some_iff.mp same
  refine ⟨new, is, ?_⟩
  have back : new = { new.unlinked with edges := new.edges } := rfl
  rw [back, equal]
  rfl

/-- Calls and returns stay apart. -/
theorem exclusive (adds : AddsReturns before after) (exclusive : before.Exclusive) :
    after.Exclusive := by
  intro label node known calls
  obtain ⟨old, was, same⟩ := adds.exists_node known
  rw [same] at calls ⊢
  exact exclusive label old was calls

/-- A block belongs to the subroutine that it belonged to. -/
theorem subroutineOf_eq (adds : AddsReturns before after) (label : Label) :
    after.subroutineOf label = before.subroutineOf label := by
  have same := congrArg (Option.bind · (·.subroutine)) (adds.frame label)
  have drop (node? : Option Node) :
      (node?.map Node.unlinked).bind (·.subroutine) = node?.bind (·.subroutine) := by
    cases node? <;> rfl
  simp only [drop] at same
  exact same

/-- Control returns from the same blocks as before. -/
theorem returnsTo_iff (adds : AddsReturns before after) :
    after.ReturnsTo caller block ↔ before.ReturnsTo caller block := by
  unfold ReturnsTo
  rw [adds.subroutineOf_eq]
  constructor
  · rintro ⟨node, known, returns⟩
    obtain ⟨old, was, same⟩ := adds.exists_node known
    rw [same] at returns
    exact ⟨old, was, returns⟩
  · rintro ⟨node, known, returns⟩
    obtain ⟨new, is, same⟩ := adds.exists_after known
    refine ⟨new, is, ?_⟩
    rw [same]
    exact returns

/-- Control returns with the stack as before. -/
theorem returnEdge_eq (adds : AddsReturns before after) (block continuation : Label) :
    after.returnEdge block continuation = before.returnEdge block continuation := by
  have same := congrArg (Option.elim · 0 Node.outputHeight) (adds.frame block)
  have drop (node? : Option Node) :
      (node?.map Node.unlinked).elim 0 Node.outputHeight = node?.elim 0 Node.outputHeight := by
    cases node? <;> rfl
  simp only [drop] at same
  simp only [returnEdge, same]

/-- A call has the entry and the continuation that it had. -/
theorem calls_iff (adds : AddsReturns before after) (exclusive : before.Exclusive) :
    after.Calls caller entry continuation ↔ before.Calls caller entry continuation := by
  constructor
  · rintro ⟨node, first, second, known, edges, ends⟩
    obtain ⟨old, was, same⟩ := adds.exists_node known
    have calls : old.flags.callsSubroutine = true := by
      have flag := callsSubroutine_of_callEdges edges
      rw [same] at flag
      exact flag
    have still := adds.kept caller old was (exclusive caller old was calls)
    obtain rfl := Option.some.inj (known.symm.trans still)
    exact ⟨node, first, second, was, edges, ends⟩
  · rintro ⟨node, first, second, known, edges, ends⟩
    have calls := callsSubroutine_of_callEdges edges
    exact ⟨node, first, second, adds.kept caller node known (exclusive caller node known calls),
      edges, ends⟩

end AddsReturns

/-- On behalf of a call, an edge to its continuation was added in front of the edges of some blocks,
and nothing else has changed. -/
structure ClosesCall (before after : FlowGraph) (gains : Label → Prop) (continuation : Label) :
    Prop where
  /-- Edges were added to blocks that end with a return. -/
  adds : AddsReturns before after
  /-- The blocks have one more edge. -/
  edges : ∀ block, gains block →
    after.edgesOf block = before.returnEdge block continuation :: before.edgesOf block
  /-- No other block has another edge. -/
  others : ∀ block, ¬gains block → after.edgesOf block = before.edgesOf block
  /-- Control passes on as before, and along the edges that were added. -/
  flows : ∀ block next, after.Flows block next ↔
    before.Flows block next ∨ gains block ∧ next = continuation

/-- The blocks with one more edge can be described in another way. -/
theorem ClosesCall.congr {gains others : Label → Prop}
    (closes : ClosesCall before after gains continuation)
    (same : ∀ block, gains block ↔ others block) : ClosesCall before after others continuation := by
  have equal : gains = others := funext fun block => propext (same block)
  rwa [← equal]

/-- Adding an edge to the continuation to each of some blocks from which control returns. -/
theorem closesCall_updateAll (exclusive : before.Exclusive) {returns : List Label}
    (distinct : returns.Nodup) (back : ∀ block ∈ returns, before.ReturnsTo caller block) :
    ClosesCall before
      (before.updateAll returns (·.addReturn (before.subroutineOf caller) continuation))
      (· ∈ returns) continuation := by
  have found (label : Label) := before.node?_updateAll distinct
    (·.addReturn (before.subroutineOf caller) continuation) label
  generalize before.updateAll returns (·.addReturn (before.subroutineOf caller) continuation)
    = after at found
  have longer (block : Label) (member : block ∈ returns) :
      ∃ node, before.node? block = some node ∧ node.flags.callsSubroutine = false ∧
        after.node? block = some (node.prepend ⟨.jump node.outputHeight, continuation⟩) := by
    obtain ⟨node, known, returned⟩ := back block member
    have ends := Node.endsSubroutine_of_returnsFromOther returned
    refine ⟨node, known, exclusive.plain known ends, ?_⟩
    rw [found, if_pos member, known, Option.map_some,
      Node.addReturn_of_returnsFromOther returned]
  have same (block : Label) (outside : block ∉ returns) :
      after.node? block = before.node? block := by
    rw [found, if_neg outside]
  constructor
  · constructor
    · intro label
      by_cases member : label ∈ returns
      · rw [found, if_pos member, Option.map_map]
        congr 1
        funext node
        exact node.unlinked_addReturn _ _
      · rw [same label member]
    · intro label node known plain
      have outside : label ∉ returns := by
        intro member
        obtain ⟨other, knownToo, returned⟩ := back label member
        obtain rfl := Option.some.inj (known.symm.trans knownToo)
        simp [Node.endsSubroutine_of_returnsFromOther returned] at plain
      rw [same label outside, known]
  · intro block member
    obtain ⟨node, known, _, new⟩ := longer block member
    simp [edgesOf, returnEdge, known, new, Node.prepend]
  · intro block outside
    rw [edgesOf, edgesOf, same block outside]
  · intro block next
    by_cases member : block ∈ returns
    · obtain ⟨node, known, plain, new⟩ := longer block member
      have plainToo : (node.prepend ⟨.jump node.outputHeight, continuation⟩).flags.callsSubroutine
          = false := plain
      rw [flows_iff_of_plain new plainToo, flows_iff_of_plain known plain]
      simp only [Node.prepend, List.map_cons, List.mem_cons, member, true_and]
      exact Or.comm
    · simp only [Flows, same block member, member, false_and, or_false]

/-- The subroutine that a block calls is found at the edges of the call, and nothing changes. -/
theorem of_yields_callee (yields : (callee block).Yields before entry after) :
    before = after ∧ ∃ node first second, before.node? block = some node ∧
      node.callEdges = .ok (first, second) ∧ second.successor = entry := by
  unfold callee at yields
  obtain ⟨⟨first, second⟩, _, read, ended⟩ := Action.yields_bind.mp yields
  obtain ⟨called, rfl⟩ := Action.yields_read.mp read
  obtain ⟨node, found, edges⟩ := bind_eq_ok.mp called
  obtain ⟨rfl, rfl⟩ := Action.yields_pure.mp ended
  exact ⟨rfl, node, first, second, known_of_node found, edges, rfl⟩

/-- A block that ends with no call is left as it is. -/
theorem eq_of_yields_closeCall (yields : (closeCall block).Yields before () after)
    (none : ∀ entry continuation, ¬before.Calls block entry continuation) : after = before := by
  unfold closeCall at yields
  obtain ⟨node, middle, looked, rest⟩ := Action.yields_bind.mp yields
  obtain ⟨known, rfl⟩ := Action.yields_read.mp looked
  split at rest
  · obtain ⟨entry, _, called, _⟩ := Action.yields_bind.mp rest
    obtain ⟨_, caller, first, second, found, edges, _⟩ := of_yields_callee called
    exact absurd ⟨caller, first, second, found, edges, rfl, rfl⟩ (none _ _)
  · exact (Action.yields_pure.mp rest).2.symm

/-- The blocks that the walk for a call comes to, and that return from another subroutine. -/
def returns (graph : FlowGraph) (subroutine : Option SubroutineId) (continuation entry : Label) :
    List Label :=
  ((graph.returnWalk subroutine continuation).run entry).visited.filter fun block =>
    (graph.node? block).any (·.returnsFromOther subroutine)

/-- No block is chosen twice. -/
theorem nodup_returns {subroutine : Option SubroutineId}
    (complete : ((graph.returnWalk subroutine continuation).run entry).failure = none) :
    (graph.returns subroutine continuation entry).Nodup := by
  have labels := (Walk.explores_run complete).distinct
  have same : ((graph.returnWalk subroutine continuation).run entry).visited.map
      (graph.returnWalk subroutine continuation).label
        = ((graph.returnWalk subroutine continuation).run entry).visited := List.map_id _
  rw [same] at labels
  exact labels.filter _

/-- The walk for a call comes to where control gets, returns to the continuation included. -/
theorem mem_visited_returnWalk_iff (exclusive : graph.Exclusive)
    (complete : ((graph.returnWalk (graph.subroutineOf caller) continuation).run entry).failure
      = none) :
    block ∈ ((graph.returnWalk (graph.subroutineOf caller) continuation).run entry).visited ↔
      Relation.ReflTransGen (graph.FlowsBack caller continuation) entry block := by
  have leads : (graph.returnWalk (graph.subroutineOf caller) continuation).Leads
      = graph.FlowsBack caller continuation := by
    funext block next
    exact propext (leads_returnWalk_iff exclusive)
  rw [(Walk.explores_run complete).mem_visited_iff fun _ _ same => same, Walk.Reaches, leads]

/-- The blocks that are chosen are those that gain an edge. -/
theorem mem_returns_iff (exclusive : graph.Exclusive)
    (complete : ((graph.returnWalk (graph.subroutineOf caller) continuation).run entry).failure
      = none) :
    block ∈ graph.returns (graph.subroutineOf caller) continuation entry ↔
      graph.Gains caller entry continuation block := by
  rw [returns, List.mem_filter, mem_visited_returnWalk_iff exclusive complete, Option.any_eq_true,
    Gains, ReturnsTo]
  exact And.comm

/-- Adding the edges along which a call returns chooses blocks by the walk for the call, and fails
where the walk does. -/
theorem run_addReturns {node : Node} {first second : Edge} (known : graph.node? caller = some node)
    (edges : node.callEdges = .ok (first, second)) : (addReturns entry caller).run graph =
      let chosen := graph.returns (graph.subroutineOf caller) first.successor entry
      let closed := graph.updateAll chosen
        (·.addReturn (graph.subroutineOf caller) first.successor)
      match ((graph.returnWalk (graph.subroutineOf caller) first.successor).run entry).failure with
      | some cause => ⟨.error cause, closed, []⟩
      | none => ⟨.ok chosen.length, closed, [.returning chosen.length entry first.successor]⟩ := by
  have subroutine : graph.subroutineOf caller = node.subroutine := by simp [subroutineOf, known]
  simp only [addReturns, getNode, Action.run_bind, Action.run_read, node_of_known known,
    Outcome.andThen_ok, Outcome.after_nil, Action.run_ofExcept, edges, Action.run_inspect,
    Action.run_modify, subroutine]
  unfold returns
  cases ((graph.returnWalk node.subroutine first.successor).run entry).failure <;> rfl

/-- The edges are added to the blocks that the walk comes to, and from which control returns. -/
theorem closesCall_of_yields_addReturns (exclusive : before.Exclusive) {node : Node}
    {first second : Edge} (known : before.node? caller = some node)
    (edges : node.callEdges = .ok (first, second)) {count : Nat}
    (yields : (addReturns entry caller).Yields before count after) :
    ClosesCall before after (before.Gains caller entry first.successor) first.successor := by
  rw [Action.Yields, run_addReturns known edges] at yields
  cases complete :
      ((before.returnWalk (before.subroutineOf caller) first.successor).run entry).failure with
  | some cause => simp [complete] at yields
  | none =>
    simp only [complete] at yields
    obtain ⟨-, rfl⟩ := yields
    have gains (block : Label) :
        block ∈ before.returns (before.subroutineOf caller) first.successor entry ↔
          before.Gains caller entry first.successor block := mem_returns_iff exclusive complete
    have back := fun block member => ((gains block).mp member).1
    exact (closesCall_updateAll exclusive (nodup_returns complete) back).congr gains

/-- The edges are added to the blocks that the walk for the call comes to, and from which control
returns. -/
theorem closesCall_of_yields (exclusive : before.Exclusive)
    (calls : before.Calls block entry continuation)
    (yields : (closeCall block).Yields before () after) :
    ClosesCall before after (before.Gains block entry continuation) continuation := by
  obtain ⟨node, first, second, known, edges, rfl, rfl⟩ := calls
  have calling := callsSubroutine_of_callEdges edges
  have found := node_of_known known
  unfold closeCall at yields
  obtain ⟨other, _, looked, rest⟩ := Action.yields_bind.mp yields
  obtain ⟨same, rfl⟩ := Action.yields_read.mp looked
  obtain rfl := Except.ok.inj (found.symm.trans same)
  rw [if_pos calling] at rest
  obtain ⟨entry, _, called, rest⟩ := Action.yields_bind.mp rest
  obtain ⟨rfl, caller, third, fourth, foundToo, edgesToo, rfl⟩ := of_yields_callee called
  obtain rfl := Option.some.inj (known.symm.trans foundToo)
  obtain ⟨rfl, rfl⟩ := Prod.mk.inj (Except.ok.inj (edges.symm.trans edgesToo))
  obtain ⟨count, _, adds, ended⟩ := Action.yields_bind.mp rest
  obtain ⟨-, rfl⟩ := Action.yields_pure.mp ended
  exact closesCall_of_yields_addReturns exclusive known edges adds

end FlowGraph

end MethodBody
