import MethodBody.Proofs.Calls
import MethodBody.Proofs.Changes

/-!
# The analysis of subroutines never fails

A flow graph is consistent if whatever it mentions is known, and each block that calls has the edges
of a call (`FlowGraph.IsConsistent`). No change on the way to a finished method spoils that
(`IsConsistent.changesTo`), so each step of the analysis of subroutines finds what it looks for, and
the analysis as a whole never fails (`IsConsistent.failsOnly_analyzeSubroutines`).
-/

namespace MethodBody

namespace Action

variable {σ α β : Type} {permitted : Error → Prop} {state : σ}

/-- If the action fails from the state, then with a permitted cause. -/
def FailsOnly (permitted : Error → Prop) (action : Action σ α) (state : σ) : Prop :=
  ∀ cause, (action.run state).answer = .error cause → permitted cause

namespace FailsOnly

/-- An action that succeeds. -/
theorem of_ok {action : Action σ α} {value : α} (succeeds : (action.run state).answer = .ok value) :
    FailsOnly permitted action state := by
  intro cause fails
  simp [succeeds] at fails

/-- A value is no failure. -/
theorem pure (value : α) : FailsOnly permitted (pure value : Action σ α) state := of_ok rfl

/-- Two actions in a row. -/
theorem bind {action : Action σ α} {next : α → Action σ β}
    (first : FailsOnly permitted action state)
    (second : ∀ value after, action.Yields state value after →
      FailsOnly permitted (next value) after) : FailsOnly permitted (action >>= next) state := by
  intro cause fails
  rcases answer_bind_eq_error.mp fails with now | ⟨value, answered, later⟩
  · exact first cause now
  · exact second value _ (yields_of_answer answered) cause later

/-- A fold over a list, each step of which keeps what the next one needs. -/
theorem fold (holds : σ → Prop) {items : List α} {step : β → α → Action σ β}
    (each : ∀ item ∈ items, ∀ value state, holds state →
      FailsOnly permitted (step value item) state)
    (keeps : ∀ item ∈ items, ∀ value before next after, holds before →
      (step value item).Yields before next after → holds after) (start : β) (held : holds state) :
    FailsOnly permitted (Action.fold step start items) state := by
  induction items generalizing state start with
  | nil => exact .pure start
  | cons item rest ih =>
    rw [fold_cons]
    refine .bind (each item List.mem_cons_self start state held) fun next after yields => ?_
    exact ih (fun other member => each other (List.mem_cons_of_mem _ member))
      (fun other member => keeps other (List.mem_cons_of_mem _ member)) next
      (keeps item List.mem_cons_self start state next after held yields)

/-- An action for each item, each of which keeps what the next one needs. -/
theorem forEach (holds : σ → Prop) {items : List β} {action : β → Action σ Unit}
    (each : ∀ item ∈ items, ∀ state, holds state → FailsOnly permitted (action item) state)
    (keeps : ∀ item ∈ items, ∀ before after, holds before →
      (action item).Yields before () after → holds after) (held : holds state) :
    FailsOnly permitted (Action.forEach items action) state :=
  fold holds (fun item member _ => each item member)
    (fun item member _ before _ after => keeps item member before after) () held

/-- An action that cannot fail leads somewhere. -/
theorem exists_yields {action : Action σ α} (never : FailsOnly (fun _ => False) action state) :
    ∃ value after, action.Yields state value after := by
  cases answer : (action.run state).answer with
  | ok value => exact ⟨value, _, yields_of_answer answer⟩
  | error cause => exact (never cause answer).elim

end FailsOnly

/-- A check that fails does so for its cause. -/
theorem eq_some_of_check {cause? : Option Error} {cause : Error}
    (failed : ((check cause? : Action σ Unit).run state).answer = .error cause) :
    cause? = some cause := by
  cases cause? with
  | none => simp [check] at failed
  | some other => exact congrArg some (Except.error.inj failed)

end Action

namespace FlowGraph

/-- Whatever the graph mentions is known, and each block that calls has the edges of a call. -/
structure IsConsistent (graph : FlowGraph) : Prop where
  /-- The blocks are known. -/
  blocks : ∀ block ∈ graph.blocks, (graph.node? block).isSome
  /-- Edges lead to known labels. -/
  successors : ∀ label, ∀ edge ∈ graph.edgesOf label, (graph.node? edge.successor).isSome
  /-- A block that calls has the edges of a call. -/
  callers : ∀ label node, graph.node? label = some node → node.flags.callsSubroutine = true →
    ∃ continuation entry others, node.edges = continuation :: entry :: others
  /-- No block both ends with a call and ends with a return. -/
  exclusive : graph.Exclusive

variable {graph before after : FlowGraph} {handlers : List Label} {label : Label} {node : Node}
  {permitted : Error → Prop}

namespace IsConsistent

/-- A change keeps a graph consistent. -/
theorem change (consistent : before.IsConsistent)
    (handles : ∀ handler ∈ handlers, (before.node? handler).isSome)
    (changes : Changes handlers before after) : after.IsConsistent := by
  constructor
  · intro block member
    rw [changes.amends.1] at member
    rw [changes.isSome_node?]
    exact consistent.blocks block member
  · intro label edge member
    rw [changes.isSome_node?]
    rcases changes.of_mem_edgesOf member with handler | ⟨caller, other, old, same⟩
    · exact handles _ handler
    · exact same ▸ consistent.successors caller other old
  · intro label revised is calls
    obtain ⟨node, was, amends⟩ := changes.exists_node is
    rw [amends.calls] at calls
    obtain ⟨continuation, entry, others, edges⟩ := consistent.callers label node was calls
    exact ⟨continuation, entry,
      amends.exists_edges calls (consistent.exclusive label node was calls) edges⟩
  · intro label revised is calls
    obtain ⟨node, was, amends⟩ := changes.exists_node is
    rw [amends.calls] at calls
    exact amends.ends.trans (consistent.exclusive label node was calls)

/-- A graph stays consistent on the way to a finished method. -/
theorem changesTo (consistent : before.IsConsistent) (changes : ChangesTo handlers before after)
    (handles : ∀ handler ∈ handlers, (before.node? handler).isSome) : after.IsConsistent := by
  induction changes with
  | refl => exact consistent
  | tail earlier change ih =>
    refine ih.change (fun handler member => ?_) change
    rw [ChangesTo.isSome_node? earlier]
    exact handles handler member

/-- What an action of the analysis leads to is consistent, and has the same blocks. -/
theorem of_yields {α : Type} {action : Action FlowGraph α} {value : α} {blocks : List Label}
    (consistent : before.IsConsistent ∧ before.blocks.toList = blocks)
    (changes : Action.Follows (ChangesTo []) action) (yields : action.Yields before value after) :
    after.IsConsistent ∧ after.blocks.toList = blocks := by
  have changed := changes.of_yields yields
  exact ⟨consistent.1.changesTo changed (by simp), by rw [changed.blocks_eq]; exact consistent.2⟩

/-- The blocks of a consistent graph are known. -/
theorem isSome_of_mem {blocks : List Label}
    (consistent : graph.IsConsistent ∧ graph.blocks.toList = blocks) (member : label ∈ blocks) :
    (graph.node? label).isSome :=
  consistent.1.blocks label (Array.mem_toList_iff.mp (consistent.2 ▸ member))

/-- A block that calls has the edges of a call. -/
theorem exists_callEdges (consistent : graph.IsConsistent) (known : graph.node? label = some node)
    (calls : node.flags.callsSubroutine = true) : ∃ edges, node.callEdges = .ok edges := by
  obtain ⟨continuation, entry, others, edges⟩ := consistent.callers label node known calls
  exact ⟨(continuation, entry), by rw [Node.callEdges, calls, edges]⟩

/-- Where control goes on from a block without calling is always defined. -/
theorem exists_bodySuccessors (consistent : graph.IsConsistent)
    (known : graph.node? label = some node) : ∃ labels, node.bodySuccessors = .ok labels := by
  cases calls : node.flags.callsSubroutine with
  | true =>
    obtain ⟨edges, found⟩ := consistent.exists_callEdges known calls
    exact ⟨_, by rw [Node.bodySuccessors, if_pos calls, found]; rfl⟩
  | false => exact ⟨_, Node.bodySuccessors_of_plain calls⟩

/-- Where control goes on from a block is still defined once it has an edge to a continuation. -/
theorem exists_bodySuccessors_addReturn (consistent : graph.IsConsistent)
    (known : graph.node? label = some node) (subroutine : Option SubroutineId)
    (continuation : Label) :
    ∃ labels, (node.addReturn subroutine continuation).bodySuccessors = .ok labels := by
  cases returns : node.returnsFromOther subroutine with
  | true =>
    have plain := consistent.exclusive.plain known (Node.endsSubroutine_of_returnsFromOther returns)
    rw [Node.addReturn_of_returnsFromOther returns]
    exact ⟨_, Node.bodySuccessors_of_plain plain⟩
  | false =>
    rw [Node.addReturn, if_neg (by simp [returns])]
    exact consistent.exists_bodySuccessors known

/-- A walk from a known label along edges, and to other known labels, never fails if each label can
be left. -/
theorem failure_run_eq_none (consistent : graph.IsConsistent) {walk : Walk Label} {start : Label}
    (walks : walk.graph = graph) (names : walk.label = id) (start_ : (graph.node? start).isSome)
    (extra : ∀ label ∈ walk.extra, (graph.node? label).isSome)
    (accepts : ∀ item, walk.refusal item = none)
    (follows : ∀ item node, graph.node? item = some node →
      ∃ items, walk.follow node item = .ok items) :
    (walk.run start).failure = none := by
  have known (item : Label) (reached : walk.Reaches start item) : (graph.node? item).isSome := by
    induction reached with
    | refl => exact start_
    | @tail before after _ leads ih =>
      obtain ⟨items, found, member⟩ := leads
      obtain ⟨node, is⟩ := Option.isSome_iff_exists.mp ih
      have step : walk.follow node before = .ok items := by
        simpa [Walk.next, walks, names, FlowGraph.node, is, bind, Except.bind] using found
      have where_ := walk.follow_mem step after member
      rw [names] at where_
      rcases List.mem_append.mp where_ with along | other
      · obtain ⟨edge, leads, rfl⟩ := List.mem_map.mp along
        exact consistent.successors before edge ((edgesOf_of_known is).symm ▸ leads)
      · exact extra after other
  by_contra failed
  obtain ⟨cause, failed⟩ := Option.ne_none_iff_exists'.mp failed
  obtain ⟨item, reached, stuck | refused⟩ := Walk.exists_of_failure_run failed
  · obtain ⟨node, is⟩ := Option.isSome_iff_exists.mp (known item reached)
    rcases Walk.next_eq_error stuck with ⟨unknown, -⟩ | ⟨other, found, refused⟩
    · simp [walks, names, is] at unknown
    · simp only [walks, names, id] at found
      obtain ⟨items, followed⟩ := follows item other found
      simp [followed] at refused
  · simp [accepts] at refused

section Analysis

variable (consistent : graph.IsConsistent)

include consistent

/-- The walk over the blocks of a subroutine never fails. -/
theorem failure_regionWalk (known : (graph.node? label).isSome) :
    (graph.regionWalk.run label).failure = none := by
  refine consistent.failure_run_eq_none rfl rfl known (by simp [regionWalk]) (fun _ => rfl)
    fun item node found => ?_
  obtain ⟨labels, body⟩ := consistent.exists_bodySuccessors found
  by_cases unassigned : node.subroutine.isNone = true
  · exact ⟨labels, (if_pos unassigned).trans body⟩
  · exact ⟨[], if_neg unassigned⟩

/-- Assigning the blocks that a known entry reaches never fails. -/
theorem failsOnly_mark (known : (graph.node? label).isSome) (subroutine : SubroutineId) :
    (mark label subroutine).FailsOnly permitted graph := by
  unfold mark
  refine .bind (.of_ok rfl) fun sweep _ walked => ?_
  obtain ⟨rfl, rfl⟩ := Action.yields_inspect.mp walked
  rw [consistent.failure_regionWalk known]
  exact .bind (.of_ok rfl) fun _ _ _ => .bind (.of_ok rfl) fun _ _ _ => .bind (.of_ok rfl)
    fun _ _ _ => .bind (.of_ok rfl) fun _ _ _ => .pure _

/-- The subroutine that a block calls is always found. -/
theorem failsOnly_callee (known : graph.node? label = some node)
    (calls : node.flags.callsSubroutine = true) : (callee label).FailsOnly permitted graph := by
  obtain ⟨edges, called⟩ := consistent.exists_callEdges known calls
  have read : (graph.node label >>= (·.callEdges)) = .ok edges := by
    rw [node_of_known known]
    exact called
  exact .bind (.of_ok read) fun _ _ _ => .pure _

/-- The subroutine that a block calls is known. -/
theorem isSome_of_yields_callee {entry : Label} (yields : (callee label).Yields graph entry after) :
    (graph.node? entry).isSome := by
  obtain ⟨-, node, first, second, known, edges, rfl⟩ := of_yields_callee yields
  refine consistent.successors label second ?_
  unfold Node.callEdges at edges
  split at edges
  · rename_i same
    obtain ⟨-, rfl⟩ := Prod.mk.inj (Except.ok.inj edges)
    simp [edgesOf, known, same]
  · simp at edges

/-- Adding the edges along which a call returns never fails. -/
theorem failsOnly_addReturns {entry : Label} (entryKnown : (graph.node? entry).isSome)
    (known : graph.node? label = some node) (calls : node.flags.callsSubroutine = true) :
    (addReturns entry label).FailsOnly permitted graph := by
  obtain ⟨⟨first, second⟩, called⟩ := consistent.exists_callEdges known calls
  have continues := consistent.successors label first (mem_edgesOf_of_callEdges known called)
  unfold addReturns
  refine .bind (.of_ok (node_of_known known)) fun other _ looked => ?_
  obtain ⟨found, rfl⟩ := Action.yields_read.mp looked
  obtain rfl := Except.ok.inj ((node_of_known known).symm.trans found)
  refine .bind (.of_ok called) fun edges _ read => ?_
  obtain ⟨same, rfl⟩ := Action.yields_ofExcept.mp read
  obtain rfl := Except.ok.inj (called.symm.trans same)
  refine .bind (.of_ok rfl) fun sweep _ walked => ?_
  obtain ⟨rfl, rfl⟩ := Action.yields_inspect.mp walked
  have complete :
      ((graph.returnWalk node.subroutine first.successor).run entry).failure = none := by
    refine consistent.failure_run_eq_none rfl rfl entryKnown ?_ (fun _ => rfl)
      fun item other found => consistent.exists_bodySuccessors_addReturn found _ _
    intro label member
    obtain rfl : label = first.successor := by simpa [returnWalk] using member
    exact continues
  rw [complete]
  exact .bind (.of_ok rfl) fun _ _ _ => .bind (.of_ok rfl) fun _ _ _ => .bind (.of_ok rfl)
    fun _ _ _ => .bind (.of_ok rfl) fun _ _ _ => .pure _

/-- Closing the call of a known block never fails. -/
theorem failsOnly_closeCall (known : (graph.node? label).isSome) :
    (closeCall label).FailsOnly permitted graph := by
  obtain ⟨node, found⟩ := Option.isSome_iff_exists.mp known
  unfold closeCall
  refine .bind (.of_ok (node_of_known found)) fun other _ looked => ?_
  obtain ⟨same, rfl⟩ := Action.yields_read.mp looked
  obtain rfl := Except.ok.inj ((node_of_known found).symm.trans same)
  split
  · rename_i calls
    refine .bind (consistent.failsOnly_callee found calls) fun entry _ called => ?_
    have entryKnown := consistent.isSome_of_yields_callee called
    obtain ⟨rfl, -⟩ := of_yields_callee called
    exact .bind (consistent.failsOnly_addReturns entryKnown found calls) fun _ _ _ => .pure _
  · exact .pure _

/-- Marking the subroutine that a known block calls never fails. -/
theorem failsOnly_markCallee (known : (graph.node? label).isSome) (current last : SubroutineId) :
    (markCallee current last label).FailsOnly permitted graph := by
  obtain ⟨node, found⟩ := Option.isSome_iff_exists.mp known
  unfold markCallee
  refine .bind (.of_ok (node_of_known found)) fun other _ looked => ?_
  obtain ⟨same, rfl⟩ := Action.yields_read.mp looked
  obtain rfl := Except.ok.inj ((node_of_known found).symm.trans same)
  split
  · rename_i calls
    simp only [Bool.and_eq_true] at calls
    refine .bind (consistent.failsOnly_callee found calls.1) fun entry _ called => ?_
    have entryKnown := consistent.isSome_of_yields_callee called
    obtain ⟨rfl, -⟩ := of_yields_callee called
    obtain ⟨entryNode, entryFound⟩ := Option.isSome_iff_exists.mp entryKnown
    refine .bind (.of_ok (node_of_known entryFound)) fun _ _ looked => ?_
    obtain ⟨-, rfl⟩ := Action.yields_read.mp looked
    split
    · exact .bind (consistent.failsOnly_mark entryKnown _) fun _ _ _ => .pure _
    · exact .pure _
  · exact .pure _

end Analysis

variable {blocks : List Label}

/-- Marking the subroutines that blocks call never fails. -/
theorem failsOnly_markCallees (consistent : graph.IsConsistent ∧ graph.blocks.toList = blocks)
    (last current : SubroutineId) :
    (markCallees blocks last current).FailsOnly permitted graph := by
  unfold markCallees
  split
  · exact .fold (fun graph => graph.IsConsistent ∧ graph.blocks.toList = blocks)
      (fun block member reached _ holds =>
        holds.1.failsOnly_markCallee (isSome_of_mem holds member) current reached)
      (fun block _ reached _ _ _ holds => of_yields holds
        (follows_markCallee changesTo_mark current reached block)) last consistent
  · exact .pure _

/-- Closing the calls of blocks never fails. -/
theorem failsOnly_closeCalls (consistent : graph.IsConsistent ∧ graph.blocks.toList = blocks) :
    (Action.forEach blocks closeCall).FailsOnly permitted graph :=
  .forEach (fun graph => graph.IsConsistent ∧ graph.blocks.toList = blocks)
    (fun _ member _ held => held.1.failsOnly_closeCall (isSome_of_mem held member))
    (fun block _ _ _ held =>
      of_yields held (follows_closeCall changesTo_addReturns block)) consistent

/-- Finding the subroutines never fails. -/
theorem failsOnly_analyzeSubroutines (consistent : graph.IsConsistent) :
    analyzeSubroutines.FailsOnly permitted graph := by
  let holds (blocks : List Label) (graph : FlowGraph) : Prop :=
    graph.IsConsistent ∧ graph.blocks.toList = blocks
  unfold analyzeSubroutines
  refine .bind (.of_ok rfl) fun first? _ inspected => ?_
  obtain ⟨rfl, rfl⟩ := Action.yields_inspect.mp inspected
  split
  · exact .pure _
  · rename_i first begins
    have first := consistent.blocks first (Array.mem_of_getElem? begins)
    refine .bind (consistent.failsOnly_mark first _) fun _ marked marks => ?_
    have start : holds marked.blocks.toList marked :=
      ⟨(of_yields ⟨consistent, rfl⟩ (changesTo_mark _ _) marks).1, rfl⟩
    refine .bind (.of_ok rfl) fun blocks _ inspected => ?_
    obtain ⟨rfl, rfl⟩ := Action.yields_inspect.mp inspected
    refine .bind (.of_ok rfl) fun ids _ inspected => ?_
    obtain ⟨-, rfl⟩ := Action.yields_inspect.mp inspected
    refine .bind (.fold (holds marked.blocks.toList)
      (fun current _ last _ held => failsOnly_markCallees held last current)
      (fun current _ last _ _ _ held => of_yields held
        (follows_markCallees changesTo_mark _ last current)) _ start) fun last
          assigned assigns => ?_
    have assignedHolds := of_yields start (.fold ids
      (fun current _ last => follows_markCallees changesTo_mark _ last current) _) assigns
    exact .bind (failsOnly_closeCalls assignedHolds) fun _ _ _ => .pure _

end IsConsistent

end FlowGraph

end MethodBody
