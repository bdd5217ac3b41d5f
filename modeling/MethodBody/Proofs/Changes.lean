import MethodBody.Proofs.Layout
import MethodBody.Proofs.Marking
import Mathlib.Logic.Relation

/-!
# What finishing a method changes

Finishing a method changes its flow graph in small steps (`FlowGraph.Changes`): the last block is
closed, a protected block gets the edge to its handler, a block is assigned to a subroutine, a block
that ends with a return gets the edge to the continuation of a call, and the height at the start of
a block is recorded. Every part of the work is made of such steps, whether it fails or not, and so
is the whole (`changesTo_finish`). Whatever each step preserves holds of the finished method, and of
every flow graph on the way to it.
-/

namespace MethodBody

namespace FlowGraph

/-- One change on the way to a finished method, whose protected ranges have the given handlers. -/
inductive Changes (handlers : List Label) (before : FlowGraph) : FlowGraph → Prop
  /-- The heights at the end of a block are recorded. -/
  | closes (block : Label) (output peak : Int32) : Changes handlers before
    (before.update block fun node => { node with outputHeight := output, peakHeight := peak })
  /-- A block gets the edge to a handler. -/
  | protects {block handler : Label} {node revised : Node} (registered : handler ∈ handlers)
    (known : before.node? block = some node) (accepted : node.addHandler handler = .ok revised) :
    Changes handlers before (before.update block fun _ => revised)
  /-- A block is assigned to a subroutine. -/
  | assigns (block : Label) (subroutine : SubroutineId) : Changes handlers before
    (before.update block fun node => { node with subroutine := some subroutine })
  /-- A block that ends with a return gets the edge to a continuation. -/
  | returns (block : Label) (subroutine : Option SubroutineId) {caller : Label} {first : Edge}
    (continues : first ∈ before.edgesOf caller) : Changes handlers before
    (before.update block (·.addReturn subroutine first.successor))
  /-- The height at the start of a block is recorded. -/
  | reaches (arrival : Arrival) : Changes handlers before (before.reach arrival)

/-- Any number of changes on the way to a finished method. -/
abbrev ChangesTo (handlers : List Label) : FlowGraph → FlowGraph → Prop :=
  Relation.ReflTransGen (Changes handlers)

/-- What a change keeps of a label, and which edges it may add. -/
structure Amends (handlers : List Label) (before : FlowGraph) (node revised : Node) : Prop where
  /-- The label keeps its place. -/
  placement : revised.placement = node.placement
  /-- It stays a target, or none. -/
  target : revised.flags.jumpTarget = node.flags.jumpTarget
  /-- Its block goes on ending with a call, or not. -/
  calls : revised.flags.callsSubroutine = node.flags.callsSubroutine
  /-- It stays an entry, or none. -/
  starts : revised.flags.startsSubroutine = node.flags.startsSubroutine
  /-- Its block goes on ending with a return, or not. -/
  ends : revised.flags.endsSubroutine = node.flags.endsSubroutine
  /-- The block keeps its edges. -/
  kept : ∀ edge ∈ node.edges, edge ∈ revised.edges
  /-- The edges of a call stay in front. -/
  front : node.flags.callsSubroutine = true → node.flags.endsSubroutine = false →
    revised.edges.take 2 = node.edges.take 2
  /-- A new edge leads to a handler, or to where some edge leads already. -/
  new : ∀ edge ∈ revised.edges, edge ∈ node.edges ∨ edge.successor ∈ handlers ∨
    ∃ caller, ∃ other ∈ before.edgesOf caller, other.successor = edge.successor

variable {handlers : List Label} {before after : FlowGraph} {label : Label} {node : Node}

/-- A change of anything but the place, the uses and the edges. -/
theorem Amends.of_edges {revised : Node} (placement : revised.placement = node.placement)
    (flags : { revised.flags with reachable := false } = { node.flags with reachable := false })
    (edges : revised.edges = node.edges) : Amends handlers before node revised := by
  obtain ⟨-, target, -, calls, starts, ends⟩ := Flags.mk.inj flags
  exact ⟨placement, target, calls, starts, ends, fun edge member => edges ▸ member,
    fun _ _ => by rw [edges], fun edge member => .inl (edges ▸ member)⟩

/-- An edge to a handler is one more edge. -/
theorem perm_of_addHandler {handler : Label} {revised : Node}
    (accepted : node.addHandler handler = .ok revised) :
    revised.edges.Perm (⟨.exception, handler⟩ :: node.edges) := by
  unfold Node.addHandler at accepted
  split at accepted
  · obtain rfl := Except.ok.inj accepted
    exact .refl _
  · rename_i continuation entry others _ edges
    obtain rfl := Except.ok.inj accepted
    rw [edges]
    have middle : ([continuation, entry] ++ ⟨.exception, handler⟩ :: others).Perm
        (⟨.exception, handler⟩ :: ([continuation, entry] ++ others)) := List.perm_middle
    exact middle
  · simp at accepted

/-- A block gets the edge to a handler behind the edges of its call. -/
theorem amends_addHandler {handler : Label} {revised : Node} (registered : handler ∈ handlers)
    (accepted : node.addHandler handler = .ok revised) : Amends handlers before node revised := by
  have perm := perm_of_addHandler accepted
  have kept (edge : Edge) (member : edge ∈ node.edges) : edge ∈ revised.edges :=
    perm.mem_iff.mpr (List.mem_cons_of_mem _ member)
  have new (edge : Edge) (member : edge ∈ revised.edges) : edge ∈ node.edges ∨
      edge.successor ∈ handlers ∨
        ∃ caller, ∃ other ∈ before.edgesOf caller, other.successor = edge.successor := by
    rcases List.mem_cons.mp (perm.mem_iff.mp member) with rfl | old
    · exact .inr (.inl registered)
    · exact .inl old
  unfold Node.addHandler at accepted
  split at accepted
  · rename_i plain
    obtain rfl := Except.ok.inj accepted
    refine ⟨rfl, rfl, rfl, rfl, rfl, kept, ?_, new⟩
    intro calls
    simp [plain] at calls
  · rename_i continuation entry others _ edges
    obtain rfl := Except.ok.inj accepted
    refine ⟨rfl, rfl, rfl, rfl, rfl, kept, ?_, new⟩
    intro _ _
    rw [edges]
    rfl
  · simp at accepted

/-- A block that ends with a return gets the edge to a continuation. -/
theorem amends_addReturn (subroutine : Option SubroutineId) {caller : Label} {first : Edge}
    (continues : first ∈ before.edgesOf caller) :
    Amends handlers before node (node.addReturn subroutine first.successor) := by
  unfold Node.addReturn
  split
  · rename_i returns
    simp only [Node.returnsFromOther, Bool.and_eq_true] at returns
    refine ⟨rfl, rfl, rfl, rfl, rfl, fun edge => List.mem_cons_of_mem _, ?_, ?_⟩
    · intro _ stays
      simp [returns.1] at stays
    · intro edge member
      rcases List.mem_cons.mp member with rfl | old
      · exact .inr (.inr ⟨caller, first, continues, rfl⟩)
      · exact .inl old
  · exact .of_edges rfl rfl rfl

/-- A change adds no label and no block, and keeps of each label what it can. -/
theorem Changes.amends (changes : Changes handlers before after) :
    after.blocks = before.blocks ∧
      (∀ label, before.node? label = none → after.node? label = none) ∧
      ∀ label node, before.node? label = some node →
        ∃ revised, after.node? label = some revised ∧ Amends handlers before node revised := by
  have update (block : Label) (change : Node → Node)
      (amends : ∀ node,
        before.node? block = some node → Amends handlers before node (change node)) :
      (∀ label, before.node? label = none → (before.update block change).node? label = none) ∧
      ∀ label node, before.node? label = some node →
        ∃ revised, (before.update block change).node? label = some revised ∧
          Amends handlers before node revised := by
    refine ⟨fun label unknown => by simp [node?_update, unknown], fun label node known => ?_⟩
    by_cases same : block = label
    · subst same
      exact ⟨change node, by simp [node?_update, known], amends node known⟩
    · exact ⟨node, by simp [node?_update, same, known], .of_edges rfl rfl rfl⟩
  cases changes with
  | closes block output peak => exact ⟨rfl, update block _ fun _ _ => .of_edges rfl rfl rfl⟩
  | @protects block handler old revised registered known accepted =>
    refine ⟨rfl, update block _ fun node found => ?_⟩
    obtain rfl : old = node := Option.some.inj (known.symm.trans found)
    exact amends_addHandler registered accepted
  | assigns block subroutine => exact ⟨rfl, update block _ fun _ _ => .of_edges rfl rfl rfl⟩
  | returns block subroutine continues =>
    exact ⟨rfl, update block _ fun _ _ => amends_addReturn subroutine continues⟩
  | reaches arrival => exact ⟨rfl, update arrival.block _ fun _ _ => .of_edges rfl rfl rfl⟩

/-- What is known of a label after a change was known before, but for what the change may amend. -/
theorem Changes.exists_node (changes : Changes handlers before after) {revised : Node}
    (is : after.node? label = some revised) :
    ∃ node, before.node? label = some node ∧ Amends handlers before node revised := by
  obtain ⟨-, unknown, known⟩ := changes.amends
  cases found : before.node? label with
  | none => simp [unknown label found] at is
  | some node =>
    obtain ⟨other, isOther, amends⟩ := known label node found
    obtain rfl : revised = other := Option.some.inj (is.symm.trans isOther)
    exact ⟨node, rfl, amends⟩

/-- The edges of a call stay the edges of that call. -/
theorem Amends.exists_edges {revised : Node} (amends : Amends handlers before node revised)
    (calls : node.flags.callsSubroutine = true) (ends : node.flags.endsSubroutine = false)
    {first second : Edge} {others : List Edge} (edges : node.edges = first :: second :: others) :
    ∃ rest, revised.edges = first :: second :: rest := by
  have whole := List.take_append_drop 2 revised.edges
  rw [amends.front calls ends, edges] at whole
  exact ⟨revised.edges.drop 2, whole.symm⟩

/-- A change makes no label known or unknown. -/
theorem Changes.isSome_node? (changes : Changes handlers before after) (label : Label) :
    (after.node? label).isSome = (before.node? label).isSome := by
  obtain ⟨-, unknown, known⟩ := changes.amends
  cases found : before.node? label with
  | none => rw [unknown label found]
  | some node =>
    obtain ⟨revised, is, -⟩ := known label node found
    rw [is]
    rfl

/-- An edge after a change leads to a handler or to where some edge led before. -/
theorem Changes.of_mem_edgesOf (changes : Changes handlers before after) {edge : Edge}
    (member : edge ∈ after.edgesOf label) : edge.successor ∈ handlers ∨
      ∃ caller, ∃ other ∈ before.edgesOf caller, other.successor = edge.successor := by
  cases is : after.node? label with
  | none => simp [edgesOf, is] at member
  | some revised =>
    obtain ⟨node, found, amends⟩ := changes.exists_node is
    rw [edgesOf_of_known is] at member
    rcases amends.new edge member with old | handles | continues
    · exact .inr ⟨label, edge, (edgesOf_of_known found).symm ▸ old, rfl⟩
    · exact .inl handles
    · exact .inr continues

/-- No edge is lost in a change. -/
theorem Changes.mem_edgesOf (changes : Changes handlers before after) {edge : Edge}
    (member : edge ∈ before.edgesOf label) : edge ∈ after.edgesOf label := by
  obtain ⟨-, -, known⟩ := changes.amends
  cases found : before.node? label with
  | none => simp [edgesOf, found] at member
  | some node =>
    obtain ⟨revised, is, amends⟩ := known label node found
    rw [edgesOf_of_known found] at member
    rw [edgesOf_of_known is]
    exact amends.kept edge member

/-- No label becomes a target in a change. -/
theorem Changes.isTarget (changes : Changes handlers before after) (target : after.IsTarget label) :
    before.IsTarget label := by
  obtain ⟨revised, is, marked⟩ := target
  obtain ⟨node, found, amends⟩ := changes.exists_node is
  exact ⟨node, found, amends.target.symm.trans marked⟩

namespace ChangesTo

/-- The blocks of a finished method are those it had. -/
theorem blocks_eq (changes : ChangesTo handlers before after) : after.blocks = before.blocks := by
  induction changes with
  | refl => rfl
  | tail _ change ih => exact change.amends.1.trans ih

/-- No label becomes known or unknown on the way to a finished method. -/
theorem isSome_node? (changes : ChangesTo handlers before after) (label : Label) :
    (after.node? label).isSome = (before.node? label).isSome := by
  induction changes with
  | refl => rfl
  | tail _ change ih => exact (change.isSome_node? label).trans ih

/-- If all edges and all handlers lead to some labels, then so do the edges of the finished
method. -/
theorem leads (changes : ChangesTo handlers before after) {good : Label → Prop}
    (handles : ∀ handler ∈ handlers, good handler)
    (led : ∀ label, ∀ edge ∈ before.edgesOf label, good edge.successor) :
    ∀ label, ∀ edge ∈ after.edgesOf label, good edge.successor := by
  induction changes with
  | refl => exact led
  | tail _ change ih =>
    intro label edge member
    rcases change.of_mem_edgesOf member with handler | ⟨caller, other, old, same⟩
    · exact handles _ handler
    · exact same ▸ ih caller other old

/-- The finished method has all edges that there were. -/
theorem mem_edgesOf (changes : ChangesTo handlers before after) {edge : Edge}
    (member : edge ∈ before.edgesOf label) : edge ∈ after.edgesOf label := by
  induction changes with
  | refl => exact member
  | tail _ change ih => exact change.mem_edgesOf ih

/-- The targets of a finished method were targets before. -/
theorem isTarget (changes : ChangesTo handlers before after) (target : after.IsTarget label) :
    before.IsTarget label := by
  induction changes with
  | refl => exact target
  | tail _ change ih => exact ih (change.isTarget target)

end ChangesTo

/-- Adding an edge to a handler is one change, unless it fails. -/
theorem changesTo_addHandler {handler : Label} (registered : handler ∈ handlers) (block : Label) :
    Action.Follows (ChangesTo handlers) (addHandler block handler) := by
  intro graph
  cases known : graph.node? block with
  | none =>
    have refused : ((addHandler block handler).run graph).state = graph := by
      simp [addHandler, revise, node, known, bind, Except.bind]
    rw [refused]
  | some node =>
    cases accepted : node.addHandler handler with
    | error cause => rw [addHandler, run_revise_of_refused known accepted]
    | ok revised =>
      rw [addHandler, run_revise known accepted]
      exact .single (.protects registered known accepted)

/-- Assigning blocks to a subroutine is one change for each block. -/
theorem changesTo_mark (entry : Label) (subroutine : SubroutineId) :
    Action.Follows (ChangesTo handlers) (mark entry subroutine) := by
  refine .bind (.of_state fun _ => rfl) fun sweep => .bind (.of_state fun _ => rfl) fun region =>
    .bind (.of_modify fun graph => ?_) fun _ => .bind (.of_state ?_) fun _ =>
      .bind (.of_state fun _ => rfl) fun _ => .of_state fun _ => rfl
  · unfold updateAll
    induction region generalizing graph with
    | nil => exact .refl
    | cons label rest ih => exact .head (.assigns label subroutine) (ih _)
  · cases sweep.failure <;> exact fun _ => rfl

/-- An edge to a continuation is added in front of the others. -/
theorem mem_edgesOf_addReturn {graph : FlowGraph} {caller : Label} {edge : Edge}
    (member : edge ∈ graph.edgesOf caller) (block : Label) (subroutine : Option SubroutineId)
    (continuation : Label) :
    edge ∈ (graph.update block (·.addReturn subroutine continuation)).edgesOf caller := by
  have kept (node : Node) (inside : edge ∈ node.edges) :
      edge ∈ (node.addReturn subroutine continuation).edges := by
    unfold Node.addReturn
    split
    · exact List.mem_cons_of_mem _ inside
    · exact inside
  unfold edgesOf at member ⊢
  rw [node?_update]
  split
  · cases known : graph.node? caller with
    | none => simp [known] at member
    | some node =>
      rw [known] at member
      exact kept node member
  · exact member

/-- The first edge of a call is an edge of its block. -/
theorem mem_edgesOf_of_callEdges {graph : FlowGraph} {caller : Label} {node : Node}
    {first second : Edge} (known : graph.node? caller = some node)
    (called : node.callEdges = .ok (first, second)) : first ∈ graph.edgesOf caller := by
  unfold Node.callEdges at called
  split at called
  · rename_i same
    obtain ⟨rfl, rfl⟩ := Prod.mk.inj (Except.ok.inj called)
    simp [edgesOf, known, same]
  · simp at called

/-- Adding edges to a continuation is one change for each of the blocks. -/
theorem changesTo_updateAll_addReturn {graph : FlowGraph} {caller : Label} {first : Edge}
    (continues : first ∈ graph.edgesOf caller) (subroutine : Option SubroutineId)
    (labels : List Label) : ChangesTo handlers graph
      (graph.updateAll labels (·.addReturn subroutine first.successor)) := by
  unfold updateAll
  induction labels generalizing graph with
  | nil => exact .refl
  | cons label rest ih =>
    exact .head (.returns label subroutine continues)
      (ih (mem_edgesOf_addReturn continues label subroutine first.successor))

/-- Adding the edges along which a call returns is one change for each block. -/
theorem changesTo_addReturns (entry caller : Label) :
    Action.Follows (ChangesTo handlers) (addReturns entry caller) := by
  intro graph
  cases known : graph.node? caller with
  | none =>
    have refused : ((addReturns entry caller).run graph).state = graph := by
      simp [addReturns, getNode, node, known]
    rw [refused]
  | some node =>
    have looked : ((getNode caller).run graph).answer = .ok node := node_of_known known
    unfold addReturns
    rw [Action.state_bind _ looked]
    cases called : node.callEdges with
    | error cause => exact .refl
    | ok edges =>
      obtain ⟨first, second⟩ := edges
      have rest (sweep : Sweep Label) (returns : List Label) : ChangesTo handlers graph
          ((do
            modify (·.updateAll returns (·.addReturn node.subroutine first.successor))
            Action.check sweep.failure
            Action.report (.returning returns.length entry first.successor)
            pure returns.length : Action FlowGraph Nat).run graph).state := by
        rw [Action.state_bind _ (show _ = Except.ok () from rfl)]
        have adds : ChangesTo handlers graph _ := changesTo_updateAll_addReturn
          (mem_edgesOf_of_callEdges known called) node.subroutine returns
        cases sweep.failure <;> exact adds
      exact rest _ _

/-- Finding the subroutines is a number of changes. -/
theorem changesTo_analyzeSubroutines :
    Action.Follows (ChangesTo handlers) analyzeSubroutines := by
  refine .bind (.of_state fun _ => rfl) fun first? => ?_
  cases first? with
  | none => exact .of_state fun _ => rfl
  | some first =>
    refine .bind (changesTo_mark _ _) fun _ => .bind (.of_state fun _ => rfl) fun blocks =>
      .bind (.of_state fun _ => rfl) fun ids => .bind ?_ fun last => .bind ?_
        fun _ => .of_state fun _ => rfl
    · exact .fold _ (fun current _ last => follows_markCallees changesTo_mark blocks last current) _
    · exact .forEach _ fun block _ => follows_closeCall changesTo_addReturns block

/-- Computing the stack heights is one change for each block that is reached. -/
theorem changesTo_computeMaxStack : Action.Follows (ChangesTo handlers) computeMaxStack := by
  refine .bind (.of_state fun _ => rfl) fun first? => ?_
  cases first? with
  | none => exact .of_state fun _ => rfl
  | some first =>
    refine .bind (.of_state fun _ => rfl) fun _ => .bind (.of_state fun _ => rfl) fun sweep =>
      .bind (.of_modify fun graph => ?_) fun _ => .bind (.of_state ?_) fun _ =>
        .bind (.of_state fun _ => rfl) fun _ => .bind (.of_state fun _ => rfl)
          fun _ => .of_state fun _ => rfl
    · induction sweep.entered generalizing graph with
      | nil => exact .refl
      | cons arrival rest ih => exact .head (.reaches arrival) (ih _)
    · cases sweep.failure <;> exact fun _ => rfl

end FlowGraph

namespace Assembler

variable {handlers : List Label}

/-- Protecting blocks is one change for each block. -/
theorem changesTo_addHandlerEdges {handler : Handler} (registered : handler.handler ∈ handlers) :
    Action.Follows (FlowGraph.ChangesTo handlers) (addHandlerEdges handler) :=
  .bind (.of_state fun _ => rfl) fun blocks =>
    .forEach blocks fun block _ => FlowGraph.changesTo_addHandler registered block

/-- The flow graph changes on the way to a finished method. -/
def Prepares (handlers : List Label) (before after : Assembler) : Prop :=
  FlowGraph.ChangesTo handlers before.graph after.graph

instance : IsPreorder Assembler (Prepares handlers) where
  refl _ := Relation.ReflTransGen.refl
  trans _ _ _ := Relation.ReflTransGen.trans

/-- What an action does to the flow graph is all it does. -/
theorem prepares_onGraph {α : Type} {action : Action FlowGraph α}
    (changes : Action.Follows (FlowGraph.ChangesTo handlers) action) :
    Action.Follows (Prepares handlers) (onGraph action) := fun assembler => changes assembler.graph

/-- Finding the subroutines is a number of changes. -/
theorem prepares_findSubroutines : Action.Follows (Prepares handlers) findSubroutines := by
  refine .bind (.of_state fun _ => rfl) fun calls => ?_
  split
  · exact .bind (prepares_onGraph FlowGraph.changesTo_analyzeSubroutines) fun _ =>
      .of_state fun _ => rfl
  · exact .of_state fun _ => rfl

/-- Computing the maxima is a number of changes. -/
theorem prepares_maxima : Action.Follows (Prepares handlers) maxima := by
  refine .bind (.of_state fun _ => rfl) fun computes => ?_
  split
  · exact .bind (prepares_onGraph FlowGraph.changesTo_computeMaxStack) fun _ =>
      .bind (.of_state fun _ => rfl) fun _ => .bind (.of_state fun _ => rfl) fun _ =>
        .bind (.of_state fun _ => rfl) fun _ => .of_state fun _ => rfl
  · exact .of_state fun _ => rfl

/-- Closing the open block is one change, if there is one. -/
theorem prepares_closeBlock (handlers : List Label) (assembler : Assembler) :
    assembler.Prepares handlers assembler.closeBlock := by
  unfold closeBlock
  split
  · exact .refl
  · exact .single (.closes _ _ _)

/-- Closing the open block keeps the handlers. -/
theorem handlers_closeBlock (assembler : Assembler) :
    assembler.closeBlock.handlers = assembler.handlers := by
  unfold closeBlock
  split <;> rfl

/-- The labels that exceptions are handled at. -/
def handlerLabels (assembler : Assembler) : List Label :=
  assembler.handlers.toList.map Handler.handler

/-- Exceptions are handled at the label of each handler. -/
theorem handler_mem_handlerLabels {assembler : Assembler} {handler : Handler}
    (member : handler ∈ assembler.handlers.toList) : handler.handler ∈ assembler.handlerLabels :=
  List.mem_map_of_mem member

/-- Finishing a method is a number of changes, whether it fails or not. -/
theorem changesTo_finish (assembler : Assembler) :
    FlowGraph.ChangesTo assembler.handlerLabels assembler.graph
      (finish.run assembler).state.graph := by
  let rest : Action Assembler MethodCode := do
    Action.forEach assembler.handlers.toList fun handler => onGraph (addHandlerEdges handler)
    findSubroutines
    let maxima ← maxima
    let handlers ← Action.read handlerRows
    let lines ← Action.read lineRows
    let assembler ← get
    if assembler.needsWidening then Action.report .needsWidening
    pure
      { code := assembler.code
        maxima
        handlers
        lines
        needsWidening := assembler.needsWidening
        graph := assembler.graph }
  have follows : Action.Follows (Prepares assembler.handlerLabels) rest := by
    refine .bind (.forEach _ fun handler member => prepares_onGraph
      (changesTo_addHandlerEdges (handler_mem_handlerLabels member))) fun _ =>
        .bind prepares_findSubroutines fun _ => .bind prepares_maxima fun _ =>
          .bind (.of_state fun _ => rfl) fun _ => .bind (.of_state fun _ => rfl) fun _ =>
            .bind (.of_state fun _ => rfl) fun found => ?_
    split
    · exact .bind (.of_state fun _ => rfl) fun _ => .of_state fun _ => rfl
    · exact .of_state fun _ => rfl
  cases unfinished : assembler.unfinished? with
  | some cause =>
    have refused : (finish.run assembler).state = assembler := by
      simp [finish, Action.check, unfinished]
    rw [refused]
  | none =>
    have finishing : (finish.run assembler).state = (rest.run assembler.closeBlock).state := by
      unfold finish
      rw [Action.state_bind _ (show _ = Except.ok none from congrArg Except.ok unfinished),
        Action.state_bind _ (show _ = Except.ok () from rfl),
        Action.state_bind _ (show _ = Except.ok () from rfl),
        Action.state_bind _ (show _ = Except.ok assembler.handlers.toList from
          congrArg (fun handlers => Except.ok handlers.toList) assembler.handlers_closeBlock)]
      rfl
    rw [finishing]
    exact (prepares_closeBlock _ assembler).trans (follows assembler.closeBlock)

end Assembler

end MethodBody
