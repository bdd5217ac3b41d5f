import MethodBody.Proofs.Calls
import Mathlib.Data.List.Induction

/-!
# How subroutines return

The edges along which control returns are added for one call after the other. The walk for a call
follows the edges that were added for the calls before it, so it can come to returns that the call
does not lead to (`Owes`). Every call adds the edges that it owes, and no call adds others exactly
if the edges that are owed lead to no further returns (`returnsExactly_iff`).
-/

namespace MethodBody

namespace FlowGraph

variable {graph before after : FlowGraph} {caller entry continuation block next : Label}

/-- The graph after the edges for the calls of some blocks have been added. -/
def closeAll (graph : FlowGraph) (blocks : List Label) : FlowGraph :=
  ((Action.forEach blocks closeCall).run graph).state

/-- A block ends with a call, and these blocks are placed in front of it. -/
def CallsAt (graph : FlowGraph) (front : List Label) (caller entry continuation : Label) : Prop :=
  (∃ back, graph.blocks.toList = front ++ caller :: back) ∧ graph.Calls caller entry continuation

/-- When the call of a block is closed, after those of the blocks in front of it, the edge from
another block to the continuation is added. -/
def AddsEdge (assigned : FlowGraph) (front : List Label)
    (caller continuation block : Label) : Prop :=
  (assigned.closeAll (front ++ [caller])).edgesOf block
    = assigned.returnEdge block continuation :: (assigned.closeAll front).edgesOf block

/-- A call leads to the return of the block, which belongs to another subroutine than the caller. -/
def Owes (graph after : FlowGraph) (caller entry block : Label) : Prop :=
  after.ReturnsTo caller block ∧ Relation.ReflTransGen graph.Flows entry block

/-- Control passes on without entering a subroutine, or it returns from a block that the call of one
of some blocks leads to. -/
def FlowsOwed (graph after : FlowGraph) (callers : List Label) (block next : Label) : Prop :=
  graph.Flows block next ∨
    ∃ caller ∈ callers, ∃ entry, graph.Calls caller entry next ∧ graph.Owes after caller entry block

/-- Every call adds exactly the edges that it owes. -/
def ReturnsExactly (graph assigned after : FlowGraph) : Prop :=
  ∀ front caller entry continuation, graph.CallsAt front caller entry continuation →
    ∀ block, assigned.AddsEdge front caller continuation block ↔ graph.Owes after caller entry block

/-- The edges that a call and those before it owe do not lead the call to any more returns. -/
def ReturnsApart (graph after : FlowGraph) : Prop :=
  ∀ front caller entry continuation, graph.CallsAt front caller entry continuation →
    ∀ block, after.ReturnsTo caller block →
      Relation.ReflTransGen (graph.FlowsOwed after (front ++ [caller])) entry block →
      Relation.ReflTransGen graph.Flows entry block

section Stages

variable {assigned : FlowGraph} {front back : List Label}

/-- The call of a block is closed after those of the blocks in front of it. -/
theorem yields_closeAll
    (yields : (Action.forEach (front ++ block :: back) closeCall).Yields assigned () after) :
    (Action.forEach front closeCall).Yields assigned () (assigned.closeAll front) ∧
      (closeCall block).Yields (assigned.closeAll front) ()
        (assigned.closeAll (front ++ [block])) := by
  obtain ⟨middle, first, rest⟩ := Action.yields_forEach_append.mp yields
  obtain ⟨next, one, _⟩ := Action.yields_forEach_cons.mp rest
  have alone : (Action.forEach [block] closeCall).Yields middle () next :=
    Action.yields_forEach_cons.mpr ⟨next, one, rfl, rfl⟩
  have both := Action.yields_forEach_append.mpr ⟨middle, first, alone⟩
  obtain rfl : assigned.closeAll front = middle := first.2
  obtain rfl : assigned.closeAll (front ++ [block]) = next := both.2
  exact ⟨first, one⟩

/-- Closing a call only adds edges to blocks that end with a return. -/
theorem addsReturns_of_yields (exclusive : before.Exclusive)
    (yields : (closeCall block).Yields before () after) : AddsReturns before after := by
  by_cases calls : ∃ entry continuation, before.Calls block entry continuation
  · obtain ⟨entry, continuation, calls⟩ := calls
    exact (closesCall_of_yields exclusive calls yields).adds
  · have none (entry continuation : Label) : ¬before.Calls block entry continuation :=
      fun found => calls ⟨entry, continuation, found⟩
    rw [eq_of_yields_closeCall yields none]
    exact AddsReturns.refl before

/-- Closing calls only adds edges to blocks that end with a return. -/
theorem addsReturns_of_forEach (exclusive : before.Exclusive) {blocks : List Label}
    (yields : (Action.forEach blocks closeCall).Yields before () after) :
    AddsReturns before after := by
  induction blocks generalizing before with
  | nil =>
    obtain ⟨-, rfl⟩ := Action.yields_pure.mp yields
    exact AddsReturns.refl before
  | cons block rest ih =>
    obtain ⟨middle, first, others⟩ := Action.yields_forEach_cons.mp yields
    have one := addsReturns_of_yields exclusive first
    exact one.trans (ih (one.exclusive exclusive) others)

/-- Control passes on as before the calls were closed, and along the edges that were added for
them. -/
theorem flows_closeAll (exclusive : assigned.Exclusive)
    (yields : (Action.forEach (front ++ back) closeCall).Yields assigned () after) :
    (assigned.closeAll front).Flows block next ↔ assigned.Flows block next ∨
      ∃ before caller behind entry, front = before ++ caller :: behind ∧
        assigned.Calls caller entry next ∧
          (assigned.closeAll before).Gains caller entry next block := by
  induction front using List.reverseRecOn generalizing back with
  | nil =>
    have none : assigned.closeAll [] = assigned := rfl
    simp [none]
  | append_singleton front last ih =>
    rw [List.append_assoc] at yields
    obtain ⟨first, one⟩ := yields_closeAll yields
    have adds := addsReturns_of_forEach exclusive first
    have exclusiveHere := adds.exclusive exclusive
    have earlier := ih yields
    have step : (assigned.closeAll (front ++ [last])).Flows block next ↔
        (assigned.closeAll front).Flows block next ∨ ∃ entry, assigned.Calls last entry next ∧
          (assigned.closeAll front).Gains last entry next block := by
      by_cases calls : ∃ entry continuation, assigned.Calls last entry continuation
      · obtain ⟨entry, continuation, calls⟩ := calls
        have closes := closesCall_of_yields exclusiveHere ((adds.calls_iff exclusive).mpr calls) one
        rw [closes.flows]
        refine or_congr_right ⟨?_, ?_⟩
        · rintro ⟨gains, rfl⟩
          exact ⟨entry, calls, gains⟩
        · rintro ⟨other, callsToo, gains⟩
          obtain ⟨rfl, rfl⟩ := calls.unique callsToo
          exact ⟨gains, rfl⟩
      · have none (entry continuation : Label) :
            ¬(assigned.closeAll front).Calls last entry continuation :=
          fun found => calls ⟨entry, continuation, (adds.calls_iff exclusive).mp found⟩
        rw [eq_of_yields_closeCall one none]
        refine (or_iff_left ?_).symm
        rintro ⟨entry, found, _⟩
        exact calls ⟨entry, next, found⟩
    rw [step, earlier, or_assoc]
    refine or_congr_right ⟨?_, ?_⟩
    · rintro (⟨before, caller, behind, entry, rfl, calls, gains⟩ | ⟨entry, calls, gains⟩)
      · exact ⟨before, caller, behind ++ [last], entry, by simp, calls, gains⟩
      · exact ⟨front, last, [], entry, rfl, calls, gains⟩
    · rintro ⟨before, caller, behind, entry, same, calls, gains⟩
      cases behind using List.reverseRecOn with
      | nil =>
        obtain ⟨rfl, only⟩ := List.append_inj' same rfl
        obtain rfl : last = caller := List.head_eq_of_cons_eq only
        exact Or.inr ⟨entry, calls, gains⟩
      | append_singleton rest other =>
        rw [← List.cons_append, ← List.append_assoc] at same
        obtain ⟨rfl, -⟩ := List.append_inj' same rfl
        exact Or.inl ⟨before, caller, rest, entry, rfl, calls, gains⟩

/-- Control passes on along the edges that were added on behalf of an earlier call. -/
theorem flows_of_gains (exclusive : assigned.Exclusive) {rest behind : List Label}
    (yields : (Action.forEach ((front ++ caller :: behind) ++ rest) closeCall).Yields
      assigned () after)
    (calls : assigned.Calls caller entry next)
    (gains : (assigned.closeAll front).Gains caller entry next block) :
    (assigned.closeAll (front ++ caller :: behind)).Flows block next :=
  (flows_closeAll exclusive yields).mpr (Or.inr ⟨front, caller, behind, entry, rfl, calls, gains⟩)

/-- The edges that are added on behalf of a call are those from the returns that the walk for the
call comes to. -/
theorem addsEdge_iff (exclusive : assigned.Exclusive)
    (yields : (Action.forEach (front ++ caller :: back) closeCall).Yields assigned () after)
    (calls : assigned.Calls caller entry continuation) :
    assigned.AddsEdge front caller continuation block ↔
      (assigned.closeAll front).Gains caller entry continuation block := by
  obtain ⟨first, one⟩ := yields_closeAll yields
  have adds := addsReturns_of_forEach exclusive first
  have closes := closesCall_of_yields (adds.exclusive exclusive)
    ((adds.calls_iff exclusive).mpr calls) one
  rw [AddsEdge, ← adds.returnEdge_eq block continuation]
  constructor
  · intro longer
    by_contra outside
    have same := closes.others block outside
    rw [longer] at same
    have lengths := congrArg List.length same
    simp at lengths
  · exact closes.edges block

/-- Control returns from the same blocks while the calls are closed. -/
theorem returnsTo_closeAll_iff (exclusive : assigned.Exclusive)
    (yields : (Action.forEach (front ++ back) closeCall).Yields assigned () after) :
    (assigned.closeAll front).ReturnsTo caller block ↔ after.ReturnsTo caller block := by
  obtain ⟨middle, first, _⟩ := Action.yields_forEach_append.mp yields
  obtain rfl : assigned.closeAll front = middle := first.2
  rw [(addsReturns_of_forEach exclusive first).returnsTo_iff,
    (addsReturns_of_forEach exclusive yields).returnsTo_iff]

/-- Every edge that a call owes is added on its behalf. -/
theorem gains_of_owes (exclusive : assigned.Exclusive)
    (yields : (Action.forEach (front ++ back) closeCall).Yields assigned () after)
    (owes : assigned.Owes after caller entry block) :
    (assigned.closeAll front).Gains caller entry continuation block := by
  refine ⟨(returnsTo_closeAll_iff exclusive yields).mpr owes.1, ?_⟩
  refine Relation.ReflTransGen.mono (fun _ _ flows => Or.inl ?_) _ _ owes.2
  exact (flows_closeAll exclusive yields).mpr (Or.inl flows)

/-- If every call only adds the edges that it owes, then the edges that a call and those before it
owe are among those that the walk for the call follows. -/
theorem gains_of_flowsOwed (exclusive : assigned.Exclusive)
    (yields : (Action.forEach assigned.blocks.toList closeCall).Yields assigned () after)
    (exactly : assigned.ReturnsExactly assigned after)
    (callsAt : assigned.CallsAt front caller entry continuation)
    (returns : after.ReturnsTo caller block)
    (owed : Relation.ReflTransGen (assigned.FlowsOwed after (front ++ [caller])) entry block) :
    (assigned.closeAll front).Gains caller entry continuation block := by
  obtain ⟨⟨back, placed⟩, calls⟩ := callsAt
  have here := yields
  rw [placed] at here
  refine ⟨(returnsTo_closeAll_iff exclusive here).mpr returns,
    Relation.ReflTransGen.mono ?_ _ _ owed⟩
  rintro block next (flows | ⟨other, member, start, callsToo, owes⟩)
  · exact Or.inl ((flows_closeAll exclusive here).mpr (Or.inl flows))
  · rcases List.mem_append.mp member with earlier | last
    · obtain ⟨before, behind, rfl⟩ := List.append_of_mem earlier
      have otherPlaced : assigned.blocks.toList
          = before ++ other :: (behind ++ caller :: back) := by
        rw [placed, List.append_assoc, List.cons_append]
      have otherHere := yields
      rw [otherPlaced] at otherHere
      have adds := (exactly before other start next ⟨⟨_, otherPlaced⟩, callsToo⟩ block).mpr owes
      exact Or.inl (flows_of_gains exclusive here callsToo
        ((addsEdge_iff exclusive otherHere callsToo).mp adds))
    · obtain rfl := List.mem_singleton.mp last
      obtain ⟨-, rfl⟩ := calls.unique callsToo
      exact Or.inr ⟨(returnsTo_closeAll_iff exclusive here).mpr owes.1, rfl⟩

/-- If the edges that are owed lead to no further returns, then every call only adds the edges that
it owes. -/
theorem owes_of_gains (exclusive : assigned.Exclusive)
    (yields : (Action.forEach assigned.blocks.toList closeCall).Yields assigned () after)
    (apart : assigned.ReturnsApart after)
    (callsAt : assigned.CallsAt front caller entry continuation)
    (gains : (assigned.closeAll front).Gains caller entry continuation block) :
    assigned.Owes after caller entry block := by
  -- The walk follows edges that were added for the calls before, which owe them.
  induction count : front.length using Nat.strong_induction_on
    generalizing front caller entry continuation block with
  | _ size ih =>
    obtain ⟨⟨back, placed⟩, calls⟩ := callsAt
    have here := yields
    rw [placed] at here
    have owed {other : Label} (path : Relation.ReflTransGen
        ((assigned.closeAll front).FlowsBack caller continuation) entry other) :
        Relation.ReflTransGen (assigned.FlowsOwed after (front ++ [caller])) entry other := by
      induction path with
      | refl => exact Relation.ReflTransGen.refl
      | @tail reached next _ step reachedOwed =>
        refine reachedOwed.tail ?_
        rcases step with flows | ⟨returns, rfl⟩
        · rcases (flows_closeAll exclusive here).mp flows with
            flows | ⟨before, other, behind, start, rfl, callsToo, gains⟩
          · exact Or.inl flows
          · have otherPlaced : assigned.blocks.toList
                = before ++ other :: (behind ++ caller :: back) := by
              rw [placed, List.append_assoc, List.cons_append]
            have shorter : before.length < size := by
              rw [← count, List.length_append, List.length_cons]
              omega
            have owes := ih before.length shorter ⟨⟨_, otherPlaced⟩, callsToo⟩ gains rfl
            exact Or.inr ⟨other, by simp, start, callsToo, owes⟩
        · have returnsToo := (returnsTo_closeAll_iff exclusive here).mp returns
          have reachable := apart front caller entry next ⟨⟨back, placed⟩, calls⟩ reached returnsToo
            reachedOwed
          exact Or.inr ⟨caller, by simp, entry, calls, returnsToo, reachable⟩
    have returns := (returnsTo_closeAll_iff exclusive here).mp gains.1
    exact ⟨returns, apart front caller entry continuation ⟨⟨back, placed⟩, calls⟩ block returns
      (owed gains.2)⟩

/-- Every call adds exactly the edges that it owes if and only if the edges that are owed lead to no
further returns. -/
theorem returnsExactly_iff_of_forEach (exclusive : assigned.Exclusive)
    (yields : (Action.forEach assigned.blocks.toList closeCall).Yields assigned () after) :
    assigned.ReturnsExactly assigned after ↔ assigned.ReturnsApart after := by
  constructor
  · intro exactly front caller entry continuation callsAt block returns owed
    have gains := gains_of_flowsOwed exclusive yields exactly callsAt returns owed
    obtain ⟨⟨back, placed⟩, calls⟩ := callsAt
    have here := yields
    rw [placed] at here
    have adds := (addsEdge_iff exclusive here calls).mpr gains
    exact ((exactly front caller entry continuation ⟨⟨back, placed⟩, calls⟩ block).mp adds).2
  · intro apart front caller entry continuation callsAt block
    obtain ⟨⟨back, placed⟩, calls⟩ := callsAt
    have here := yields
    rw [placed] at here
    rw [addsEdge_iff exclusive here calls]
    constructor
    · exact owes_of_gains exclusive yields apart ⟨⟨back, placed⟩, calls⟩
    · exact gains_of_owes exclusive here

/-- If every call adds exactly the edges that it owes, control passes on as before, and along the
edges that are owed. -/
theorem flows_iff_of_returnsExactly (exclusive : assigned.Exclusive)
    (yields : (Action.forEach assigned.blocks.toList closeCall).Yields assigned () after)
    (exactly : assigned.ReturnsExactly assigned after) :
    after.Flows block next ↔ assigned.FlowsOwed after assigned.blocks.toList block next := by
  have whole := yields
  rw [← List.append_nil assigned.blocks.toList] at whole
  have closed : assigned.closeAll assigned.blocks.toList = after := yields.2
  rw [← closed, flows_closeAll exclusive whole, closed, FlowsOwed]
  refine or_congr_right ⟨?_, ?_⟩
  · rintro ⟨front, caller, back, entry, placed, calls, gains⟩
    have here := yields
    rw [placed] at here
    have adds := (addsEdge_iff exclusive here calls).mpr gains
    refine ⟨caller, by simp [placed], entry, calls, ?_⟩
    exact (exactly front caller entry next ⟨⟨back, placed⟩, calls⟩ block).mp adds
  · rintro ⟨caller, member, entry, calls, owes⟩
    obtain ⟨front, back, placed⟩ := List.append_of_mem member
    rw [placed] at yields
    exact ⟨front, caller, back, entry, placed, calls, gains_of_owes exclusive yields owes⟩

end Stages

section Assigned

variable {assigned : FlowGraph}

/-- Control passes on as before the blocks were assigned. -/
theorem Assigns.flows_imp (assigns : Assigns before after) (flows : after.Flows block next) :
    before.Flows block next := by
  obtain ⟨node, labels, known, body, member⟩ := flows
  obtain ⟨old, was, same⟩ := assigns.exists_node known
  rw [same] at body
  exact ⟨old, labels, was, body, member⟩

/-- The calls are the same as before the blocks were assigned. -/
theorem Assigns.calls_imp (assigns : Assigns before after)
    (calls : after.Calls caller entry continuation) : before.Calls caller entry continuation := by
  obtain ⟨node, first, second, known, edges, ends⟩ := calls
  obtain ⟨old, was, same⟩ := assigns.exists_node known
  rw [same] at edges
  exact ⟨old, first, second, was, edges, ends⟩

/-- Control passes on as it did, wherever the blocks belong. -/
theorem Assigns.flows_eq (assigns : Assigns before after) : after.Flows = before.Flows := by
  funext block next
  exact propext ⟨assigns.flows_imp, assigns.symm.flows_imp⟩

/-- The calls are the same, wherever the blocks belong. -/
theorem Assigns.calls_eq (assigns : Assigns before after) : after.Calls = before.Calls := by
  funext caller entry continuation
  exact propext ⟨assigns.calls_imp, assigns.symm.calls_imp⟩

/-- Calls and returns stay apart. -/
theorem Assigns.exclusive (assigns : Assigns before after) (exclusive : before.Exclusive) :
    after.Exclusive := by
  intro label node known calls
  obtain ⟨old, was, same⟩ := assigns.exists_node known
  rw [same] at calls ⊢
  exact exclusive label old was calls

/-- The calls owe the same edges, wherever the blocks belong at first. -/
theorem Assigns.flowsOwed_eq (assigns : Assigns before after) (closed : FlowGraph)
    (callers : List Label) : after.FlowsOwed closed callers = before.FlowsOwed closed callers := by
  funext block next
  simp only [FlowsOwed, Owes, assigns.flows_eq, assigns.calls_eq]

/-- Every call adds what it owes or not, wherever the blocks belong at first. -/
theorem Assigns.exactly_iff (assigns : Assigns before after) {closed : FlowGraph} :
    after.ReturnsExactly assigned closed ↔ before.ReturnsExactly assigned closed := by
  simp only [ReturnsExactly, CallsAt, Owes, assigns.flows_eq, assigns.calls_eq, assigns.blocks]

/-- What is owed leads to more returns or not, wherever the blocks belong at first. -/
theorem Assigns.apart_iff (assigns : Assigns before after) {closed : FlowGraph} :
    after.ReturnsApart closed ↔ before.ReturnsApart closed := by
  simp only [ReturnsApart, CallsAt, assigns.flowsOwed_eq, assigns.flows_eq, assigns.calls_eq,
    assigns.blocks]

/-- The analysis of subroutines adds, for every call, an edge to its continuation from each return
of another subroutine that the call leads to. It adds no other edges on behalf of any call if and
only if the edges that are owed do not lead a call to any more returns. -/
theorem returnsExactly_iff {count : Nat} (exclusive : graph.Exclusive)
    (yields : analyzeSubroutines.Yields graph count after) :
    ∃ assigned, Assigns graph assigned ∧ assigned.closeAll graph.blocks.toList = after ∧
      (∀ front caller entry continuation, graph.CallsAt front caller entry continuation →
        ∀ block, graph.Owes after caller entry block →
          assigned.AddsEdge front caller continuation block) ∧
      (graph.ReturnsExactly assigned after ↔ graph.ReturnsApart after) := by
  obtain ⟨assigned, assigns, closes⟩ := of_yields_analyzeSubroutines yields
  have exclusiveToo := assigns.exclusive exclusive
  have flows := assigns.flows_eq
  have calls := assigns.calls_eq
  refine ⟨assigned, assigns, closes.2, ?_, ?_⟩
  · intro front caller entry continuation callsAt block owes
    obtain ⟨⟨back, placed⟩, callsHere⟩ := callsAt
    rw [placed] at closes
    rw [← calls] at callsHere
    rw [Owes, ← flows] at owes
    exact (addsEdge_iff exclusiveToo closes callsHere).mpr (gains_of_owes exclusiveToo closes owes)
  · rw [← assigns.blocks] at closes
    rw [← assigns.exactly_iff, ← assigns.apart_iff]
    exact returnsExactly_iff_of_forEach exclusiveToo closes

end Assigned

/-- Blocks that call do not return, if that is so for each label. -/
theorem exclusive_of_forall (rows : ∀ node ∈ graph.nodes.toList,
    node.flags.callsSubroutine = true → node.flags.endsSubroutine = false) : graph.Exclusive :=
  fun _ node known => rows node (Array.mem_toList_iff.mpr (Array.mem_of_getElem? known))

/-- What holds of the edges of every call holds of the entry and the continuation of a call. -/
theorem Calls.of_forall (claim : Label → Label → Prop)
    (calls : graph.Calls caller entry continuation)
    (rows : ∀ node ∈ graph.nodes.toList, ∀ edges ∈ node.callEdges.toOption,
      claim edges.2.successor edges.1.successor) : claim entry continuation := by
  obtain ⟨node, first, second, known, edges, rfl, rfl⟩ := calls
  refine rows node (Array.mem_toList_iff.mpr (Array.mem_of_getElem? known)) (first, second) ?_
  rw [edges]
  exact Option.mem_some_self _

/-- A block from which control returns has a label that was created, and ends with a return. -/
theorem ReturnsTo.ends (returns : graph.ReturnsTo caller block) :
    block.index < graph.nodes.size ∧
      (graph.node? block).any (·.flags.endsSubroutine) = true := by
  obtain ⟨node, known, back⟩ := returns
  have ends := Node.endsSubroutine_of_returnsFromOther back
  exact ⟨(Array.getElem?_eq_some_iff.mp known).1, by simp [known, ends]⟩

/-- From a block without edges that does not call, control comes to no other block. -/
theorem eq_of_reaches (isolated : (graph.node? block).any fun node =>
      !node.flags.callsSubroutine && node.edges.isEmpty)
    (reaches : Relation.ReflTransGen graph.Flows block next) : block = next := by
  obtain ⟨node, known, alone⟩ := (Option.any_eq_true _ _).mp isolated
  simp only [Bool.and_eq_true, Bool.not_eq_true', List.isEmpty_iff] at alone
  rcases reaches.cases_head with same | ⟨other, flows, _⟩
  · exact same
  · have leads := (flows_iff_of_plain known alone.1).mp flows
    simp [alone.2] at leads

end FlowGraph

namespace Assembler

open FlowGraph

/-- A call of a subroutine that returns. -/
def singleCall : Assembler :=
  (start { computeMaxima := false } 0).afterAll
    [.freshLabel, .jump Opcode.jsr ⟨1⟩, .instruction [0xb1] 0, .place ⟨1⟩,
      .localInstruction (.store .reference 1), .localInstruction (.ret 1)]

/-- The subroutine returns to the continuation of the call, and no other edge is added. -/
theorem returnsExactly_singleCall :
    ∃ after assigned, analyzeSubroutines.Yields singleCall.closeBlock.graph 2 after ∧
      Assigns singleCall.closeBlock.graph assigned ∧
      assigned.closeAll [⟨0⟩, ⟨2⟩, ⟨1⟩] = after ∧
      singleCall.closeBlock.graph.ReturnsExactly assigned after ∧
      after.edgesOf ⟨1⟩ = [⟨.jump (-1), ⟨2⟩⟩] := by
  have exclusive : singleCall.closeBlock.graph.Exclusive := exclusive_of_forall (by decide +kernel)
  have yields : analyzeSubroutines.Yields singleCall.closeBlock.graph 2
      (analyzeSubroutines.run singleCall.closeBlock.graph).state := ⟨by decide +kernel, rfl⟩
  have apart : singleCall.closeBlock.graph.ReturnsApart
      (analyzeSubroutines.run singleCall.closeBlock.graph).state := by
    intro front caller entry continuation callsAt block returns _
    have start : entry = ⟨1⟩ :=
      callsAt.2.of_forall (fun entry _ => entry = ⟨1⟩) (by decide +kernel)
    obtain ⟨known, ends⟩ := returns.ends
    have only : ∀ index < (analyzeSubroutines.run singleCall.closeBlock.graph).state.nodes.size,
        ((analyzeSubroutines.run singleCall.closeBlock.graph).state.node? ⟨index⟩).any
          (·.flags.endsSubroutine) = true → index = 1 := by decide +kernel
    have same : block = ⟨1⟩ := congrArg Label.mk (only block.index known ends)
    rw [start, same]
  have blocks : singleCall.closeBlock.graph.blocks.toList = [⟨0⟩, ⟨2⟩, ⟨1⟩] := by decide +kernel
  obtain ⟨assigned, assigns, closes, -, exactly⟩ := returnsExactly_iff exclusive yields
  rw [blocks] at closes
  exact ⟨_, assigned, yields, assigns, closes, exactly.mpr apart, by decide +kernel⟩

/-- The body of the method calls two subroutines one after the other, and the first calls the
second. -/
def nestedCalls : Assembler :=
  (start { computeMaxima := false } 0).afterAll
    [.freshLabel, .freshLabel, .freshLabel, .jump Opcode.jsr ⟨1⟩, .jump Opcode.goto ⟨2⟩,
      .place ⟨1⟩, .localInstruction (.store .reference 1), .jump Opcode.jsr ⟨3⟩,
      .localInstruction (.ret 1), .place ⟨2⟩, .jump Opcode.jsr ⟨3⟩, .instruction [0xb1] 0,
      .place ⟨3⟩, .localInstruction (.store .reference 2), .localInstruction (.ret 2)]

/-- The first subroutine is made to return behind the second call of the body, which is not a call
of that subroutine and does not lead to its return. -/
theorem not_returnsExactly_nestedCalls :
    ∃ code, (finish.run nestedCalls).answer = .ok code ∧
      analyzeSubroutines.Yields nestedCalls.closeBlock.graph 3 code.graph ∧
      nestedCalls.closeBlock.graph.Exclusive ∧
      (∀ label, nestedCalls.closeBlock.graph.subroutineOf label = none) ∧
      ∃ assigned, Assigns nestedCalls.closeBlock.graph assigned ∧
        assigned.closeAll nestedCalls.closeBlock.graph.blocks.toList = code.graph ∧
        ¬nestedCalls.closeBlock.graph.ReturnsExactly assigned code.graph := by
  obtain ⟨code, found, same, leads, fresh⟩ :
      ∃ code ∈ (finish.run nestedCalls).answer.toOption,
        (analyzeSubroutines.run nestedCalls.closeBlock.graph).state = code.graph ∧
        (code.graph.node? ⟨5⟩).any (fun node => !node.flags.callsSubroutine &&
          (node.edges.map (·.successor)).contains ⟨6⟩) ∧
        (nestedCalls.closeBlock.graph.node? ⟨5⟩).any (fun node => !node.flags.callsSubroutine &&
          node.edges.isEmpty) := by
    decide +kernel
  have finished := eq_ok_of_mem_toOption found
  have exclusive : nestedCalls.closeBlock.graph.Exclusive := exclusive_of_forall (by decide +kernel)
  have yields : analyzeSubroutines.Yields nestedCalls.closeBlock.graph 3 code.graph :=
    ⟨by decide +kernel, same⟩
  obtain ⟨assigned, assigns, closes⟩ := of_yields_analyzeSubroutines yields
  have unassigned (label : Label) : nestedCalls.closeBlock.graph.subroutineOf label = none := by
    rw [subroutineOf, Option.bind_eq_none_iff]
    have rows : ∀ node ∈ nestedCalls.closeBlock.graph.nodes.toList, node.subroutine = none := by
      decide +kernel
    exact fun node known => rows node (Array.mem_toList_iff.mpr (Array.mem_of_getElem? known))
  refine ⟨code, finished, yields, exclusive, unassigned, assigned, assigns, closes.2,
    fun exactly => ?_⟩
  have passes : code.graph.Flows ⟨5⟩ ⟨6⟩ := by
    obtain ⟨node, known, row⟩ := (Option.any_eq_true _ _).mp leads
    simp only [Bool.and_eq_true, Bool.not_eq_true', List.contains_iff_mem] at row
    exact (flows_iff_of_plain known row.1).mpr row.2
  rw [← assigns.exactly_iff] at exactly
  rw [← assigns.blocks] at closes
  have owed := (flows_iff_of_returnsExactly (assigns.exclusive exclusive) closes exactly).mp passes
  rw [assigns.flowsOwed_eq] at owed
  rcases owed with flows | ⟨caller, _, entry, calls, _, reaches⟩
  · have stays := eq_of_reaches fresh (Relation.ReflTransGen.single flows)
    exact absurd stays (by decide)
  · have start : entry = ⟨3⟩ :=
      calls.of_forall (fun entry continuation => continuation = ⟨6⟩ → entry = ⟨3⟩)
        (by decide +kernel) rfl
    rw [start] at reaches
    have stays := eq_of_reaches (by decide +kernel) reaches
    exact absurd stays (by decide)

end Assembler

end MethodBody
