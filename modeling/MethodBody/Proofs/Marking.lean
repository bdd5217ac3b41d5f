import MethodBody.FlowGraph.Subroutine
import MethodBody.Proofs.Outcome

/-!
# How blocks are assigned to subroutines

The analysis of subroutines works in two steps. The first assigns blocks to subroutines and changes
nothing else (`Assigns`); the second adds edges for one call after the other
(`of_yields_analyzeSubroutines`).
-/

namespace MethodBody

/-- What is known about a block, besides the subroutine that it belongs to. -/
def Node.unassigned (node : Node) : Node := { node with subroutine := none }

namespace FlowGraph

section Follows

variable {relation : FlowGraph → FlowGraph → Prop} [IsPreorder FlowGraph relation]

/-- Marking the subroutine that a block calls does what marking a subroutine does. -/
theorem follows_markCallee
    (marks : ∀ entry subroutine, Action.Follows relation (mark entry subroutine))
    (current last : SubroutineId) (block : Label) :
    Action.Follows relation (markCallee current last block) := by
  refine .bind (.of_state fun _ => rfl) fun node => ?_
  split
  · refine .bind (.bind (.of_state fun _ => rfl) fun _ => .of_state fun _ => rfl) fun entry =>
      .bind (.of_state fun _ => rfl) fun other => ?_
    split
    · exact .bind (marks _ _) fun _ => .of_state fun _ => rfl
    · exact .of_state fun _ => rfl
  · exact .of_state fun _ => rfl

/-- Marking the subroutines that blocks call does what marking one subroutine after the other
does. -/
theorem follows_markCallees
    (marks : ∀ entry subroutine, Action.Follows relation (mark entry subroutine))
    (blocks : List Label) (last current : SubroutineId) :
    Action.Follows relation (markCallees blocks last current) := by
  unfold markCallees
  split
  · exact .fold _ (fun block _ reached => follows_markCallee marks current reached block) _
  · exact .of_state fun _ => rfl

/-- Closing a call does what adding its edges does. -/
theorem follows_closeCall
    (returns : ∀ entry caller, Action.Follows relation (addReturns entry caller))
    (block : Label) : Action.Follows relation (closeCall block) := by
  refine .bind (.of_state fun _ => rfl) fun node => ?_
  split
  · exact .bind (.bind (.of_state fun _ => rfl) fun _ => .of_state fun _ => rfl) fun entry =>
      .bind (returns entry block) fun _ => .of_state fun _ => rfl
  · exact .of_state fun _ => rfl

end Follows

/-- Blocks were assigned to subroutines, and nothing else has changed. -/
structure Assigns (before after : FlowGraph) : Prop where
  /-- The blocks are the same. -/
  blocks : after.blocks = before.blocks
  /-- What is known about each label is the same, besides its subroutine. -/
  nodes : ∀ label,
    (after.node? label).map Node.unassigned = (before.node? label).map Node.unassigned

/-- Doing nothing assigns no block. -/
theorem Assigns.refl (graph : FlowGraph) : Assigns graph graph := ⟨rfl, fun _ => rfl⟩

/-- Blocks can be assigned in two steps. -/
theorem Assigns.trans (first second third : FlowGraph) (one : Assigns first second)
    (two : Assigns second third) : Assigns first third :=
  ⟨two.blocks.trans one.blocks, fun label => (two.nodes label).trans (one.nodes label)⟩

instance : IsPreorder FlowGraph Assigns where
  refl := Assigns.refl
  trans := Assigns.trans

/-- A known label was known before, and all but its subroutine was the same. -/
theorem Assigns.exists_node {before after : FlowGraph} (assigns : Assigns before after)
    {label : Label} {node : Node} (known : after.node? label = some node) :
    ∃ old, before.node? label = some old ∧ node = { old with subroutine := node.subroutine } := by
  have same := assigns.nodes label
  rw [known, Option.map_some] at same
  obtain ⟨old, was, equal⟩ := Option.map_eq_some_iff.mp same.symm
  refine ⟨old, was, ?_⟩
  have back : node = { node.unassigned with subroutine := node.subroutine } := rfl
  rw [back, ← equal]
  rfl

/-- Assigning can be undone as far as anything but subroutines is concerned. -/
theorem Assigns.symm {before after : FlowGraph} (assigns : Assigns before after) :
    Assigns after before :=
  ⟨assigns.blocks.symm, fun label => (assigns.nodes label).symm⟩

/-- Assigning the blocks that an entry reaches changes nothing else. -/
theorem assigns_mark (entry : Label) (subroutine : SubroutineId) :
    Action.Follows Assigns (mark entry subroutine) := by
  refine .bind (.of_state fun _ => rfl) fun sweep => .bind (.of_state fun _ => rfl) fun region =>
    .bind (.of_modify fun graph => ?_) fun _ => .bind (.of_state ?_) fun _ =>
      .bind (.of_state fun _ => rfl) fun _ => .of_state fun _ => rfl
  · unfold updateAll
    induction region generalizing graph with
    | nil => exact Assigns.refl graph
    | cons label rest ih =>
      have first : Assigns graph
          (graph.update label fun node => { node with subroutine := some subroutine }) := by
        refine ⟨rfl, fun other => ?_⟩
        rw [node?_update]
        split
        · rw [Option.map_map]
          rfl
        · rfl
      exact Assigns.trans _ _ _ first (ih _)
  · cases sweep.failure <;> exact fun _ => rfl

/-- The analysis of a graph with a first block first assigns blocks to subroutines, and then adds
the edges for one block after the other. -/
theorem of_yields_analyzeSubroutines {graph after : FlowGraph} {count : Nat}
    (yields : analyzeSubroutines.Yields graph count after) :
    ∃ assigned, Assigns graph assigned ∧
      (Action.forEach graph.blocks.toList closeCall).Yields assigned () after := by
  unfold analyzeSubroutines at yields
  obtain ⟨first?, middle, inspected, rest⟩ := Action.yields_bind.mp yields
  obtain ⟨rfl, rfl⟩ := Action.yields_inspect.mp inspected
  cases first : graph.firstBlock? with
  | none =>
    simp only [first, Action.yields_pure] at rest
    obtain ⟨-, rfl⟩ := rest
    have none : graph.blocks.toList = [] := by
      rw [firstBlock?, Array.getElem?_eq_none_iff] at first
      simpa using first
    rw [none]
    exact ⟨graph, Assigns.refl graph, rfl, rfl⟩
  | some label =>
    simp only [first] at rest
    obtain ⟨_, marked, marks, rest⟩ := Action.yields_bind.mp rest
    obtain ⟨blocks, _, inspected, rest⟩ := Action.yields_bind.mp rest
    obtain ⟨rfl, rfl⟩ := Action.yields_inspect.mp inspected
    obtain ⟨ids, _, inspected, rest⟩ := Action.yields_bind.mp rest
    obtain ⟨rfl, rfl⟩ := Action.yields_inspect.mp inspected
    obtain ⟨last, assigned, folds, rest⟩ := Action.yields_bind.mp rest
    obtain ⟨_, closed, closes, rest⟩ := Action.yields_bind.mp rest
    obtain ⟨-, rfl⟩ := Action.yields_pure.mp rest
    have main := (assigns_mark label .main).of_yields marks
    have callees := (Action.Follows.fold (subroutineIds marked)
      (fun current _ last => follows_markCallees assigns_mark marked.blocks.toList last current)
      SubroutineId.main).of_yields folds
    rw [← main.blocks]
    exact ⟨assigned, Assigns.trans _ _ _ main callees, closes⟩

end FlowGraph

end MethodBody
