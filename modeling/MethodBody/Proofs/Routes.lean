import MethodBody.Proofs.Calls
import Mathlib.Data.Set.Card

/-!
# Routes through a flow graph

A block that calls a subroutine has two edges for the one call, and control never takes both. On its
way through the method it takes the edge into the subroutine, and within one subroutine it takes the
edge to the continuation. So each analysis leaves out one of the two (`FlowGraph.LeavesBut`): the
first edge of a call when it looks for stack heights, and the second when it looks for subroutines.
-/

namespace MethodBody

namespace Node

variable {node : Node} {edge : Edge} {place : Nat}

/-- The edge is one of the block, and not the one at the place that is left out if the block
calls. -/
def OffersBut (node : Node) (place : Nat) (edge : Edge) : Prop :=
  ∃ index, node.edges[index]? = some edge ∧ (node.flags.callsSubroutine = true → index ≠ place)

/-- The block calls a subroutine and does not have the two edges of a call. -/
def LacksCallEdges (node : Node) : Prop :=
  node.flags.callsSubroutine = true ∧ node.edges.length < 2

instance (node : Node) : Decidable node.LacksCallEdges := inferInstanceAs (Decidable (_ ∧ _))

/-- A block that does not call offers all its edges, and one that calls all but the one left out. -/
theorem offersBut_iff : node.OffersBut place edge ↔
    edge ∈ if node.flags.callsSubroutine = true then node.edges.eraseIdx place else node.edges := by
  split
  · rename_i calls
    rw [List.mem_eraseIdx_iff_getElem?]
    exact exists_congr fun index => ⟨fun ⟨found, other⟩ => ⟨other calls, found⟩,
      fun ⟨other, found⟩ => ⟨found, fun _ => other⟩⟩
  · rename_i plain
    rw [List.mem_iff_getElem?]
    exact exists_congr fun index => and_iff_left fun calls => absurd calls plain

/-- The edges that control takes are those that the block offers, but for the first of a call. -/
theorem mem_flowEdges_iff : edge ∈ node.flowEdges ↔ node.OffersBut 0 edge := by
  rw [offersBut_iff, flowEdges]
  simp only [List.drop_one, List.eraseIdx_zero]

/-- Successors within a subroutine are at the ends of the edges that the block offers, but for the
second of a call. -/
theorem bodySuccessors_of_complete (complete : ¬node.LacksCallEdges) :
    ∃ labels, node.bodySuccessors = .ok labels ∧
      ∀ next, next ∈ labels ↔ ∃ edge, node.OffersBut 1 edge ∧ edge.successor = next := by
  have ends (edges : List Edge) (next : Label) :
      next ∈ edges.map (·.successor) ↔ ∃ edge ∈ edges, edge.successor = next := List.mem_map
  cases calls : node.flags.callsSubroutine with
  | false =>
    refine ⟨_, bodySuccessors_of_plain calls, fun next => ?_⟩
    simp only [offersBut_iff, calls, Bool.false_eq_true, if_false, ends]
  | true =>
    have long : 2 ≤ node.edges.length := Nat.not_lt.mp fun short => complete ⟨calls, short⟩
    rcases edges : node.edges with _ | ⟨continuation, _ | ⟨entry, others⟩⟩
    · simp [edges] at long
    · simp [edges] at long
    · have called : node.callEdges = .ok (continuation, entry) := by rw [callEdges, calls, edges]
      refine ⟨(node.edges.eraseIdx 1).map (·.successor), ?_, fun next => ?_⟩
      · rw [bodySuccessors, if_pos calls, called]
        rfl
      · simp only [offersBut_iff, calls, if_true, ends]

/-- A block without the edges of a call is refused. -/
theorem bodySuccessors_of_lacks (lacks : node.LacksCallEdges) :
    node.bodySuccessors = .error (.malformedCaller node.label node.edges.length) := by
  obtain ⟨calls, short⟩ := lacks
  have refused : node.callEdges = .error node.malformed := by
    rcases edges : node.edges with _ | ⟨only, _ | ⟨second, others⟩⟩
    · simp [callEdges, edges]
    · simp [callEdges, edges]
    · simp only [edges, List.length_cons] at short
      omega
  rw [bodySuccessors, if_pos calls, refused]
  rfl

end Node

namespace FlowGraph

variable {graph : FlowGraph} {block next : Label} {node : Node} {edge : Edge} {place : Nat}

/-- The edge leaves the block, and is not the one at the place that is left out if the block
calls. -/
def LeavesBut (graph : FlowGraph) (place : Nat) (block : Label) (edge : Edge) : Prop :=
  ∃ node, graph.node? block = some node ∧ node.OffersBut place edge

/-- An edge leads from one block to another, and is not the one that is left out. -/
def LeadsBut (graph : FlowGraph) (place : Nat) (block next : Label) : Prop :=
  ∃ edge, graph.LeavesBut place block edge ∧ edge.successor = next

/-- Edges lead from one block to another, none of which is left out. -/
abbrev ReachesBut (graph : FlowGraph) (place : Nat) : Label → Label → Prop :=
  Relation.ReflTransGen (graph.LeadsBut place)

/-- The edges that leave a known block are those that it offers. -/
theorem leavesBut_iff_of_known (known : graph.node? block = some node) :
    graph.LeavesBut place block edge ↔ node.OffersBut place edge := by
  rw [LeavesBut, known]
  simp only [Option.some.injEq, exists_eq_left']

/-- What is known about a label is one of the nodes. -/
theorem mem_nodes_of_known (known : graph.node? block = some node) : node ∈ graph.nodes.toList :=
  Array.mem_toList_iff.mpr (Array.mem_of_getElem? known)

/-- An edge leads to a label that exists if all edges do. -/
theorem LeadsBut.isSome (leads : graph.LeadsBut place block next)
    (rows : ∀ node ∈ graph.nodes.toList, ∀ edge ∈ node.edges, (graph.node? edge.successor).isSome) :
    (graph.node? next).isSome := by
  obtain ⟨edge, ⟨node, known, index, found, -⟩, rfl⟩ := leads
  exact rows node (mem_nodes_of_known known) edge (List.mem_of_getElem? found)

/-- A list in which no label stands twice is as long as there are such labels. -/
theorem length_eq_ncard {labels : List Label} {members : Set Label} (distinct : labels.Nodup)
    (same : ∀ label, label ∈ labels ↔ label ∈ members) : labels.length = members.ncard := by
  have equal : members = ↑labels.toFinset := by
    ext label
    rw [List.coe_toFinset]
    exact (same label).symm
  rw [equal, Set.ncard_coe_finset, List.toFinset_card_of_nodup distinct]

/-- Control passes on within a subroutine along the edges but for the second of a call. -/
theorem flows_iff_of_complete (known : graph.node? block = some node)
    (complete : ¬node.LacksCallEdges) : graph.Flows block next ↔ graph.LeadsBut 1 block next := by
  obtain ⟨labels, body, ends⟩ := Node.bodySuccessors_of_complete complete
  simp only [Flows, LeadsBut, leavesBut_iff_of_known known, known,
    Option.some.injEq, exists_and_left, exists_eq_left', body, Except.ok.injEq, ends]

end FlowGraph

end MethodBody
