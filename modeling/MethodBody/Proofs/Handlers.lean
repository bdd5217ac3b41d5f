import MethodBody.Proofs.Finishing
import MethodBody.Proofs.Layout

/-!
# Edges to handlers

The blocks between the bounds of a protected range get an edge to its handler
(`mem_edgesOf_of_forEach`), and nothing else about the flow changes (`AddsHandlers`).
-/

namespace MethodBody

namespace FlowGraph

/-- Nothing changes about the flow but that edges to handlers are added. -/
structure AddsHandlers (before after : FlowGraph) : Prop where
  /-- The blocks are the same. -/
  blocks : after.blocks = before.blocks
  /-- The flags of labels are the same. -/
  flags : ∀ label, (after.node? label).map Node.flags = (before.node? label).map Node.flags
  /-- The peaks are the same. -/
  peaks : after.peakOf = before.peakOf
  /-- No edge is lost. -/
  kept : ∀ label edge, edge ∈ before.edgesOf label → edge ∈ after.edgesOf label
  /-- Every new edge leads to a handler. -/
  new : ∀ label edge, edge ∈ after.edgesOf label →
    edge ∈ before.edgesOf label ∨ edge.transfer = .exception

/-- Nothing is added. -/
theorem AddsHandlers.refl (graph : FlowGraph) : AddsHandlers graph graph :=
  ⟨rfl, fun _ => rfl, rfl, fun _ _ member => member, fun _ _ member => .inl member⟩

/-- Handlers are added in two steps. -/
theorem AddsHandlers.trans (first second third : FlowGraph) (one : AddsHandlers first second)
    (two : AddsHandlers second third) : AddsHandlers first third where
  blocks := two.blocks.trans one.blocks
  flags label := (two.flags label).trans (one.flags label)
  peaks := two.peaks.trans one.peaks
  kept label edge member := two.kept label edge (one.kept label edge member)
  new label edge member := by
    rcases two.new label edge member with before | handles
    · exact one.new label edge before
    · exact .inr handles

instance : IsPreorder FlowGraph AddsHandlers where
  refl := AddsHandlers.refl
  trans := AddsHandlers.trans

/-- A label keeps its flags. -/
theorem AddsHandlers.plain {before after : FlowGraph} (adds : AddsHandlers before after)
    (plain : ∀ label node, before.node? label = some node → node.flags.callsSubroutine = false) :
    ∀ label node, after.node? label = some node → node.flags.callsSubroutine = false := by
  intro label node known
  have same := adds.flags label
  rw [known] at same
  obtain ⟨old, was, flags⟩ := Option.map_eq_some_iff.mp same.symm
  rw [← flags, plain label old was]

/-- A block that gets an edge to a handler keeps everything else. -/
theorem of_addHandler {node revised : Node} {handler : Label}
    (accepted : node.addHandler handler = .ok revised) :
    revised.flags = node.flags ∧ revised.peakHeight = node.peakHeight ∧
      ⟨.exception, handler⟩ ∈ revised.edges ∧ (∀ edge ∈ node.edges, edge ∈ revised.edges) ∧
      ∀ edge ∈ revised.edges, edge ∈ node.edges ∨ edge.transfer = .exception := by
  have perm := perm_of_addHandler accepted
  have same : revised.flags = node.flags ∧ revised.peakHeight = node.peakHeight := by
    unfold Node.addHandler at accepted
    split at accepted
    · obtain rfl := Except.ok.inj accepted
      exact ⟨rfl, rfl⟩
    · obtain rfl := Except.ok.inj accepted
      exact ⟨rfl, rfl⟩
    · simp at accepted
  refine ⟨same.1, same.2, perm.mem_iff.mpr List.mem_cons_self,
    fun edge member => perm.mem_iff.mpr (List.mem_cons_of_mem _ member), fun edge member => ?_⟩
  rcases List.mem_cons.mp (perm.mem_iff.mp member) with rfl | old
  · exact .inr rfl
  · exact .inl old

/-- A block gets an edge to a handler, if the edge can be added at all. -/
theorem addsHandlers_update {graph : FlowGraph} {block handler : Label} {node revised : Node}
    (known : graph.node? block = some node) (accepted : node.addHandler handler = .ok revised) :
    AddsHandlers graph (graph.update block fun _ => revised) ∧
      ⟨.exception, handler⟩ ∈ (graph.update block fun _ => revised).edgesOf block := by
  obtain ⟨flags, peak, handles, kept, new⟩ := of_addHandler accepted
  have revisedEdges : (graph.update block fun _ => revised).edgesOf block = revised.edges := by
    simp [edgesOf, node?_update, known]
  have edges : graph.edgesOf block = node.edges := by simp [edgesOf, known]
  have others (label : Label) (other : block ≠ label) :
      (graph.update block fun _ => revised).edgesOf label = graph.edgesOf label := by
    simp [edgesOf, node?_update, other]
  refine ⟨⟨rfl, ?_, ?_, ?_, ?_⟩, by rw [revisedEdges]; exact handles⟩
  · intro label
    by_cases same : block = label
    · subst same
      simp [node?_update, known, flags]
    · simp [node?_update, same]
  · funext label
    by_cases same : block = label
    · subst same
      simp [peakOf, node?_update, known, peak]
    · simp [peakOf, node?_update, same]
  · intro label edge member
    by_cases same : block = label
    · subst same
      rw [revisedEdges]
      exact kept edge (edges ▸ member)
    · rw [others label same]
      exact member
  · intro label edge member
    by_cases same : block = label
    · subst same
      rw [edges]
      exact new edge (revisedEdges ▸ member)
    · exact .inl (others label same ▸ member)

/-- Adding an edge to a handler adds nothing but the edge, also when it fails. -/
theorem addsHandlers_addHandler (block handler : Label) :
    Action.Follows AddsHandlers (addHandler block handler) := by
  intro graph
  cases known : graph.node? block with
  | none =>
    have refused : ((addHandler block handler).run graph).state = graph := by
      simp [addHandler, revise, node, known, bind, Except.bind]
    rw [refused]
    exact AddsHandlers.refl graph
  | some node =>
    cases accepted : node.addHandler handler with
    | error cause =>
      rw [addHandler, run_revise_of_refused known accepted]
      exact AddsHandlers.refl graph
    | ok revised =>
      rw [addHandler, run_revise known accepted]
      exact (addsHandlers_update known accepted).1

/-- A block that an edge to a handler could be added to has it. -/
theorem mem_edgesOf_of_addHandler {graph after : FlowGraph} {block handler : Label} {answer : Unit}
    (yields : (addHandler block handler).Yields graph answer after) :
    ⟨.exception, handler⟩ ∈ after.edgesOf block := by
  have led := yields.2
  unfold addHandler revise at yields
  simp only [Action.yields_bind, Action.yields_read, Action.yields_modify] at yields
  obtain ⟨revised, _, ⟨found, rfl⟩, rfl⟩ := yields
  obtain ⟨node, looked, accepted⟩ := bind_eq_ok.mp found
  exact (addsHandlers_update (known_of_node looked) accepted).2

/-- The label is one of the blocks from one index up to another. -/
def LiesBetween (graph : FlowGraph) (first last : Nat) (label : Label) : Prop :=
  ∃ index : Nat, first ≤ index ∧ index < last ∧ graph.blocks[index]? = some label

/-- The blocks from one index up to another. -/
theorem mem_extract_iff {graph : FlowGraph} {first last : Nat} {label : Label} :
    label ∈ (graph.blocks.extract first last).toList ↔ graph.LiesBetween first last label := by
  rw [Array.mem_toList_iff, Array.mem_extract_iff_getElem]
  constructor
  · rintro ⟨index, inside, here⟩
    refine ⟨first + index, by omega, by omega, ?_⟩
    rw [Array.getElem?_eq_getElem (by omega), here]
  · rintro ⟨index, behind, before, here⟩
    obtain ⟨inside, here⟩ := Array.getElem?_eq_some_iff.mp here
    refine ⟨index - first, by omega, ?_⟩
    have same : first + (index - first) = index := by omega
    simp only [same]
    exact here

end FlowGraph

namespace Assembler

/-- A label is at the place where it was found. -/
theorem getElem?_of_idxOf? {labels : Array Label} {label : Label} {index : Nat}
    (found : labels.idxOf? label = some index) : labels[index]? = some label := by
  obtain ⟨list⟩ := labels
  rw [List.idxOf?_toArray] at found
  obtain ⟨inside, here, _⟩ := List.idxOf?_eq_some_iff.mp found
  simp [inside, here]

/-- The blocks that a handler protects are those between its bounds. -/
theorem exists_of_protectedBlocks {graph : FlowGraph} {handler : Handler} {blocks : List Label}
    (found : protectedBlocks graph handler = .ok blocks) :
    ∃ first last : Nat, first < last ∧ graph.blocks[first]? = some handler.start ∧
      graph.blocks[last]? = some handler.stop ∧
      blocks = (graph.blocks.extract first last).toList := by
  unfold protectedBlocks at found
  split at found
  · rename_i first last starts stops
    split at found
    · rename_i ordered
      exact ⟨first, last, ordered, getElem?_of_idxOf? starts, getElem?_of_idxOf? stops,
        (Except.ok.inj found).symm⟩
    · simp at found
  · simp at found

/-- Protecting blocks adds nothing but edges to the handler, also when it fails. -/
theorem addsHandlers_addHandlerEdges (handler : Handler) :
    Action.Follows FlowGraph.AddsHandlers (addHandlerEdges handler) :=
  .bind (.of_state fun _ => rfl) fun blocks =>
    .forEach blocks fun block _ => FlowGraph.addsHandlers_addHandler block handler.handler

/-- Each of the blocks gets an edge to the handler. -/
theorem mem_edgesOf_of_forEach_addHandler {graph after : FlowGraph} {blocks : List Label}
    {handler : Label} {answer : Unit}
    (yields : (Action.forEach blocks fun block => FlowGraph.addHandler block handler).Yields graph
      answer after) : ∀ block ∈ blocks, ⟨.exception, handler⟩ ∈ after.edgesOf block := by
  induction blocks generalizing graph with
  | nil => simp
  | cons first rest ih =>
    obtain ⟨middle, one, others⟩ := Action.yields_forEach_cons.mp yields
    intro block member
    rcases List.mem_cons.mp member with rfl | later
    · have kept : FlowGraph.AddsHandlers middle after :=
        (Action.Follows.forEach rest
          fun other _ => FlowGraph.addsHandlers_addHandler other handler).of_yields others
      exact kept.kept _ _ (FlowGraph.mem_edgesOf_of_addHandler one)
    · exact ih others block later

/-- Each block between the bounds of a protected range gets an edge to its handler. -/
theorem mem_edgesOf_of_forEach {graph after : FlowGraph} {handlers : List Handler} {answer : Unit}
    (yields : (Action.forEach handlers addHandlerEdges).Yields graph answer after) :
    FlowGraph.AddsHandlers graph after ∧ ∀ handler ∈ handlers, ∃ blocks,
      protectedBlocks graph handler = .ok blocks ∧
        ∀ block ∈ blocks, ⟨.exception, handler.handler⟩ ∈ after.edgesOf block := by
  induction handlers generalizing graph with
  | nil =>
    obtain rfl := (Action.yields_pure.mp yields).2
    exact ⟨FlowGraph.AddsHandlers.refl graph, by simp⟩
  | cons first rest ih =>
    obtain ⟨middle, one, others⟩ := Action.yields_forEach_cons.mp yields
    obtain ⟨later, protect⟩ := ih others
    have now : FlowGraph.AddsHandlers graph middle :=
      (addsHandlers_addHandlerEdges first).of_yields one
    refine ⟨now.trans _ _ _ later, ?_⟩
    intro handler member
    rcases List.mem_cons.mp member with rfl | after
    · unfold addHandlerEdges at one
      simp only [Action.yields_bind, Action.yields_read] at one
      obtain ⟨blocks, _, ⟨found, rfl⟩, each⟩ := one
      exact ⟨blocks, found, fun block inside =>
        later.kept _ _ (mem_edgesOf_of_forEach_addHandler each block inside)⟩
    · obtain ⟨blocks, found, each⟩ := protect handler after
      have same : protectedBlocks graph handler = protectedBlocks middle handler := by
        rw [protectedBlocks, protectedBlocks, now.blocks]
      exact ⟨blocks, same.trans found, each⟩

end Assembler

end MethodBody
