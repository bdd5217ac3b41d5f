import MethodBody.Proofs.Changes
import MethodBody.Proofs.Transcript

/-!
# What a finished method is made of

A method that is finished has passed through a few stages, each of which adds to the flow graph: the
edges to the handlers, the edges along which subroutines return, the stack heights. The code is what
it was before, and no stage gives a label another place (`Finishes.samePlaces`).
-/

namespace MethodBody

namespace FlowGraph

/-- No change on the way to a finished method gives a label another place. -/
theorem Changes.samePlaces {handlers : List Label} {before after : FlowGraph}
    (changes : Changes handlers before after) : SamePlaces before after := by
  obtain ⟨-, unknown, known⟩ := changes.amends
  funext label
  unfold placement?
  cases found : before.node? label with
  | none => rw [unknown label found]
  | some node =>
    obtain ⟨revised, is, amends⟩ := known label node found
    rw [is, Option.map_some, Option.map_some, amends.placement]

/-- A finished method has its labels where they were. -/
theorem ChangesTo.samePlaces {handlers : List Label} {before after : FlowGraph}
    (changes : ChangesTo handlers before after) : SamePlaces before after := by
  induction changes with
  | refl => exact SamePlaces.refl before
  | tail _ change ih => exact SamePlaces.trans _ _ _ ih change.samePlaces

end FlowGraph

namespace Assembler

variable {assembler : Assembler} {code : MethodCode}

/-- An action on the labels leads where it does on the labels alone. -/
theorem yields_onGraph {α : Type} {action : Action FlowGraph α} {value : α} {after : Assembler} :
    (onGraph action).Yields assembler value after ↔
      ∃ graph, action.Yields assembler.graph value graph ∧ { assembler with graph } = after := by
  constructor
  · rintro ⟨succeeds, rfl⟩
    exact ⟨_, Action.yields_of_answer succeeds, rfl⟩
  · rintro ⟨graph, ⟨succeeds, rfl⟩, rfl⟩
    exact ⟨succeeds, rfl⟩

/-- Two actions on the labels in a row are one action on the labels. -/
theorem onGraph_bind {α β : Type} (action : Action FlowGraph α) (next : α → Action FlowGraph β) :
    onGraph (action >>= next) = onGraph action >>= fun value => onGraph (next value) := by
  ext assembler
  simp only [onGraph, Action.run_focus, Action.run_bind]
  obtain ⟨answer, graph, events⟩ := action.run assembler.graph
  cases answer <;> rfl

/-- Actions on the labels for the items of a list are one action on the labels. -/
theorem forEach_onGraph {α : Type} (items : List α) (each : α → Action FlowGraph Unit) :
    (Action.forEach items fun item => onGraph (each item))
      = onGraph (Action.forEach items each) := by
  induction items with
  | nil => rfl
  | cons item rest ih => rw [Action.forEach_cons, Action.forEach_cons, onGraph_bind, ih]

/-- Actions on the labels for the items of a list lead where they do on the labels alone. -/
theorem yields_forEach_onGraph {α : Type} {items : List α} {each : α → Action FlowGraph Unit}
    {after : Assembler} :
    (Action.forEach items fun item => onGraph (each item)).Yields assembler () after ↔
      ∃ graph, (Action.forEach items each).Yields assembler.graph () graph ∧
        { assembler with graph } = after := by
  rw [forEach_onGraph, yields_onGraph]

/-- The stages from an assembler to a finished method: the flow graph with the edges to the
handlers, the flow graph with the edges along which subroutines return, and the method. -/
structure Finishes (assembler : Assembler) (handled returned : FlowGraph) (code : MethodCode) :
    Prop where
  /-- The method is complete. -/
  complete : assembler.unfinished? = none
  /-- The edges to the handlers are added once the last block is closed. -/
  handles : (Action.forEach assembler.handlers.toList addHandlerEdges).Yields
    assembler.closeBlock.graph () handled
  /-- The subroutines are found if there are any. -/
  returns : if assembler.callsSubroutines then
      ∃ count, FlowGraph.analyzeSubroutines.Yields handled count returned
    else returned = handled
  /-- The maxima are computed if they are to be. -/
  measures : if assembler.settings.computeMaxima then
      ∃ height, FlowGraph.computeMaxStack.Yields returned height code.graph ∧
        toWord height (.stackTooLarge height) = .ok code.maxima.stack ∧
        toWord assembler.localsNeeded (.localsTooLarge assembler.localsNeeded)
          = .ok code.maxima.locals
    else code.graph = returned ∧ code.maxima = assembler.declared
  /-- The code is kept. -/
  code_eq : code.code = assembler.code
  /-- The exception table holds the offsets of the labels. -/
  handlers_eq : { assembler.closeBlock with graph := code.graph }.handlerRows = .ok code.handlers
  /-- The line number table holds the offsets of the labels. -/
  lines_eq : { assembler.closeBlock with graph := code.graph }.lineRows = .ok code.lines
  /-- The method says whether it has to be widened. -/
  needsWidening_eq : code.needsWidening = assembler.needsWidening

/-- Closing the open block keeps all but the block and its node. -/
theorem closeBlock_eq (assembler : Assembler) : assembler.closeBlock
    = { assembler with openBlock := none, graph := assembler.closeBlock.graph } := by
  obtain ⟨settings, code, graph, block, needed, declared, handlers, lines, calls, widening⟩ :=
    assembler
  cases block <;> rfl

/-- Finding the subroutines, if there are any. -/
theorem exists_of_findSubroutines {after : Assembler} {answer : Unit}
    (yields : findSubroutines.Yields assembler answer after) :
    ∃ graph, { assembler with graph } = after ∧
      if assembler.callsSubroutines then
        ∃ count, FlowGraph.analyzeSubroutines.Yields assembler.graph count graph
      else graph = assembler.graph := by
  unfold findSubroutines at yields
  simp only [Action.yields_bind, Action.yields_inspect] at yields
  obtain ⟨_, _, ⟨rfl, rfl⟩, yields⟩ := yields
  cases calls : assembler.callsSubroutines with
  | true =>
    simp only [calls, if_true, Action.yields_bind, yields_onGraph, Action.yields_report] at yields
    obtain ⟨count, _, ⟨graph, found, rfl⟩, rfl⟩ := yields
    exact ⟨graph, rfl, count, found⟩
  | false =>
    simp only [calls, Bool.false_eq_true, if_false, Action.yields_pure] at yields
    obtain ⟨_, rfl⟩ := yields
    exact ⟨assembler.graph, by rw [← calls], by simp⟩

/-- Computing the maxima, or taking the declared ones. -/
theorem exists_of_maxima {after : Assembler} {sizes : Maxima}
    (yields : maxima.Yields assembler sizes after) :
    ∃ graph, { assembler with graph } = after ∧
      if assembler.settings.computeMaxima then
        ∃ height, FlowGraph.computeMaxStack.Yields assembler.graph height graph ∧
          toWord height (.stackTooLarge height) = .ok sizes.stack ∧
          toWord assembler.localsNeeded (.localsTooLarge assembler.localsNeeded) = .ok sizes.locals
      else graph = assembler.graph ∧ sizes = assembler.declared := by
  unfold maxima at yields
  simp only [Action.yields_bind, Action.yields_inspect] at yields
  obtain ⟨_, _, ⟨rfl, rfl⟩, yields⟩ := yields
  cases computes : assembler.settings.computeMaxima with
  | true =>
    simp only [computes, if_true, Action.yields_bind, yields_onGraph, Action.yields_inspect,
      Action.yields_ofExcept, Action.yields_pure] at yields
    obtain ⟨height, _, ⟨graph, measured, rfl⟩, count, _, ⟨rfl, rfl⟩, stack, _,
      ⟨fits, rfl⟩, locals, _, ⟨fitsToo, rfl⟩, rfl, rfl⟩ := yields
    exact ⟨graph, rfl, height, measured, fits, fitsToo⟩
  | false =>
    simp only [computes, Bool.false_eq_true, if_false, Action.yields_inspect] at yields
    exact ⟨assembler.graph, yields.2, rfl, yields.1.symm⟩

/-- A finished method has passed through all stages. -/
theorem exists_finishes (finished : (finish.run assembler).answer = .ok code) :
    ∃ handled returned, assembler.Finishes handled returned code := by
  have yields := Action.yields_of_answer finished
  generalize (finish.run assembler).state = last at yields
  unfold finish at yields
  simp only [Action.yields_bind, Action.yields_inspect, Action.yields_check,
    Action.yields_modify, Action.yields_read] at yields
  obtain ⟨cause, _, ⟨rfl, rfl⟩, _, _, ⟨complete, rfl⟩, _, _, rfl, _, _, ⟨rfl, rfl⟩, _, _, handling,
    _, _, returning, maxima, _, measuring, rows, _, ⟨handlers, rfl⟩, marks, _, ⟨lines, rfl⟩,
    found, _, getting, yields⟩ := yields
  obtain ⟨handled, handles, rfl⟩ := yields_forEach_onGraph.mp handling
  obtain ⟨returned, rfl, returns⟩ := exists_of_findSubroutines returning
  obtain ⟨graph, rfl, measures⟩ := exists_of_maxima measuring
  obtain ⟨rfl, rfl⟩ : _ = found ∧ _ = _ := ⟨Except.ok.inj getting.1, getting.2⟩
  have closed := closeBlock_eq assembler
  have settings : assembler.closeBlock.settings = assembler.settings := by
    rw [closed]
  have calls : assembler.closeBlock.callsSubroutines = assembler.callsSubroutines := by
    rw [closed]
  have needed : assembler.closeBlock.localsNeeded = assembler.localsNeeded := by
    rw [closed]
  have declared : assembler.closeBlock.declared = assembler.declared := by
    rw [closed]
  have protecting := handlers_closeBlock assembler
  have widening : assembler.closeBlock.needsWidening = assembler.needsWidening := by
    rw [closed]
  have answered : code = {
      code := assembler.closeBlock.code
      maxima
      handlers := rows
      lines := marks
      needsWidening := assembler.closeBlock.needsWidening
      graph } := by
    split at yields
    · simp only [Action.yields_bind, Action.yields_report, Action.yields_pure] at yields
      obtain ⟨_, _, _, same, _⟩ := yields
      exact same.symm
    · exact (Action.yields_pure.mp yields).1.symm
  subst answered
  exact ⟨handled, returned, {
    complete
    handles := protecting ▸ handles
    returns := calls ▸ returns
    measures := by
      simp only [settings, needed, declared] at measures
      exact measures
    code_eq := code_closeBlock assembler
    handlers_eq := handlers
    lines_eq := lines
    needsWidening_eq := widening }⟩

/-- A method is complete if no block and no label is left, and it is not too long. -/
theorem of_unfinished?_eq_none (complete : assembler.unfinished? = none) :
    assembler.unfinishedBlock? = none ∧ assembler.unplacedTargets = [] ∧
      assembler.code.size ≤ assembler.settings.maxCodeLength := by
  unfold unfinished? at complete
  simp only at complete
  split at complete
  · simp at complete
  · rename_i left
    split at complete
    · simp at complete
    · rename_i short
      simp only [Bool.or_eq_true, Bool.not_eq_true', not_or, Bool.not_eq_true,
        Option.isSome_eq_false_iff, Option.isNone_iff_eq_none, Bool.not_eq_false,
        List.isEmpty_iff] at left
      exact ⟨left.1, left.2, Nat.le_of_not_lt short⟩

/-- If no label is left, then no reference waits, and control is transferred to labels that have
their place. -/
theorem of_unplacedTargets_eq_nil (none : assembler.unplacedTargets = []) {label : Label}
    {node : Node} (known : assembler.graph.node? label = some node) :
    node.pending = 0 ∧ (node.flags.jumpTarget = true → node.isPlaced = true) := by
  unfold unplacedTargets at none
  rw [List.map_eq_nil_iff, List.filter_eq_nil_iff] at none
  have settled := none node (Array.mem_toList_iff.mpr (Array.mem_of_getElem? known))
  cases placement : node.placement with
  | placed offset => simp [Node.pending, Node.isPlaced, Node.offset?, placement]
  | pending ledger =>
    have unplaced : node.isPlaced = false := by simp [Node.isPlaced, Node.offset?, placement]
    simp only [unplaced, Bool.not_false, Bool.true_and, Bool.or_eq_true, decide_eq_true_eq,
      not_or] at settled
    obtain ⟨waiting, target⟩ := settled
    exact ⟨by omega, fun marked => absurd marked target⟩

namespace Finishes

variable {handled returned : FlowGraph}

/-- The flow graph of the method comes about in single changes. -/
theorem changesTo (finishes : assembler.Finishes handled returned code) :
    FlowGraph.ChangesTo assembler.handlerLabels assembler.graph code.graph := by
  have protects : FlowGraph.ChangesTo assembler.handlerLabels assembler.closeBlock.graph handled :=
    (Action.Follows.forEach _ fun handler member => changesTo_addHandlerEdges
      (List.mem_map.mpr ⟨handler, member, rfl⟩)).of_yields finishes.handles
  have returns : FlowGraph.ChangesTo assembler.handlerLabels handled returned := by
    have found := finishes.returns
    split at found
    · obtain ⟨count, yields⟩ := found
      exact FlowGraph.changesTo_analyzeSubroutines.of_yields yields
    · rw [found]
  have measures : FlowGraph.ChangesTo assembler.handlerLabels returned code.graph := by
    have found := finishes.measures
    split at found
    · obtain ⟨height, yields, _⟩ := found
      exact FlowGraph.changesTo_computeMaxStack.of_yields yields
    · rw [found.1]
  exact (prepares_closeBlock _ assembler).trans (protects.trans (returns.trans measures))

/-- No stage gives a label another place. -/
theorem samePlaces (finishes : assembler.Finishes handled returned code) :
    FlowGraph.SamePlaces assembler.graph code.graph :=
  FlowGraph.ChangesTo.samePlaces finishes.changesTo

/-- Labels have the offsets that they had. -/
theorem offset?_eq (finishes : assembler.Finishes handled returned code) :
    code.graph.offset? = assembler.graph.offset? :=
  FlowGraph.offset?_congr finishes.samePlaces

end Finishes

end Assembler

end MethodBody
