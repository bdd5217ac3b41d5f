import MethodBody.Proofs.Consistency
import MethodBody.Proofs.Handlers
import MethodBody.Proofs.Wiring

/-!
# The edges of calls

A block that calls a subroutine promises two edges in front of all others: to the continuation,
which was placed right behind it, and into the subroutine, with one more value on the stack
(`FlowGraph.HonorsCalls`). The promise holds after every operation of a run, and it holds of each
flow graph on the way to the finished method. So nothing that reads the edges of a call ever fails
for want of them (`calls_honored`).
-/

namespace MethodBody

namespace FlowGraph

/-- Each block that calls a subroutine has the edges of a call that was made at one of the moments,
and it does not end with a return. -/
def HonorsCalls (graph : FlowGraph) (past : List Moment) : Prop :=
  ∀ label node, graph.node? label = some node → node.flags.callsSubroutine = true →
    node.flags.endsSubroutine = false ∧ ∃ call, call.caller = label ∧ graph.Honors call ∧
      ∃ moment ∈ past, call.Made moment

variable {graph before after : FlowGraph} {past : List Moment} {handlers : List Label}
  {label : Label} {node : Node}

/-- Calls go on being honored in each change on the way to a finished method. -/
theorem HonorsCalls.change (honors : before.HonorsCalls past)
    (changes : Changes handlers before after) :
    after.HonorsCalls past := by
  obtain ⟨blocks, -, known⟩ := changes.amends
  intro label revised is calls
  obtain ⟨node, found, amends⟩ := changes.exists_node is
  rw [amends.calls] at calls
  obtain ⟨ends, call, rfl, ⟨⟨others, edges⟩, ⟨entry, entryKnown, starts⟩, next⟩, made⟩ :=
    honors label node found calls
  refine ⟨amends.ends.trans ends, call, rfl, ⟨?_, ?_, next.congr blocks⟩, made⟩
  · rw [edgesOf_of_known found] at edges
    rw [edgesOf_of_known is]
    exact amends.exists_edges calls ends edges
  · obtain ⟨entryAfter, entryIs, entryAmends⟩ := known _ entry entryKnown
    exact ⟨entryAfter, entryIs, entryAmends.starts.trans starts⟩

/-- Calls go on being honored up to the finished method. -/
theorem HonorsCalls.changesTo (honors : before.HonorsCalls past)
    (changes : ChangesTo handlers before after) : after.HonorsCalls past := by
  induction changes with
  | refl => exact honors
  | tail _ change ih => exact ih.change change

/-- A block that calls shows in its first two edges which call it is. -/
theorem HonorsCalls.honors_of_edges (honors : graph.HonorsCalls past)
    (known : graph.node? label = some node) (calls : node.flags.callsSubroutine = true)
    {height : Int32} {continuation entry : Label} {transfer : Transfer} {others : List Edge}
    (edges : node.edges = ⟨.jump height, continuation⟩ :: ⟨transfer, entry⟩ :: others) :
    graph.Honors ⟨label, continuation, entry, height⟩ ∧
      ∃ moment ∈ past, Call.Made ⟨label, continuation, entry, height⟩ moment := by
  obtain ⟨-, ⟨_, next, start, high⟩, rfl, honored, made⟩ := honors label node known calls
  obtain ⟨rest, same⟩ := honored.edges
  rw [edgesOf_of_known known, edges] at same
  simp only [List.cons.injEq, Edge.mk.injEq, Transfer.jump.injEq] at same
  obtain ⟨⟨rfl, rfl⟩, ⟨-, rfl⟩, -⟩ := same
  exact ⟨honored, made⟩

end FlowGraph

namespace Error

/-- The cause is not the want of the edges of a call. -/
def SparesCalls (cause : Error) : Prop := ∀ block edges, cause ≠ .malformedCaller block edges

/-- The cause can come up after the edges to the handlers were added: a label is unknown or has no
place, more is popped than was pushed, or something does not fit its field. -/
def IsLate : Error → Prop
  | unknownLabel _ | unplaced _ | stackUnderflow _ | stackTooLarge _ | localsTooLarge _
  | codeTooLong _ => True
  | _ => False

/-- What can come up so late is not the want of the edges of a call. -/
theorem IsLate.sparesCalls {cause : Error} (late : cause.IsLate) : cause.SparesCalls := by
  rintro block edges rfl
  exact late

end Error

/-- An action that fails with some causes only fails with others only, if those are among them. -/
theorem Action.FailsOnly.mono {σ α : Type} {action : Action σ α} {state : σ}
    {few many : Error → Prop} (fails : action.FailsOnly few state)
    (more : ∀ cause, few cause → many cause) : action.FailsOnly many state :=
  fun cause failed => more cause (fails cause failed)

namespace FlowGraph

variable {graph : FlowGraph} {past : List Moment} {label : Label}

/-- A label that is not found is unknown. -/
theorem isLate_of_node_eq_error {cause : Error} (failed : graph.node label = .error cause) :
    cause.IsLate := by
  unfold FlowGraph.node at failed
  split at failed
  · simp at failed
  · obtain rfl := Except.error.inj failed
    trivial

/-- Looking up a label fails only if it is unknown. -/
theorem failsOnly_getNode (label : Label) : (getNode label).FailsOnly Error.IsLate graph :=
  fun _ => isLate_of_node_eq_error

/-- An edge to a handler can be added to every block that is known. -/
theorem failsOnly_addHandler {permitted : Error → Prop} (consistent : graph.IsConsistent)
    {block : Label} (known : (graph.node? block).isSome) (handler : Label) :
    (addHandler block handler).FailsOnly permitted graph := by
  refine .bind (fun cause failed => ?_) fun _ _ _ => .of_ok rfl
  obtain ⟨node, found⟩ := Option.isSome_iff_exists.mp known
  rcases bind_eq_error.mp failed with unknown | ⟨other, is, refused⟩
  · simp [node_of_known found] at unknown
  · unfold Node.addHandler at refused
    split at refused
    · simp at refused
    · simp at refused
    · rename_i calls short
      obtain ⟨continuation, entry, others, edges⟩ :=
        consistent.callers block other (known_of_node is) calls
      exact absurd edges (short _ _ _)

/-- Computing the stack heights fails only if a label is unknown or more is popped than was
pushed. -/
theorem failsOnly_computeMaxStack : computeMaxStack.FailsOnly Error.IsLate graph := by
  unfold computeMaxStack
  refine .bind (.of_ok rfl) fun first? _ _ => ?_
  split
  · exact .pure _
  · refine .bind (failsOnly_getNode _) fun _ _ _ => .bind (.of_ok rfl) fun sweep _ walked => ?_
    obtain ⟨rfl, rfl⟩ := Action.yields_inspect.mp walked
    refine .bind (.of_ok rfl) fun _ _ _ => .bind (fun cause failed => ?_) fun _ _ _ =>
      .bind (.of_ok rfl) fun _ _ _ => .bind (.of_ok rfl) fun _ _ _ => .pure _
    obtain ⟨arrival, -, stuck | refused⟩ :=
      Walk.exists_of_failure_run (Action.eq_some_of_check failed)
    · rcases Walk.next_eq_error stuck with ⟨-, rfl⟩ | ⟨node, -, never⟩
      · trivial
      · cases never
    · simp only [heightWalk] at refused
      split at refused
      · obtain rfl := Option.some.inj refused
        trivial
      · split at refused
        · obtain rfl := Option.some.inj refused
          trivial
        · simp at refused

end FlowGraph

namespace Assembler

variable {assembler : Assembler} {past : List Moment}

/-- After each operation of a run, calls are honored. -/
theorem Wired.honorsCalls (wired : assembler.Wired past) (undecided : assembler.Undecided) :
    assembler.graph.HonorsCalls past := by
  intro label node known calls
  have duty : assembler.graph.dutyOf label = (true, node.flags.endsSubroutine) := by
    simp [FlowGraph.dutyOf, known, calls]
  have closed : ¬ assembler.IsOpen label := by
    intro isOpen
    simp [undecided label isOpen] at duty
  have honored := wired.calls label closed (by rw [duty])
  rwa [duty] at honored

/-- After each operation of a run, the flow graph is consistent. -/
theorem Wired.isConsistent (wired : assembler.Wired past)
    (honors : assembler.graph.HonorsCalls past) : assembler.graph.IsConsistent := by
  have blocks (block : Label) (member : block ∈ assembler.graph.blocks) :
      (assembler.graph.node? block).isSome := by
    obtain ⟨offset, found, -⟩ := wired.placed block member
    exact FlowGraph.isSome_node?_of_offset? found
  refine ⟨blocks, ?_, ?_, fun label node known calls => (honors label node known calls).1⟩
  · intro label edge member
    rcases wired.leads label edge member with ⟨node, known, -⟩ | ⟨block, -⟩
    · exact Option.isSome_of_eq_some known
    · exact blocks _ block
  · intro label node known calls
    obtain ⟨-, call, rfl, ⟨⟨others, edges⟩, -, -⟩, -⟩ := honors label node known calls
    rw [FlowGraph.edgesOf_of_known known] at edges
    exact ⟨_, _, others, edges⟩

/-- An action on the flow graph fails where it does on the flow graph alone. -/
theorem failsOnly_onGraph {permitted : Error → Prop} {α : Type} {action : Action FlowGraph α}
    (fails : action.FailsOnly permitted assembler.graph) :
    (onGraph action).FailsOnly permitted assembler := fails

/-- The blocks that a handler protects are blocks. -/
theorem mem_blocks_of_protectedBlocks {graph : FlowGraph} {handler : Handler} {blocks : List Label}
    (found : protectedBlocks graph handler = .ok blocks) {block : Label} (member : block ∈ blocks) :
    block ∈ graph.blocks := by
  obtain ⟨first, last, -, -, -, rfl⟩ := exists_of_protectedBlocks found
  obtain ⟨index, _, _, here⟩ := FlowGraph.mem_extract_iff.mp member
  exact Array.mem_of_getElem? here

/-- A range is refused if its labels are no blocks in this order, and for no other cause. -/
theorem eq_of_protectedBlocks_eq_error {graph : FlowGraph} {handler : Handler} {cause : Error}
    (refused : protectedBlocks graph handler = .error cause) :
    cause = .invalidRange handler.start handler.stop := by
  unfold protectedBlocks at refused
  split at refused
  · split at refused
    · simp at refused
    · exact (Except.error.inj refused).symm
  · exact (Except.error.inj refused).symm

/-- Protecting blocks fails only if the range is refused. -/
theorem failsOnly_addHandlerEdges {graph : FlowGraph} {handler : Handler}
    (consistent : graph.IsConsistent) (handles : (graph.node? handler.handler).isSome) :
    (addHandlerEdges handler).FailsOnly (protectedBlocks graph handler = .error ·) graph := by
  unfold addHandlerEdges
  refine .bind (fun _ failed => failed) fun blocks _ read => ?_
  obtain ⟨found, rfl⟩ := Action.yields_read.mp read
  let holds (after : FlowGraph) : Prop :=
    after.IsConsistent ∧ FlowGraph.ChangesTo [handler.handler] graph after
  refine .forEach holds (fun block member after kept =>
    ?_) (fun block _ middle after kept yields => ?_)
    ⟨consistent, .refl⟩
  · refine FlowGraph.failsOnly_addHandler kept.1 (kept.1.blocks block ?_) handler.handler
    rw [kept.2.blocks_eq]
    exact mem_blocks_of_protectedBlocks found member
  · have changes := (FlowGraph.changesTo_addHandler
      (List.mem_singleton_self handler.handler) block).of_yields yields
    refine ⟨kept.1.changesTo changes fun other registered => ?_, kept.2.trans changes⟩
    rw [List.mem_singleton.mp registered, kept.2.isSome_node?]
    exact handles

/-- Protecting blocks with all handlers fails only if one of the ranges is refused. -/
theorem failsOnly_forEach_addHandlerEdges (consistent : assembler.graph.IsConsistent)
    (handles : ∀ handler ∈ assembler.handlerLabels, (assembler.graph.node? handler).isSome) :
    (Action.forEach assembler.handlers.toList addHandlerEdges).FailsOnly
      (fun cause => ∃ handler ∈ assembler.handlers.toList,
        protectedBlocks assembler.graph handler = .error cause) assembler.closeBlock.graph := by
  let holds (graph : FlowGraph) : Prop :=
    FlowGraph.ChangesTo assembler.handlerLabels assembler.graph graph
  refine .forEach holds (fun handler member graph changes => ?_)
    (fun handler member before after changes protects => ?_) (prepares_closeBlock _ assembler)
  · have known := handles _ (handler_mem_handlerLabels member)
    rw [← FlowGraph.ChangesTo.isSome_node? changes] at known
    have fails := failsOnly_addHandlerEdges (consistent.changesTo changes handles) known
    refine fails.mono fun cause refused => ⟨handler, member, ?_⟩
    rw [protectedBlocks, FlowGraph.ChangesTo.blocks_eq changes] at refused
    exact refused
  · exact changes.trans
      ((changesTo_addHandlerEdges (handler_mem_handlerLabels member)).of_yields protects)

/-- Finding the subroutines, if there are any, never fails. -/
theorem failsOnly_findSubroutines {permitted : Error → Prop}
    (consistent : assembler.graph.IsConsistent) :
    findSubroutines.FailsOnly permitted assembler := by
  unfold findSubroutines
  refine .bind (.of_ok rfl) fun _ _ inspected => ?_
  obtain ⟨-, rfl⟩ := Action.yields_inspect.mp inspected
  split
  · exact .bind (failsOnly_onGraph consistent.failsOnly_analyzeSubroutines) fun _ _ _ => .of_ok rfl
  · exact .pure _

/-- A size that does not fit is refused for the reason given. -/
theorem eq_of_toWord {value : Nat} {refusal cause : Error}
    (failed : toWord value refusal = .error cause) : refusal = cause := by
  unfold toWord at failed
  split at failed
  · simp at failed
  · exact Except.error.inj failed

/-- Computing the maxima fails only for a cause that can come up late. -/
theorem failsOnly_maxima : maxima.FailsOnly Error.IsLate assembler := by
  unfold maxima
  refine .bind (.of_ok rfl) fun _ _ _ => ?_
  split
  · exact .bind (failsOnly_onGraph FlowGraph.failsOnly_computeMaxStack) fun _ _ _ =>
      .bind (.of_ok rfl) fun _ _ _ =>
        .bind (fun _ failed => eq_of_toWord failed ▸ trivial) fun _ _ _ =>
          .bind (fun _ failed => eq_of_toWord failed ▸ trivial) fun _ _ _ => .pure _
  · exact .of_ok rfl

/-- An offset that a table cannot hold is unknown or too large. -/
theorem isLate_of_tableOffset {label : Label} {cause : Error}
    (failed : assembler.tableOffset label = .error cause) : cause.IsLate := by
  rcases bind_eq_error.mp failed with unknown | ⟨node, -, failed⟩
  · exact FlowGraph.isLate_of_node_eq_error unknown
  · rcases bind_eq_error.mp failed with unplaced | ⟨offset, -, failed⟩
    · unfold Node.offset at unplaced
      split at unplaced
      · simp at unplaced
      · obtain rfl := Except.error.inj unplaced
        trivial
    · exact eq_of_toWord failed ▸ trivial

/-- A row that the exception table cannot hold has an offset that it cannot hold. -/
theorem isLate_of_handlerRows {cause : Error}
    (failed : assembler.handlerRows = .error cause) : cause.IsLate := by
  obtain ⟨handler, -, failed⟩ := exists_of_mapM_eq_error failed
  rcases bind_eq_error.mp failed with first | ⟨_, -, failed⟩
  · exact isLate_of_tableOffset first
  · rcases bind_eq_error.mp failed with second | ⟨_, -, failed⟩
    · exact isLate_of_tableOffset second
    · rcases bind_eq_error.mp failed with third | ⟨_, -, failed⟩
      · exact isLate_of_tableOffset third
      · cases failed

/-- A row that the line number table cannot hold has an offset that it cannot hold. -/
theorem isLate_of_lineRows {cause : Error} (failed : assembler.lineRows = .error cause) :
    cause.IsLate := by
  unfold lineRows at failed
  split at failed
  · obtain ⟨mark, -, failed⟩ := exists_of_mapM_eq_error failed
    rcases bind_eq_error.mp failed with first | ⟨_, -, failed⟩
    · exact isLate_of_tableOffset first
    · cases failed
  · cases failed

/-- A method that cannot be finished yet does not want for the edges of a call. -/
theorem sparesCalls_of_unfinished? {cause : Error}
    (unfinished : assembler.unfinished? = some cause) :
    cause.SparesCalls := by
  unfold unfinished? at unfinished
  simp only at unfinished
  split at unfinished
  · obtain rfl := Option.some.inj unfinished
    exact fun _ _ => Error.noConfusion
  · split at unfinished
    · obtain rfl := Option.some.inj unfinished
      exact fun _ _ => Error.noConfusion
    · simp at unfinished

/-- What is left to do once the edges to the handlers are added. -/
def conclude : Action Assembler MethodCode := do
  findSubroutines
  let maxima ← maxima
  let handlers ← Action.read handlerRows
  let lines ← Action.read lineRows
  let assembler ← get
  if assembler.needsWidening then Action.report .needsWidening
  pure
    { code := assembler.code
      maxima
      handlers
      lines
      needsWidening := assembler.needsWidening
      graph := assembler.graph }

/-- Once the edges to the handlers are added, a method is refused only for a cause that can come up
late. -/
theorem failsOnly_conclude (consistent : assembler.graph.IsConsistent) :
    conclude.FailsOnly Error.IsLate assembler := by
  refine .bind (failsOnly_findSubroutines consistent) fun _ _ _ =>
    .bind failsOnly_maxima fun _ _ _ => .bind (fun _ => isLate_of_handlerRows) fun _ _ _ =>
      .bind (fun _ => isLate_of_lineRows) fun _ _ _ => .bind (.of_ok rfl) fun _ _ _ => ?_
  split
  · exact .bind (.of_ok rfl) fun _ _ _ => .pure _
  · exact .pure _

/-- A method that cannot be finished yet is refused. -/
theorem answer_finish_of_unfinished {cause : Error}
    (unfinished : assembler.unfinished? = some cause) :
    (finish.run assembler).answer = .error cause := by
  simp [finish, Action.check, unfinished]

/-- In a complete method the last block is closed, and then the edges to the handlers are added. -/
theorem answer_finish_of_complete (complete : assembler.unfinished? = none) :
    (finish.run assembler).answer =
      (((Action.forEach assembler.handlers.toList fun handler => onGraph (addHandlerEdges handler))
        >>= fun _ => conclude).run assembler.closeBlock).answer := by
  rw [← handlers_closeBlock]
  simp only [finish, Action.run_bind, Action.run_inspect, complete, Action.check, Action.run_pure,
    Action.run_modify, Outcome.andThen_ok, Outcome.after_nil]
  rfl

/-- A complete method without protected ranges and calls is finished, if the sizes are declared and
all lines are attached to labels with a place. -/
theorem exists_finished (complete : assembler.unfinished? = none)
    (ranges : assembler.handlers = #[])
    (calls : assembler.callsSubroutines = false) (sizes : assembler.settings.computeMaxima = false)
    {rows : List LineRow} (lines : assembler.closeBlock.lineRows = .ok rows) :
    ∃ code, (finish.run assembler).answer = .ok code ∧ code.lines = rows := by
  have closed := closeBlock_eq assembler
  rw [answer_finish_of_complete complete, ranges]
  generalize assembler.closeBlock = method at closed lines ⊢
  have noCalls : method.callsSubroutines = false := by rw [closed]; exact calls
  have declared : method.settings.computeMaxima = false := by rw [closed]; exact sizes
  have none : method.handlerRows = .ok [] := by
    rw [closed, handlerRows, ranges]
    rfl
  have subroutines : findSubroutines.run method = ⟨.ok (), method, []⟩ := by
    simp [findSubroutines, noCalls]
  have maxima : maxima.run method = ⟨.ok method.declared, method, []⟩ := by
    simp [Assembler.maxima, declared]
  simp only [Action.forEach_nil, conclude, Action.run_bind, Action.run_pure,
    Outcome.andThen_ok, subroutines, maxima, Action.run_read, none, lines, Action.run_get,
    Outcome.answer_after]
  split
  · exact ⟨_, rfl, rfl⟩
  · exact ⟨_, rfl, rfl⟩

/-- A complete method is refused only if one of the protected ranges is, or for a cause that can
come up late. -/
theorem failsOnly_finish_of_complete (complete : assembler.unfinished? = none)
    (consistent : assembler.graph.IsConsistent)
    (handles : ∀ handler ∈ assembler.handlerLabels, (assembler.graph.node? handler).isSome) :
    finish.FailsOnly (fun cause => cause.IsLate ∨ ∃ handler ∈ assembler.handlers.toList,
      protectedBlocks assembler.graph handler = .error cause) assembler := by
  intro cause failed
  rw [answer_finish_of_complete complete] at failed
  rcases Action.answer_bind_eq_error.mp failed with refused | ⟨_, protects, failed⟩
  · rw [forEach_onGraph] at refused
    exact .inr (failsOnly_forEach_addHandlerEdges consistent handles cause refused)
  · obtain ⟨graph, protects, ended⟩ := yields_forEach_onGraph.mp (Action.yields_of_answer protects)
    rw [← ended] at failed
    have changes : FlowGraph.ChangesTo assembler.handlerLabels assembler.graph graph :=
      (prepares_closeBlock _ assembler).trans ((Action.Follows.forEach _ fun handler member =>
        changesTo_addHandlerEdges (handler_mem_handlerLabels member)).of_yields protects)
    exact .inl (failsOnly_conclude (consistent.changesTo changes handles) cause failed)

/-- Finishing a method never fails for want of the edges of a call. -/
theorem failsOnly_finish (consistent : assembler.graph.IsConsistent)
    (handles : ∀ handler ∈ assembler.handlerLabels, (assembler.graph.node? handler).isSome) :
    finish.FailsOnly Error.SparesCalls assembler := by
  cases unfinished : assembler.unfinished? with
  | some cause =>
    intro other failed
    obtain rfl := Except.error.inj ((answer_finish_of_unfinished unfinished).symm.trans failed)
    exact sparesCalls_of_unfinished? unfinished
  | none =>
    refine (failsOnly_finish_of_complete unfinished consistent handles).mono ?_
    rintro cause (late | ⟨handler, _, refused⟩)
    · exact late.sparesCalls
    · rw [eq_of_protectedBlocks_eq_error refused]
      exact fun _ _ => Error.noConfusion

/-- The flow graphs on the way to a finished method, after each edge that is added. -/
inductive Passes (assembler : Assembler) : FlowGraph → Prop
  /-- Some handlers are done, and so are some of the blocks that the next one protects. -/
  | protecting {done rest : List Handler} {handler : Handler} {first others : List Label}
    {before graph : FlowGraph} (handlers : assembler.handlers.toList = done ++ handler :: rest)
    (handled : (Action.forEach done addHandlerEdges).Yields assembler.closeBlock.graph () before)
    (blocks : protectedBlocks before handler = .ok (first ++ others))
    (added : (Action.forEach first fun block =>
      FlowGraph.addHandler block handler.handler).Yields before () graph) :
    Passes assembler graph
  /-- All handlers are done and all subroutines are found. Some blocks are closed, and so are some
  of the returns that the call of the next block reaches. -/
  | returning {handled marked assigned before : FlowGraph} {start caller entry continuation : Label}
    {count : Nat} {last : SubroutineId} {done rest returns others : List Label}
    (handles : (Action.forEach assembler.handlers.toList addHandlerEdges).Yields
      assembler.closeBlock.graph () handled)
    (begins : handled.firstBlock? = some start)
    (marks : (FlowGraph.mark start .main).Yields handled count marked)
    (assigns : (Action.fold (FlowGraph.markCallees marked.blocks.toList) .main
      marked.subroutineIds).Yields marked last assigned)
    (blocks : marked.blocks.toList = done ++ caller :: rest)
    (closed : (Action.forEach done FlowGraph.closeCall).Yields assigned () before)
    (calls : before.Calls caller entry continuation)
    (reached :
      ((before.returnWalk (before.subroutineOf caller) continuation).run entry).visited.filter
      (fun block => (before.node? block).any (·.returnsFromOther (before.subroutineOf caller)))
        = returns ++ others) :
    Passes assembler
      (before.updateAll returns (·.addReturn (before.subroutineOf caller) continuation))

/-- Every flow graph on the way to a finished method comes about in single changes. -/
theorem Passes.changesTo {graph : FlowGraph} (passes : assembler.Passes graph) :
    FlowGraph.ChangesTo assembler.handlerLabels assembler.graph graph := by
  have closes : FlowGraph.ChangesTo assembler.handlerLabels assembler.graph
    assembler.closeBlock.graph := prepares_closeBlock _ assembler
  cases passes with
  | @protecting done rest handler first others before graph handlers handled blocks added =>
    have earlier :
        FlowGraph.ChangesTo assembler.handlerLabels assembler.closeBlock.graph before := by
      refine Action.Follows.of_yields (.forEach done fun other member => ?_) handled
      have registered : other ∈ assembler.handlers.toList :=
        handlers ▸ List.mem_append_left _ member
      exact changesTo_addHandlerEdges (handler_mem_handlerLabels registered)
    have now : FlowGraph.ChangesTo assembler.handlerLabels before graph := by
      refine Action.Follows.of_yields (.forEach first fun block _ => ?_) added
      have registered : handler ∈ assembler.handlers.toList := by simp [handlers]
      exact FlowGraph.changesTo_addHandler (handler_mem_handlerLabels registered) block
    exact closes.trans (earlier.trans now)
  | @returning handled marked assigned before start caller entry continuation count last done rest
      returns others handles begins marks assigns blocks closed calls reached =>
    have protects :
        FlowGraph.ChangesTo assembler.handlerLabels assembler.closeBlock.graph handled := by
      refine Action.Follows.of_yields (.forEach _ fun handler member => ?_) handles
      exact changesTo_addHandlerEdges (handler_mem_handlerLabels member)
    have main : FlowGraph.ChangesTo assembler.handlerLabels handled marked :=
      (FlowGraph.changesTo_mark start .main).of_yields marks
    have callees : FlowGraph.ChangesTo assembler.handlerLabels marked assigned := by
      refine Action.Follows.of_yields (.fold _ (fun current _ last => ?_) _) assigns
      exact FlowGraph.follows_markCallees FlowGraph.changesTo_mark _ last current
    have earlier : FlowGraph.ChangesTo assembler.handlerLabels assigned before := by
      refine Action.Follows.of_yields (.forEach done fun block _ => ?_) closed
      exact FlowGraph.follows_closeCall FlowGraph.changesTo_addReturns block
    obtain ⟨node, first, second, known, edges, rfl, rfl⟩ := calls
    have now : FlowGraph.ChangesTo assembler.handlerLabels before _ :=
      FlowGraph.changesTo_updateAll_addReturn (FlowGraph.mem_edgesOf_of_callEdges known edges)
        (before.subroutineOf caller) returns
    exact closes.trans (protects.trans (main.trans (callees.trans (earlier.trans now))))

/-- After every operation of a run, whether operations fail or not, and after each edge that
finishing the method adds, each block that calls a subroutine has the edges of a call that was made
in the run, and it does not end with a return. So the method is never refused for want of them. -/
theorem calls_honored (settings : Settings) (slots : UInt16) (operations : List Operation) :
    let assembler := (start settings slots).afterAll operations
    let history := (start settings slots).history operations
    assembler.graph.HonorsCalls history ∧
      (∀ graph, assembler.Passes graph → graph.HonorsCalls history) ∧
      (finish.run assembler).state.graph.HonorsCalls history ∧
      ∀ block edges, (finish.run assembler).answer ≠ .error (.malformedCaller block edges) := by
  intro assembler history
  have honors : assembler.graph.HonorsCalls history :=
    (wired_afterAll settings slots operations).1.honorsCalls
      (wired_afterAll settings slots operations).2
  refine ⟨honors, fun graph passes => honors.changesTo passes.changesTo,
    honors.changesTo (changesTo_finish assembler), fun block edges failed => ?_⟩
  have wired := wired_afterAll settings slots operations
  have anchored := anchored_afterAll settings slots operations
  refine failsOnly_finish (wired.1.isConsistent honors) (fun label registered => ?_) _ failed block
    edges rfl
  obtain ⟨handler, member, rfl⟩ := List.mem_map.mp registered
  obtain ⟨node, known, -⟩ := anchored.handlers handler (Array.mem_toList_iff.mp member)
  exact Option.isSome_of_eq_some known

/-- A call in a range whose handler lies behind the subroutine. -/
def protectedCall : List Operation :=
  [.freshLabel, .freshLabel, .instruction [0x03] 1, .jump Opcode.jsr ⟨1⟩, .instruction [0x57] (-1),
    .instruction [0xb1] 0, .place ⟨1⟩, .localInstruction (.store .reference 1),
    .localInstruction (.ret 1), .place ⟨2⟩, .instruction [0xbf] (-1),
    .addHandler ⟨.start, ⟨1⟩, ⟨2⟩, 0⟩]

/-- The first block calls the subroutine at the label 1, which is to return to the label 3. The edge
to the handler comes behind the two edges of the call, and the return leads to the continuation. -/
theorem calls_honored_protectedCall :
    ∃ code, (finish.run ((start {} 0).afterAll protectedCall)).answer = .ok code ∧
      code.graph.edgesOf .start = [⟨.jump 1, ⟨3⟩⟩, ⟨.jump 2, ⟨1⟩⟩, ⟨.exception, ⟨2⟩⟩] ∧
      code.graph.edgesOf ⟨1⟩ = [⟨.jump (-1), ⟨3⟩⟩] ∧
      (∃ node ∈ code.graph.node? .start, node.flags.callsSubroutine = true) ∧
      code.graph.Honors ⟨.start, ⟨3⟩, ⟨1⟩, 1⟩ ∧
      (∃ moment ∈ (start {} 0).history protectedCall, Call.Made ⟨.start, ⟨3⟩, ⟨1⟩, 1⟩ moment) ∧
      ∃ guarded, ((start {} 0).afterAll protectedCall).Passes guarded ∧
        guarded.edgesOf .start = [⟨.jump 1, ⟨3⟩⟩, ⟨.jump 2, ⟨1⟩⟩, ⟨.exception, ⟨2⟩⟩] ∧
        guarded.edgesOf ⟨3⟩ = [] ∧ guarded.Honors ⟨.start, ⟨3⟩, ⟨1⟩, 1⟩ := by
  obtain ⟨code, found, same, ⟨node, known, calls, edges⟩, returns⟩ :
      ∃ code ∈ (finish.run ((start {} 0).afterAll protectedCall)).answer.toOption,
        (finish.run ((start {} 0).afterAll protectedCall)).state.graph = code.graph ∧
        (∃ node ∈ code.graph.node? .start, node.flags.callsSubroutine = true ∧
          node.edges = [⟨.jump 1, ⟨3⟩⟩, ⟨.jump 2, ⟨1⟩⟩, ⟨.exception, ⟨2⟩⟩]) ∧
        code.graph.edgesOf ⟨1⟩ = [⟨.jump (-1), ⟨3⟩⟩] := by
    decide +kernel
  have handlers : ((start {} 0).afterAll protectedCall).handlers.toList
      = [] ++ ⟨.start, ⟨1⟩, ⟨2⟩, 0⟩ :: [] := by
    decide +kernel
  have blocks : protectedBlocks ((start {} 0).afterAll protectedCall).closeBlock.graph
      ⟨.start, ⟨1⟩, ⟨2⟩, 0⟩ = .ok ([.start] ++ [⟨3⟩]) := by
    decide +kernel
  obtain ⟨guarded, added, ⟨caller, knownToo, callsToo, edgesToo⟩, free⟩ :
      ∃ guarded, (Action.forEach [.start] fun block => FlowGraph.addHandler block ⟨2⟩).Yields
          ((start {} 0).afterAll protectedCall).closeBlock.graph () guarded ∧
        (∃ node ∈ guarded.node? .start, node.flags.callsSubroutine = true ∧
          node.edges = [⟨.jump 1, ⟨3⟩⟩, ⟨.jump 2, ⟨1⟩⟩, ⟨.exception, ⟨2⟩⟩]) ∧
        guarded.edgesOf ⟨3⟩ = [] :=
    ⟨_, ⟨by decide +kernel, rfl⟩, by decide +kernel⟩
  have passes : ((start {} 0).afterAll protectedCall).Passes guarded :=
    .protecting handlers ⟨rfl, rfl⟩ blocks added
  obtain ⟨-, between, last, -⟩ := calls_honored {} 0 protectedCall
  rw [same] at last
  obtain ⟨honors, made⟩ := last.honors_of_edges known calls edges
  exact ⟨code, eq_ok_of_mem_toOption found, (FlowGraph.edgesOf_of_known known).trans edges, returns,
    ⟨node, known, calls⟩, honors, made, guarded, passes,
    (FlowGraph.edgesOf_of_known knownToo).trans edgesToo, free,
    ((between guarded passes).honors_of_edges knownToo callsToo edgesToo).1⟩

end Assembler

end MethodBody
