import MethodBody.Proofs.HiddenLabels
import MethodBody.Proofs.Positions

/-!
# Debug labels do not influence the code

If two assemblers differ only in that an idle label has a place in one of them (`Assembler.Hides`),
then no operation that does not name the label can tell them apart (`inStep_perform`): it succeeds
in both or fails for the same cause, it reports the same events, and it leaves them different in
that place only. The label starts no block and is not the target of an edge, and its place is not
among those that the tables are made from. So a label that is placed for debugging changes nothing
but what is known about that label, at the end of the method as well (`afterAll_place_of_isIdle`).
-/

namespace MethodBody

/-- An item that is left out before and after it changes makes no difference. -/
theorem filter_modify {α : Type} {test : α → Bool} {change : α → α} {items : List α} {index : Nat}
    (left : ∀ item, items[index]? = some item → test item = false ∧ test (change item) = false) :
    (items.modify index change).filter test = items.filter test := by
  induction items generalizing index with
  | nil => simp
  | cons item rest ih =>
    cases index with
    | zero =>
      obtain ⟨before, after⟩ := left item rfl
      simp [before, after]
    | succ index =>
      rw [List.modify_succ_cons, List.filter_cons, List.filter_cons, ih left]

namespace Assembler

/-- The label is idle in one assembler, and the other one differs from it only in that the label has
a place. -/
structure Hides (hidden : Label) (offset : Nat) (plain marked : Assembler) : Prop where
  /-- The flow graphs differ in the place of the label. -/
  graph : plain.graph.Hides hidden offset marked.graph
  /-- All else is the same. -/
  rest : marked = { plain with graph := marked.graph }

variable {hidden label target : Label} {offset : Nat} {plain marked : Assembler} {α : Type}

namespace Hides

/-- What does not depend on the flow graph is the same. -/
theorem view_eq (hides : Hides hidden offset plain marked) (view : Assembler → α)
    (overlooks : ∀ assembler graph, view { assembler with graph } = view assembler) :
    view marked = view plain := by
  rw [hides.rest, overlooks]

/-- Only the place of the label is different. -/
theorem eq_update (hides : Hides hidden offset plain marked) :
    marked = plain.update hidden (·.placedAt offset) := by
  rw [hides.rest, hides.graph.same]
  rfl

/-- The same block is open. -/
theorem openBlock_eq (hides : Hides hidden offset plain marked) :
    marked.openBlock = plain.openBlock :=
  hides.view_eq openBlock fun _ _ => rfl

/-- The cursor is at the same offset. -/
theorem cursor_eq (hides : Hides hidden offset plain marked) :
    marked.code.cursor = plain.code.cursor :=
  hides.view_eq (·.code.cursor) fun _ _ => rfl

/-- The settings are the same. -/
theorem settings_eq (hides : Hides hidden offset plain marked) : marked.settings = plain.settings :=
  hides.view_eq Assembler.settings fun _ _ => rfl

/-- The flow graph changes in a way that leaves the place of the label all that is different. -/
theorem onGraph (hides : Hides hidden offset plain marked) (change : FlowGraph → FlowGraph)
    (graph : (change plain.graph).Hides hidden offset (change marked.graph)) :
    Hides hidden offset { plain with graph := change plain.graph }
      { marked with graph := change marked.graph } := by
  refine ⟨graph, ?_⟩
  rw [hides.rest]

/-- What changes is not the flow graph, and does not depend on it. -/
theorem map (hides : Hides hidden offset plain marked) (change : Assembler → Assembler)
    (overlooks : ∀ assembler graph,
      change { assembler with graph } = { change assembler with graph }) :
    Hides hidden offset (change plain) (change marked) := by
  have kept (assembler : Assembler) : (change assembler).graph = assembler.graph := by
    have whole := congrArg Assembler.graph (overlooks assembler assembler.graph)
    exact whole
  refine ⟨?_, ?_⟩
  · rw [kept, kept]
    exact hides.graph
  · rw [kept]
    conv_lhs => rw [hides.rest, overlooks]

/-- Another label changes, or the change overlooks the places of labels. -/
theorem update (hides : Hides hidden offset plain marked) {change : Node → Node}
    (apart : label ≠ hidden ∨ Node.Overlooks offset change) :
    Hides hidden offset (plain.update label change) (marked.update label change) :=
  hides.onGraph (·.update label change) (hides.graph.update apart)

/-- The flow through some block changes. -/
theorem amend (hides : Hides hidden offset plain marked) {change : Node → Node}
    (same : ∀ node, change (node.placedAt offset) = (change node).placedAt offset ∧
      (change node).usage = node.usage) (label : Label) :
    Hides hidden offset (plain.update label change) (marked.update label change) :=
  hides.update (.inr (.of_usage same))

/-- The open block gets an edge. -/
theorem addEdge (hides : Hides hidden offset plain marked) (successor : Label) :
    Hides hidden offset (plain.addEdge successor) (marked.addEdge successor) := by
  cases opened : plain.openBlock with
  | none => rwa [addEdge_of_none opened, addEdge_of_none (hides.openBlock_eq.trans opened)]
  | some block =>
    rw [addEdge_of_some opened, addEdge_of_some (hides.openBlock_eq.trans opened)]
    refine hides.amend ?_ block.label
    exact fun _ => ⟨rfl, rfl⟩

/-- The open block is closed. -/
theorem closeBlock (hides : Hides hidden offset plain marked) :
    Hides hidden offset plain.closeBlock marked.closeBlock := by
  cases opened : plain.openBlock with
  | none => rwa [closeBlock_of_none opened, closeBlock_of_none (hides.openBlock_eq.trans opened)]
  | some block =>
    rw [closeBlock_of_some opened, closeBlock_of_some (hides.openBlock_eq.trans opened)]
    have left := hides.map (fun assembler => { assembler with openBlock := none }) fun _ _ => rfl
    refine left.amend ?_ block.label
    exact fun _ => ⟨rfl, rfl⟩

/-- A block starts at a label. -/
theorem startBlock (hides : Hides hidden offset plain marked) (label : Label) :
    Hides hidden offset (plain.startBlock label) (marked.startBlock label) := by
  have opens {one other : Assembler} (hides : Hides hidden offset one other) (isFallenInto : Bool) :
      Hides hidden offset (one.openAt label isFallenInto) (other.openAt label isFallenInto) :=
    ⟨hides.graph.pushBlock label, by rw [hides.rest]; rfl⟩
  cases opened : plain.openBlock with
  | none =>
    simp only [Assembler.startBlock, opened, hides.openBlock_eq]
    exact opens hides false
  | some block =>
    simp only [Assembler.startBlock, opened, hides.openBlock_eq]
    exact opens (hides.addEdge label).closeBlock true

/-- The open block ends with a return from a subroutine. -/
theorem endSubroutine (hides : Hides hidden offset plain marked) :
    Hides hidden offset plain.endSubroutine marked.endSubroutine := by
  cases opened : plain.openBlock with
  | none => simpa only [Assembler.endSubroutine, opened, hides.openBlock_eq] using hides
  | some block =>
    simp only [Assembler.endSubroutine, opened, hides.openBlock_eq]
    refine hides.closeBlock.amend ?_ block.label
    exact fun _ => ⟨rfl, rfl⟩

end Hides

/-- A change that does not depend on the flow graph is made in step. -/
theorem inStep_modify {change : Assembler → Assembler}
    (overlooks : ∀ assembler graph,
      change { assembler with graph } = { change assembler with graph }) :
    Action.InStep (Hides hidden offset) (modify change) :=
  .modify fun hides => hides.map change overlooks

/-- An action on the code runs in step. -/
theorem inStep_onCode (action : Action Buffer α) :
    Action.InStep (Hides hidden offset) (onCode action) := by
  intro plain marked hides
  have same : marked.code = plain.code := hides.view_eq code fun _ _ => rfl
  simp only [onCode, Action.run_focus, same]
  refine ⟨rfl, rfl, ?_⟩
  exact hides.map (fun assembler =>
    { assembler with code := (action.run plain.code).state }) fun _ _ => rfl

/-- An action on the flow graph runs in step if it does so on the flow graph alone. -/
theorem inStep_onGraph {action : Action FlowGraph α}
    (inStep : Action.InStep (FlowGraph.Hides hidden offset) action) :
    Action.InStep (Hides hidden offset) (onGraph action) :=
  .focus inStep (fun hides => hides.graph) fun hides graph => ⟨graph, by rw [hides.rest]⟩

/-- The cursor is the same. -/
theorem inStep_cursor : Action.InStep (Hides hidden offset) cursor :=
  .inspect fun hides => hides.cursor_eq

/-- Bytes are written. -/
theorem inStep_append (bytes : List UInt8) :
    Action.InStep (Hides hidden offset) (modify (·.append bytes)) :=
  inStep_modify fun _ _ => rfl

/-- What is known about another label is found. -/
theorem inStep_getNode (other : label ≠ hidden) :
    Action.InStep (Hides hidden offset) (getNode label) :=
  .read fun hides => by simp only [FlowGraph.node, hides.graph.node?_eq other]

/-- Another label is placed. -/
theorem inStep_place (other : label ≠ hidden) :
    Action.InStep (Hides hidden offset) (place label) := by
  refine .bind (inStep_getNode other) fun node => .bind inStep_cursor fun cursor =>
    .bind (inStep_onCode _) fun (placed, rewritten) =>
      .bind (.modify fun hides => hides.update (.inl other)) fun _ =>
        .bind (inStep_modify fun _ _ => rfl) fun _ => .bind (.report _) fun _ => ?_
  split
  · exact .pure ()
  · exact .modify fun hides => hides.startBlock label

/-- A label is created, the same one in both. -/
theorem inStep_create (flags : Flags) : Action.InStep (Hides hidden offset) (create flags) :=
  .bind (.inspect fun hides => hides.graph.nextLabel_eq) fun label =>
    .bind (.modify fun hides => hides.onGraph (·.create flags) (hides.graph.create flags))
      fun _ => .pure label

/-- A label is created and placed. -/
theorem inStep_create_place (flags : Flags) :
    Action.InStep (Hides hidden offset) (create flags >>= place) := by
  refine .bind_of_answer (inStep_create flags) fun {plain marked label} hides answers => ?_
  obtain rfl : plain.graph.nextLabel = label := Except.ok.inj answers
  exact inStep_place hides.graph.nextLabel_ne

/-- Another label is marked as a target. -/
theorem inStep_markTarget (other : label ≠ hidden) :
    Action.InStep (Hides hidden offset) (markTarget label) :=
  inStep_onGraph (FlowGraph.inStep_revise other _)

/-- Another label is marked as a bound. -/
theorem inStep_markBound (other : label ≠ hidden) :
    Action.InStep (Hides hidden offset) (markBound label) :=
  inStep_onGraph (FlowGraph.inStep_revise other _)

/-- The distance to another label is written. -/
theorem inStep_refer (other : target ≠ hidden) (source : Nat) (width : Width) :
    Action.InStep (Hides hidden offset) (refer target source width) :=
  .bind (inStep_getNode other) fun _ => .bind (inStep_onCode _) fun _ =>
    .modify fun hides => hides.update (.inl other)

/-- The open block ends with a call. -/
theorem inStep_call (block : OpenBlock) (entry : Label) :
    Action.InStep (Hides hidden offset) (call block entry) := by
  refine .bind (inStep_modify fun _ _ => rfl) fun _ =>
    .bind (.modify fun hides => hides.amend ?_ entry) fun _ =>
      .bind (.modify fun hides => hides.amend ?_ block.label) fun _ =>
        .bind (.modify fun hides => hides.amend ?_ block.label) fun _ =>
          inStep_create_place {}
  all_goals exact fun _ => ⟨rfl, rfl⟩

/-- The open block ends with a jump that is no call. -/
theorem inStep_branch (base : Opcode) (target : Label) (nextIsTarget : Bool) :
    Action.InStep (Hides hidden offset) (branch base target nextIsTarget) := by
  refine .bind (inStep_modify fun _ _ => rfl) fun _ =>
    .bind (.modify fun hides => hides.addEdge target) fun _ => ?_
  split
  · exact .modify fun hides => hides.closeBlock
  · exact inStep_create_place _

/-- A jump to another label is written in some form. -/
theorem inStep_emitJump (other : target ≠ hidden) (form : JumpForm) :
    Action.InStep (Hides hidden offset) (emitJump form target) := by
  cases form with
  | plain opcode width =>
    exact .bind inStep_cursor fun source => .bind (inStep_append [opcode]) fun _ =>
      inStep_refer other source width
  | inverted inverse =>
    exact .bind (inStep_append _) fun _ => .bind inStep_cursor fun source =>
      .bind (inStep_append [Opcode.gotoWide]) fun _ => inStep_refer other source .wide

/-- A jump to another label is written. -/
theorem inStep_jump (other : target ≠ hidden) (opcode : Opcode) :
    Action.InStep (Hides hidden offset) (jump opcode target) := by
  by_cases jumps : opcode.isJump = true
  · simp only [jump, jumps, if_true]
    refine .bind (inStep_markTarget other) fun _ => .bind inStep_cursor fun source =>
      .bind (inStep_getNode other) fun node => ?_
    split
    · refine .bind (inStep_emitJump other _) fun _ => .bind (.report _) fun _ =>
        .bind (.inspect fun hides => hides.openBlock_eq) fun found => ?_
      split
      · exact .pure ()
      · split
        · exact inStep_call _ target
        · exact inStep_branch _ target _
    · exact .throw _
  · simp only [jump, jumps]
    exact .throw _

/-- The head of a switch with another fallback is written. -/
theorem inStep_beginSwitch (other : label ≠ hidden) (opcode : Opcode) :
    Action.InStep (Hides hidden offset) (beginSwitch opcode label) :=
  .bind inStep_cursor fun source => .bind (inStep_append [opcode]) fun _ =>
    .bind (inStep_modify fun _ _ => rfl) fun _ =>
      .bind (inStep_refer other source .wide) fun _ => .pure source

/-- The open block ends with a switch to other labels. -/
theorem inStep_endSwitch {targets : List Label} (others : ∀ target ∈ targets, target ≠ hidden) :
    Action.InStep (Hides hidden offset) (endSwitch targets) :=
  .bind (inStep_modify fun _ _ => rfl) fun _ => .bind (.forEach fun target member =>
      .bind (inStep_markTarget (others target member)) fun _ =>
        .modify fun hides => hides.addEdge target)
    fun _ => .modify fun hides => hides.closeBlock

/-- An operation that does not name the label cannot tell whether it has its place. -/
theorem inStep_perform {operation : Operation} (unnamed : hidden ∉ operation.labels) :
    Action.InStep (Hides hidden offset) operation.perform := by
  have unlabelled {action : Action Assembler Unit}
      (inStep : Action.InStep (Hides hidden offset) action) :
      Action.InStep (Hides hidden offset) (Operation.withoutLabel action) :=
    .bind inStep fun _ => .pure none
  have others (label : Label) (named : label ∈ operation.labels) : label ≠ hidden :=
    ne_of_mem_of_not_mem named unnamed
  cases operation with
  | freshLabel => exact .bind (inStep_create {}) fun _ => .pure _
  | freshDebugLabel => exact .bind (inStep_create _) fun _ => .pure _
  | place label => exact unlabelled (inStep_place (others label (by simp [Operation.labels])))
  | instruction bytes delta =>
    cases bytes with
    | nil => exact unlabelled (.pure ())
    | cons opcode rest =>
      refine unlabelled ?_
      by_cases refused : needsOwnOperation opcode = true
      · simp only [Assembler.instruction, refused, if_true]
        exact .throw _
      · simp only [Assembler.instruction, refused]
        refine .bind (inStep_modify fun _ _ => rfl) fun _ => ?_
        split
        · exact .modify fun hides => hides.closeBlock
        · exact .pure ()
  | localInstruction request =>
    refine unlabelled (.bind (inStep_modify fun _ _ => rfl) fun _ =>
      .bind (inStep_modify fun _ _ => rfl) fun _ => ?_)
    split
    · exact .modify fun hides => hides.endSubroutine
    · exact .pure ()
  | jump opcode target =>
    exact unlabelled (inStep_jump (others target (by simp [Operation.labels])) opcode)
  | tableSwitch low high fallback targets =>
    have targetsToo (target : Label) (member : target ∈ targets) : target ≠ hidden :=
      others target (List.mem_cons_of_mem _ member)
    exact unlabelled
      (.bind (inStep_beginSwitch (others fallback List.mem_cons_self) _) fun source =>
      .bind (inStep_append _) fun _ => .bind (inStep_append _) fun _ =>
        .bind (.forEach fun target member =>
          inStep_refer (targetsToo target member) source .wide) fun _ =>
          inStep_endSwitch others)
  | lookupSwitch fallback cases =>
    have casesToo (one : Case) (member : one ∈ sortCases cases) : one.target ≠ hidden :=
      others one.target
        (List.mem_cons_of_mem _ (List.mem_map.mpr ⟨one, List.mem_mergeSort.mp member, rfl⟩))
    have targetsToo (target : Label)
      (member : target ∈ fallback :: (sortCases cases).map (·.target)) :
        target ≠ hidden := by
      rcases List.mem_cons.mp member with rfl | listed
      · exact others target List.mem_cons_self
      · obtain ⟨one, found, rfl⟩ := List.mem_map.mp listed
        exact casesToo one found
    exact unlabelled
      (.bind (inStep_beginSwitch (others fallback List.mem_cons_self) _) fun source =>
      .bind (inStep_append _) fun _ =>
        .bind (.forEach fun one member => .bind (inStep_append _) fun _ =>
          inStep_refer (casesToo one member) source .wide) fun _ => inStep_endSwitch targetsToo)
  | addLine label line =>
    have other := others label (by simp [Operation.labels])
    exact unlabelled (.bind (inStep_getNode other) fun _ =>
      .bind (.modify fun hides => hides.update (.inl other)) fun _ => inStep_modify fun _ _ => rfl)
  | addHandler handler =>
    exact unlabelled
      (.bind (inStep_markBound (others handler.start (by simp [Operation.labels]))) fun _ =>
      .bind (inStep_markBound (others handler.stop (by simp [Operation.labels]))) fun _ =>
        .bind (inStep_markTarget (others handler.handler (by simp [Operation.labels]))) fun _ =>
          inStep_modify fun _ _ => rfl)
  | declare maxima => exact unlabelled (inStep_modify fun _ _ => rfl)

/-- An idle label is placed: nothing waits for it, and no block starts there. -/
theorem run_place_of_isIdle {assembler : Assembler} {node : Node}
    (known : assembler.graph.node? label = some node) (idle : node.IsIdle) :
    (place label).run assembler
      = ⟨.ok (), assembler.update label (·.placedAt assembler.code.cursor),
          [.placed label assembler.code.cursor]⟩ := by
  have waits : node.placement = .pending .empty := by
    have unplaced := idle.unplaced
    have unreferenced := idle.unreferenced
    cases placement : node.placement with
    | placed offset => simp [Node.isPlaced, Node.offset?, placement] at unplaced
    | pending ledger =>
      rw [Node.pending, placement] at unreferenced
      exact congrArg _ (congrArg Ledger.mk (List.length_eq_zero_iff.mp unreferenced))
  have same : (assembler.graph.update label fun _ => node.placedAt assembler.code.cursor)
      = assembler.graph.update label (·.placedAt assembler.code.cursor) :=
    FlowGraph.update_const known fun node => node.placedAt assembler.code.cursor
  rw [run_place_of_ok known waits (run_resolve_empty _ _)]
  simp only [placed, idle.debugOnly, if_true, settle, Bool.or_false,
    List.nil_append, update, ← same]
  rfl

/-- Placing an idle label is one of the operations of a run. -/
theorem run_perform_place_of_isIdle {assembler : Assembler} {node : Node}
    (known : assembler.graph.node? label = some node) (idle : node.IsIdle) :
    (Operation.place label).perform.run assembler
      = ⟨.ok none, assembler.update label (·.placedAt assembler.code.cursor),
          [.placed label assembler.code.cursor]⟩ := by
  rw [Operation.perform, Operation.withoutLabel, Action.run_bind, run_place_of_isIdle known idle]
  rfl

/-- An idle label gets a place, and nothing else changes. -/
theorem hides_placedAt {assembler : Assembler}
    (idle : ∃ node, assembler.graph.node? hidden = some node ∧ node.IsIdle) (offset : Nat) :
    Hides hidden offset assembler (assembler.update hidden (·.placedAt offset)) :=
  ⟨⟨idle, rfl⟩, rfl⟩

end Assembler

/-- What the operation of a moment answers and reports. -/
def Moment.report (moment : Moment) : Except Error (Option Label) × List Event :=
  let outcome := moment.operation.perform.run moment.before
  (outcome.answer, outcome.events)

namespace Assembler

/-- What the operations of a run answer and report, in order. -/
def reports (assembler : Assembler) (operations : List Operation) :
    List (Except Error (Option Label) × List Event) :=
  (assembler.history operations).map Moment.report

variable {hidden : Label} {offset : Nat} {plain marked : Assembler}

/-- The reports on one run followed by another. -/
theorem reports_append (assembler : Assembler) (first second : List Operation) :
    assembler.reports (first ++ second)
      = assembler.reports first ++ (assembler.afterAll first).reports second := by
  induction first generalizing assembler with
  | nil => rfl
  | cons operation rest ih => exact congrArg _ (ih (assembler.after operation))

/-- A run whose operations do not name the label: the reports are the same, and the place of the
label is still all that is different. -/
theorem Hides.afterAll (hides : Hides hidden offset plain marked) {operations : List Operation}
    (unnamed : ∀ operation ∈ operations, hidden ∉ operation.labels) :
    marked.reports operations = plain.reports operations ∧
      Hides hidden offset (plain.afterAll operations) (marked.afterAll operations) := by
  induction operations generalizing plain marked with
  | nil => exact ⟨rfl, hides⟩
  | cons operation rest ih =>
    obtain ⟨answer, events, reached⟩ :=
      inStep_perform (unnamed operation List.mem_cons_self) plain marked hides
    obtain ⟨same, last⟩ :=
      ih reached fun other member => unnamed other (List.mem_cons_of_mem _ member)
    exact ⟨congrArg₂ List.cons (congrArg₂ Prod.mk answer events) same, last⟩

/-- The tables do not name the label that is idle in one assembler and has a place in the other. -/
structure Conceals (hidden : Label) (offset : Nat) (plain marked : Assembler) : Prop
    extends Hides hidden offset plain marked where
  /-- No protected range names the label. -/
  handlers : ∀ handler ∈ plain.handlers, hidden ∉ handler.labels
  /-- No line is attached to the label. -/
  lines : ∀ mark ∈ plain.lines, mark.label ≠ hidden

namespace Conceals

/-- The tables hold the same offset for any other label. -/
theorem tableOffset_eq (conceals : Conceals hidden offset plain marked) {label : Label}
    (other : label ≠ hidden) : marked.tableOffset label = plain.tableOffset label := by
  simp only [tableOffset, FlowGraph.node, conceals.graph.node?_eq other]

/-- The exception tables are the same. -/
theorem handlerRows_eq (conceals : Conceals hidden offset plain marked) :
    marked.handlerRows = plain.handlerRows := by
  have same : marked.handlers = plain.handlers := conceals.view_eq Assembler.handlers fun _ _ => rfl
  rw [handlerRows, same]
  refine mapM_congr fun handler member => ?_
  have others (label : Label) (named : label ∈ handler.labels) : label ≠ hidden :=
    ne_of_mem_of_not_mem named (conceals.handlers handler (Array.mem_toList_iff.mp member))
  rw [conceals.tableOffset_eq (others handler.start (by simp [Handler.labels])),
    conceals.tableOffset_eq (others handler.stop (by simp [Handler.labels])),
    conceals.tableOffset_eq (others handler.handler (by simp [Handler.labels]))]

/-- The line number tables are the same. -/
theorem lineRows_eq (conceals : Conceals hidden offset plain marked) :
    marked.lineRows = plain.lineRows := by
  have same : marked.lines = plain.lines := conceals.view_eq Assembler.lines fun _ _ => rfl
  unfold lineRows
  rw [same, conceals.settings_eq]
  split
  · refine mapM_congr fun mark member => ?_
    rw [conceals.tableOffset_eq (conceals.lines mark (Array.mem_toList_iff.mp member))]
  · rfl

/-- The open block is closed. -/
theorem closeBlock (conceals : Conceals hidden offset plain marked) :
    Conceals hidden offset plain.closeBlock marked.closeBlock := by
  refine ⟨conceals.toHides.closeBlock, ?_, ?_⟩
  · rw [closeBlock_eq]
    exact conceals.handlers
  · rw [closeBlock_eq]
    exact conceals.lines

end Conceals

/-- An action on the flow graph leaves the tables alone. -/
theorem inStep_onGraph_of_conceals {α : Type} {action : Action FlowGraph α}
    (inStep : Action.InStep (FlowGraph.Hides hidden offset) action) :
    Action.InStep (Conceals hidden offset) (onGraph action) :=
  .focus inStep (fun conceals => conceals.graph) fun conceals graph =>
    ⟨⟨graph, by rw [conceals.rest]⟩, conceals.handlers, conceals.lines⟩

/-- The subroutines are found, if there are any. -/
theorem inStep_findSubroutines : Action.InStep (Conceals hidden offset) findSubroutines := by
  refine .bind (.inspect fun conceals =>
    conceals.view_eq callsSubroutines fun _ _ => rfl) fun calls => ?_
  split
  · exact .bind (inStep_onGraph_of_conceals FlowGraph.inStep_analyzeSubroutines) fun _ => .report _
  · exact .pure ()

/-- The maxima are computed, or taken as declared. -/
theorem inStep_maxima : Action.InStep (Conceals hidden offset) maxima := by
  refine .bind (.inspect fun conceals => conceals.view_eq (·.settings.computeMaxima) fun _ _ => rfl)
    fun computes => ?_
  split
  · exact .bind (inStep_onGraph_of_conceals FlowGraph.inStep_computeMaxStack) fun height =>
      .bind (.inspect fun conceals => conceals.view_eq localsNeeded fun _ _ => rfl) fun count =>
        .bind (.ofExcept _) fun _ => .bind (.ofExcept _) fun _ => .pure _
  · exact .inspect fun conceals => conceals.view_eq declared fun _ _ => rfl

/-- All that is worked out of a complete method: its maxima and its tables. -/
def tabulate : Action Assembler (Maxima × List HandlerRow × List LineRow) := do
  modify Assembler.closeBlock
  let handlers ← Action.inspect (·.handlers.toList)
  Action.forEach handlers fun handler => onGraph (addHandlerEdges handler)
  findSubroutines
  let maxima ← maxima
  let handlers ← Action.read handlerRows
  let lines ← Action.read lineRows
  pure (maxima, handlers, lines)

/-- The method that is handed over, once its maxima and its tables are worked out. -/
def assembled (assembler : Assembler) : Maxima × List HandlerRow × List LineRow → MethodCode
  | (maxima, handlers, lines) =>
    { code := assembler.code
      maxima
      handlers
      lines
      needsWidening := assembler.needsWidening
      graph := assembler.graph }

/-- Hand over the method, once its maxima and its tables are worked out. -/
def handOver (tables : Maxima × List HandlerRow × List LineRow) : Action Assembler MethodCode := do
  let assembler ← get
  if assembler.needsWidening then Action.report .needsWidening
  pure (assembler.assembled tables)

/-- Handing over the method changes nothing. -/
theorem run_handOver (tables : Maxima × List HandlerRow × List LineRow) (assembler : Assembler) :
    (handOver tables).run assembler = ⟨.ok (assembler.assembled tables), assembler,
      if assembler.needsWidening then [.needsWidening] else []⟩ := by
  rw [handOver, Action.run_bind, Action.run_get, Outcome.andThen_ok]
  split <;> rfl

/-- A method is finished by working out its maxima and its tables, if it is complete. -/
theorem finish_eq : finish = (do
    Action.check (← Action.inspect unfinished?)
    handOver (← tabulate)) := by
  simp only [finish, tabulate, bind_assoc, pure_bind]
  rfl

/-- The maxima and the tables are worked out. -/
theorem inStep_tabulate : Action.InStep (Conceals hidden offset) tabulate := by
  refine .bind (.modify fun conceals => conceals.closeBlock) fun _ =>
    .bind (.inspect fun conceals => ?_)
    fun handlers => .bind (.forEach fun handler _ =>
        inStep_onGraph_of_conceals (FlowGraph.inStep_addHandlerEdges handler)) fun _ =>
      .bind inStep_findSubroutines fun _ => .bind inStep_maxima fun _ =>
        .bind (.read fun conceals => conceals.handlerRows_eq) fun _ =>
          .bind (.read fun conceals => conceals.lineRows_eq) fun _ => .pure _
  exact conceals.view_eq (·.handlers.toList) fun _ _ => rfl

/-- Control could run off the end in the same block. -/
theorem Hides.unfinishedBlock?_eq (hides : Hides hidden offset plain marked)
    (unused : plain.LeavesUnused hidden) : marked.unfinishedBlock? = plain.unfinishedBlock? := by
  unfold unfinishedBlock?
  rw [hides.openBlock_eq, hides.cursor_eq]
  cases opened : plain.openBlock with
  | none => rfl
  | some block =>
    have other := unused.openBlock block opened
    simp only [Option.bind_eq_bind, Option.bind_some, hides.graph.node?_eq other]

/-- The label is not among those that have to be placed, whether it has its place or not. -/
theorem Hides.unplacedTargets_eq (hides : Hides hidden offset plain marked)
    (unused : plain.LeavesUnused hidden) : marked.unplacedTargets = plain.unplacedTargets := by
  obtain ⟨node, known, idle⟩ := hides.graph.idle
  unfold unplacedTargets
  rw [hides.graph.same, FlowGraph.update, Array.toList_modify]
  refine congrArg (List.map _) (filter_modify fun other found => ?_)
  rw [Array.getElem?_toList] at found
  obtain rfl : node = other := Option.some.inj (known.symm.trans found)
  refine ⟨?_, rfl⟩
  rw [idle.unreferenced, unused.target node known]
  simp

/-- The method is complete in both, or unfinished for the same cause. -/
theorem Hides.unfinished?_eq (hides : Hides hidden offset plain marked)
    (unused : plain.LeavesUnused hidden) : marked.unfinished? = plain.unfinished? := by
  simp only [unfinished?, hides.unfinishedBlock?_eq unused, hides.unplacedTargets_eq unused,
    hides.cursor_eq, hides.settings_eq]

end Assembler

/-- The method with something else known about a label. -/
def MethodCode.update (code : MethodCode) (label : Label) (change : Node → Node) : MethodCode :=
  { code with graph := code.graph.update label change }

namespace Assembler

variable {hidden : Label} {offset : Nat} {plain marked : Assembler}

/-- The method is finished in the same way but for the place of the label, or refused for the same
cause. -/
theorem Hides.run_finish (hides : Hides hidden offset plain marked)
    (unused : plain.LeavesUnused hidden) :
    (finish.run marked).answer
        = (finish.run plain).answer.map (·.update hidden (·.placedAt offset)) ∧
      (finish.run marked).events = (finish.run plain).events ∧
      (finish.run marked).state = (finish.run plain).state.update hidden (·.placedAt offset) := by
  have conceals : Conceals hidden offset plain marked := ⟨hides, unused.handlers, unused.lines⟩
  simp only [finish_eq, Action.run_bind, Action.run_inspect, Outcome.andThen_ok, Outcome.after_nil,
    hides.unfinished?_eq unused]
  cases plain.unfinished? with
  | some cause => exact ⟨rfl, rfl, hides.eq_update⟩
  | none =>
    obtain ⟨answer, events, reached⟩ := inStep_tabulate plain marked conceals
    simp only [Action.check, Action.run_pure, Action.run_bind,
      Outcome.andThen_ok, Outcome.after_nil]
    generalize tabulate.run plain = outcome at answer events reached
    generalize tabulate.run marked = outcome' at answer events reached
    obtain ⟨value, state, reported⟩ := outcome
    obtain ⟨value', state', reported'⟩ := outcome'
    obtain rfl : value' = value := answer
    obtain rfl : reported' = reported := events
    obtain rfl : state' = state.update hidden (·.placedAt offset) := reached.toHides.eq_update
    cases value' with
    | error cause => exact ⟨rfl, rfl, rfl⟩
    | ok tables =>
      simp only [Outcome.andThen_ok, run_handOver]
      exact ⟨rfl, rfl, rfl⟩

/-- An idle label can be placed at any point of a run whose operations do not name it. No operation
answers or reports anything else than without it. Only the place of the label is different in the
end, and the method is finished in the same way but for that place, or refused for the same
cause. -/
theorem afterAll_place_of_isIdle (settings : Settings) (slots : UInt16)
    (earlier before after : List Operation) {hidden : Label} {node : Node}
    (known : ((start settings slots).afterAll earlier).graph.node? hidden = some node)
    (idle : node.IsIdle) (unnamed : ∀ operation ∈ before ++ after, hidden ∉ operation.labels) :
    let reached := (start settings slots).afterAll earlier
    let middle := reached.afterAll before
    let offset := middle.code.cursor
    let plain := reached.afterAll (before ++ after)
    let marked := reached.afterAll (before ++ .place hidden :: after)
    reached.reports (before ++ after) = reached.reports before ++ middle.reports after ∧
      reached.reports (before ++ .place hidden :: after)
        = reached.reports before ++ (.ok none, [.placed hidden offset]) :: middle.reports after ∧
      marked = plain.update hidden (·.placedAt offset) ∧
      (finish.run marked).answer
        = (finish.run plain).answer.map (·.update hidden (·.placedAt offset)) ∧
      (finish.run marked).events = (finish.run plain).events ∧
      (finish.run marked).state = (finish.run plain).state.update hidden (·.placedAt offset) := by
  intro reached middle offset plain marked
  -- The label is still idle when it is placed: the operations before cannot tell whether it has a
  -- place.
  obtain ⟨other, knownInside, stillIdle⟩ := ((hides_placedAt ⟨node, known, idle⟩ offset).afterAll
    fun operation member => unnamed operation (List.mem_append_left _ member)).2.graph.idle
  have ran : (Operation.place hidden).perform.run middle = ⟨.ok none,
      middle.update hidden (·.placedAt offset), [.placed hidden offset]⟩ :=
    run_perform_place_of_isIdle knownInside stillIdle
  have placed : middle.after (.place hidden) = middle.update hidden (·.placedAt offset) :=
    congrArg Outcome.state ran
  obtain ⟨reports, later⟩ := (hides_placedAt ⟨other, knownInside, stillIdle⟩ offset).afterAll
    fun operation member => unnamed operation (List.mem_append_right _ member)
  have ends : plain = middle.afterAll after := afterAll_append ..
  have endsToo : marked = (middle.update hidden (·.placedAt offset)).afterAll after := by
    rw [← placed]
    exact afterAll_append ..
  have hides : Hides hidden offset plain marked := by
    rw [ends, endsToo]
    exact later
  have unused : plain.LeavesUnused hidden := by
    obtain ⟨last, knownLast, idleLast⟩ := hides.graph.idle
    have whole : plain = (start settings slots).afterAll (earlier ++ (before ++ after)) :=
      (afterAll_append ..).symm
    rw [whole] at knownLast ⊢
    exact leavesUnused_afterAll settings slots _ knownLast idleLast
  have reported : middle.reports (.place hidden :: after)
      = (.ok none, [.placed hidden offset]) :: middle.reports after := by
    have one : Moment.report ⟨middle, .place hidden⟩ = (.ok none, [.placed hidden offset]) := by
      rw [Moment.report, ran]
    rw [← reports, ← placed, ← one]
    rfl
  refine ⟨reports_append reached before after, ?_, hides.eq_update, hides.run_finish unused⟩
  rw [reports_append, reported]

/-- A branch over an empty place, with a label for debugging that is not placed yet. -/
def unmarkedBranch : Assembler := (start {} 0).afterAll [.freshLabel, .freshDebugLabel]

/-- The label for debugging is placed behind the branch: the method has the same bytes, maxima and
blocks as without it, and the label is found at the offset behind the branch. -/
theorem afterAll_place_of_isIdle_unmarkedBranch :
    let before : List Operation := [.instruction [0x03] 1, .jump Opcode.ifEq ⟨1⟩]
    let after : List Operation := [.place ⟨1⟩, .instruction [Opcode.returnVoid] 0]
    let plain := unmarkedBranch.afterAll (before ++ after)
    let marked := unmarkedBranch.afterAll (before ++ .place ⟨2⟩ :: after)
    (finish.run plain).answer.map (fun code => (code.code, code.maxima, code.graph.blocks,
        (code.graph.node? ⟨2⟩).bind (·.offset?)))
      = .ok (⟨#[0x03, 0x99, 0, 3, 0xb1]⟩, ⟨1, 0⟩, #[⟨0⟩, ⟨3⟩, ⟨1⟩], none) ∧
    (finish.run marked).answer.map (fun code => (code.code, code.maxima, code.graph.blocks,
        (code.graph.node? ⟨2⟩).bind (·.offset?)))
      = .ok (⟨#[0x03, 0x99, 0, 3, 0xb1]⟩, ⟨1, 0⟩, #[⟨0⟩, ⟨3⟩, ⟨1⟩], some 4) := by
  intro before after plain marked
  have known : unmarkedBranch.graph.node? ⟨2⟩
      = some { label := ⟨2⟩, flags := { debugOnly := true } } := by
    decide
  have idle : Node.IsIdle { label := ⟨2⟩, flags := { debugOnly := true } } := ⟨rfl, rfl, rfl, rfl⟩
  obtain ⟨-, -, -, answer, -⟩ :=
    afterAll_place_of_isIdle {} 0 [.freshLabel, .freshDebugLabel] before after
    known idle (by decide)
  have same : (finish.run marked).answer
      = (finish.run plain).answer.map (·.update ⟨2⟩ (·.placedAt 4)) := answer
  rw [same]
  exact ⟨by decide +kernel, by decide +kernel⟩

end Assembler

end MethodBody
