import MethodBody.Proofs.Atomicity
import MethodBody.Proofs.BlockOrder

/-!
# Labels that nothing uses

A label is idle if only debug information may refer to it and nothing does: it has no place, no
reference waits for it and no line is attached to it. Whatever uses a label leaves its trace there
(`Node.IsTouched`): the block that is open has its place, the bounds and the handler of a protected
range are no longer there for debugging only unless they have their places, and a line is attached
to a label of the line table. No operation takes such a trace away (`touches_perform`). So nothing
in an assembler names an idle label, whatever failed before (`leavesUnused_afterAll`).
-/

namespace MethodBody

/-- Only debug information may refer to the label, and nothing does yet. -/
structure Node.IsIdle (node : Node) : Prop where
  /-- The label is there for debugging only. -/
  debugOnly : node.flags.debugOnly = true
  /-- The label has no place. -/
  unplaced : node.isPlaced = false
  /-- No reference waits for the label. -/
  unreferenced : node.pending = 0
  /-- No line is attached to the label. -/
  lines : node.lines = #[]

/-- The label has its place or a line, or it is not there for debugging only. -/
def Node.IsTouched (node : Node) : Prop :=
  node.isPlaced = true ∨ node.flags.debugOnly = false ∨ node.lines ≠ #[]

/-- An idle label is untouched. -/
theorem Node.IsIdle.not_isTouched {node : Node} (idle : node.IsIdle) : ¬node.IsTouched := by
  rintro (placed | ordinary | lined)
  · simp [idle.unplaced] at placed
  · simp [idle.debugOnly] at ordinary
  · exact lined idle.lines

/-- The label exists and is touched. -/
def FlowGraph.IsTouched (graph : FlowGraph) (label : Label) : Prop :=
  ∃ node, graph.node? label = some node ∧ node.IsTouched

/-- A label that stays touched when one label changes. -/
theorem FlowGraph.IsTouched.update {graph : FlowGraph} {label : Label}
    (touched : graph.IsTouched label) {changed : Label} {change : Node → Node}
    (keeps : ∀ node, node.IsTouched → (change node).IsTouched) :
    (graph.update changed change).IsTouched label := by
  obtain ⟨node, known, touched⟩ := touched
  by_cases same : changed = label
  · exact ⟨change node, by simp [node?_update, same, known], keeps node touched⟩
  · exact ⟨node, by simp [node?_update, same, known], touched⟩

/-- The labels that a protected range names. -/
def Handler.labels (handler : Handler) : List Label :=
  [handler.start, handler.stop, handler.handler]

namespace Assembler

/-- No label that was touched is untouched now, and what the tables have got since then names labels
that are touched. -/
structure Touches (before after : Assembler) : Prop where
  /-- Labels stay touched. -/
  kept : ∀ label, before.graph.IsTouched label → after.graph.IsTouched label
  /-- New protected ranges name labels that are touched. -/
  handlers : ∀ handler ∈ after.handlers, handler ∈ before.handlers ∨
    ∀ label ∈ handler.labels, after.graph.IsTouched label
  /-- New lines are attached to labels that are touched. -/
  lines : ∀ mark ∈ after.lines, mark ∈ before.lines ∨ after.graph.IsTouched mark.label

variable {assembler before after : Assembler} {label : Label}

namespace Touches

/-- Nothing happens to the labels and the tables. -/
theorem congr (graph : after.graph = before.graph) (handlers : after.handlers = before.handlers)
    (lines : after.lines = before.lines) : before.Touches after :=
  ⟨fun _ touched => graph ▸ touched, fun _ member => .inl (handlers ▸ member),
    fun _ member => .inl (lines ▸ member)⟩

/-- Nothing happens at all. -/
theorem refl (assembler : Assembler) : assembler.Touches assembler := congr rfl rfl rfl

/-- One thing happens after the other. -/
theorem trans {last : Assembler} (first : before.Touches after) (second : after.Touches last) :
    before.Touches last where
  kept label touched := second.kept label (first.kept label touched)
  handlers handler member := by
    rcases second.handlers handler member with old | new
    · exact (first.handlers handler old).imp_right fun touched label named =>
        second.kept label (touched label named)
    · exact .inr new
  lines mark member := by
    rcases second.lines mark member with old | new
    · exact (first.lines mark old).imp_right (second.kept mark.label)
    · exact .inr new

instance : IsPreorder Assembler Touches where
  refl := refl
  trans _ _ _ := trans

/-- A label changes and does not become untouched. -/
theorem update {change : Node → Node} (keeps : ∀ node, node.IsTouched → (change node).IsTouched)
    (assembler : Assembler) (changed : Label) :
    assembler.Touches (assembler.update changed change) :=
  ⟨fun _ touched => touched.update keeps, fun _ => .inl, fun _ => .inl⟩

/-- The open block gets an edge. -/
theorem addEdge (assembler : Assembler) (successor : Label) :
    assembler.Touches (assembler.addEdge successor) := by
  cases opened : assembler.openBlock with
  | none =>
    rw [addEdge_of_none opened]
    exact refl assembler
  | some block =>
    rw [addEdge_of_some opened]
    refine update ?_ assembler block.label
    exact fun _ => id

/-- The open block is closed. -/
theorem closeBlock (assembler : Assembler) : assembler.Touches assembler.closeBlock := by
  cases opened : assembler.openBlock with
  | none =>
    rw [closeBlock_of_none opened]
    exact refl assembler
  | some block =>
    rw [closeBlock_of_some opened]
    have left : assembler.Touches { assembler with openBlock := none } := congr rfl rfl rfl
    refine left.trans (update ?_ _ block.label)
    exact fun _ => id

/-- A block starts. -/
theorem startBlock (assembler : Assembler) (label : Label) :
    assembler.Touches (assembler.startBlock label) := by
  have opens (assembler : Assembler) (isFallenInto : Bool) :
      assembler.Touches (assembler.openAt label isFallenInto) :=
    ⟨fun _ => id, fun _ => .inl, fun _ => .inl⟩
  unfold Assembler.startBlock
  split
  · exact opens assembler false
  · exact ((addEdge assembler label).trans (closeBlock _)).trans (opens _ true)

/-- The open block ends with a return from a subroutine. -/
theorem endSubroutine (assembler : Assembler) : assembler.Touches assembler.endSubroutine := by
  unfold Assembler.endSubroutine
  split
  · exact refl assembler
  · rename_i block _
    refine (closeBlock assembler).trans (update ?_ _ block.label)
    exact fun _ => id

/-- A label is created. -/
theorem create (assembler : Assembler) (flags : Flags) :
    assembler.Touches { assembler with graph := assembler.graph.create flags } := by
  refine ⟨fun label touched => ?_, fun _ => .inl, fun _ => .inl⟩
  obtain ⟨node, known, touched⟩ := touched
  refine ⟨node, ?_, touched⟩
  have other : label ≠ assembler.graph.nextLabel := by
    rintro rfl
    simp at known
  rw [FlowGraph.node?_create, if_neg other, known]

/-- The distance to a label is written. -/
theorem refers (assembler : Assembler) (target : Label) (source : Nat) (width : Width) :
    assembler.Touches (assembler.refers target source width) := by
  have written : assembler.Touches (assembler.append (assembler.operand target source width)) :=
    congr rfl rfl rfl
  refine written.trans (update (fun node touched => ?_) _ target)
  have placed : (node.referred ⟨source, width, assembler.code.cursor⟩).isPlaced
      = node.isPlaced := by
    simp [Node.isPlaced]
  unfold Node.IsTouched at touched ⊢
  rw [placed]
  unfold Node.referred
  split <;> exact touched

/-- A label is marked as a target. -/
theorem marked (assembler : Assembler) (label : Label) :
    assembler.Touches (assembler.update label Node.marked) :=
  update (fun _ _ => .inr (.inl rfl)) assembler label

/-- A label is touched once it is marked as a bound. -/
theorem isTouched_bounded (node : Node) : node.bounded.IsTouched := by
  unfold Node.bounded
  split
  · rename_i placed
    exact .inl placed
  · exact .inr (.inl rfl)

/-- A label is marked as a bound. -/
theorem bounded (assembler : Assembler) (label : Label) :
    assembler.Touches (assembler.update label Node.bounded) :=
  update (fun node _ => isTouched_bounded node) assembler label

/-- A label is placed. -/
theorem placed {node : Node} (known : assembler.graph.node? label = some node) (code : Buffer)
    (rewritten : Bool) : assembler.Touches (assembler.placed label node code rewritten) := by
  have same := FlowGraph.update_const known fun node =>
    { node with placement := .placed assembler.code.cursor }
  have settled : assembler.Touches (assembler.settle label node code rewritten) := by
    have moved : assembler.Touches (assembler.update label fun node =>
        { node with placement := .placed assembler.code.cursor }) := by
      refine update ?_ assembler label
      exact fun _ _ => .inl rfl
    exact moved.trans (congr same rfl rfl)
  unfold Assembler.placed
  split
  · exact settled
  · exact settled.trans (startBlock _ label)

end Touches

/-- A label changes and does not become untouched. -/
theorem touches_update {change : Node → Node} (changed : Label)
    (keeps : ∀ node, node.IsTouched → (change node).IsTouched) :
    Action.Follows Touches (modify fun assembler => assembler.update changed change) :=
  fun assembler => .update keeps assembler changed

/-- Bytes are written. -/
theorem touches_append (bytes : List UInt8) :
    Action.Follows Touches (modify fun assembler => assembler.append bytes) :=
  fun _ => .congr rfl rfl rfl

/-- The distance to a label is written, or nothing happens. -/
theorem touches_refer (target : Label) (source : Nat) (width : Width) :
    Action.Follows Touches (refer target source width) := by
  intro assembler
  rcases state_refer assembler target source width with referred | same
  · rw [referred]
    exact .refers assembler target source width
  · rw [same]
    exact .refl assembler

/-- A label is marked as a target, or nothing happens. -/
theorem touches_markTarget (label : Label) : Action.Follows Touches (markTarget label) := by
  intro assembler
  cases known : assembler.graph.node? label with
  | none =>
    rw [run_markTarget_of_unknown known]
    exact .refl assembler
  | some node =>
    rw [run_markTarget known]
    split
    · exact .refl assembler
    · exact .marked assembler label

/-- A label is marked as a bound, or nothing happens. -/
theorem touches_markBound (label : Label) : Action.Follows Touches (markBound label) := by
  intro assembler
  cases known : assembler.graph.node? label with
  | none =>
    rw [run_markBound_of_unknown known]
    exact .refl assembler
  | some node =>
    rw [run_markBound (by simp [known])]
    exact .bounded assembler label

/-- A label is placed, or bytes are overwritten. -/
theorem touches_place (label : Label) : Action.Follows Touches (place label) := by
  intro assembler
  cases known : assembler.graph.node? label with
  | none =>
    rw [run_place_of_unknown known]
    exact .refl assembler
  | some node =>
    cases placement : node.placement with
    | placed offset =>
      rw [run_place_of_placed known placement]
      exact .refl assembler
    | pending ledger =>
      cases resolved : (ledger.resolve assembler.code.cursor).run assembler.code with
      | mk answer code events =>
      cases answer with
      | error cause =>
        rw [run_place_of_error known placement resolved]
        exact .congr rfl rfl rfl
      | ok rewritten =>
        rw [run_place_of_ok known placement resolved]
        exact .placed known code rewritten

/-- A label is created. -/
theorem touches_create (flags : Flags) : Action.Follows Touches (create flags) :=
  .bind (fun _ => .refl _) fun _ =>
    .bind (fun assembler => .create assembler flags) fun _ _ => .refl _

/-- The open block ends with a call. -/
theorem touches_call (block : OpenBlock) (entry : Label) :
    Action.Follows Touches (call block entry) :=
  .bind (fun _ => .congr rfl rfl rfl) fun _ =>
    .bind (touches_update entry fun _ => id) fun _ =>
    .bind (touches_update block.label fun _ => id) fun _ =>
    .bind (touches_update block.label fun _ => id) fun _ =>
    .bind (touches_create {}) touches_place

/-- The open block ends with a jump that is no call. -/
theorem touches_branch (base : Opcode) (target : Label) (nextIsTarget : Bool) :
    Action.Follows Touches (branch base target nextIsTarget) := by
  refine .bind (fun _ => .congr rfl rfl rfl) fun _ =>
    .bind (fun assembler => .addEdge assembler target) fun _ => ?_
  split
  · exact fun assembler => .closeBlock assembler
  · exact .bind (touches_create _) touches_place

/-- A jump is written in some form. -/
theorem touches_emitJump (form : JumpForm) (target : Label) :
    Action.Follows Touches (emitJump form target) := by
  cases form with
  | plain opcode width =>
    exact .bind (fun _ => .refl _) fun source => .bind (touches_append [opcode]) fun _ =>
      touches_refer target source width
  | inverted inverse =>
    exact .bind (touches_append _) fun _ => .bind (fun _ => .refl _) fun source =>
      .bind (touches_append [Opcode.gotoWide]) fun _ => touches_refer target source .wide

/-- A jump is written. -/
theorem touches_jump (opcode : Opcode) (target : Label) :
    Action.Follows Touches (jump opcode target) := by
  by_cases jumps : opcode.isJump = true
  · simp only [jump, jumps, if_true]
    refine .bind (touches_markTarget target) fun _ => .bind (fun _ => .refl _) fun source =>
      .bind (fun _ => .refl _) fun node => ?_
    split
    · refine .bind (touches_emitJump _ target) fun _ => .bind (fun _ => .refl _) fun _ =>
        .bind (fun _ => .refl _) fun found => ?_
      split
      · exact fun _ => .refl _
      · split
        · exact touches_call _ target
        · exact touches_branch _ target _
    · exact fun _ => .refl _
  · simp only [jump, jumps]
    exact fun _ => .refl _

/-- The head of a switch is written. -/
theorem touches_beginSwitch (opcode : Opcode) (fallback : Label) :
    Action.Follows Touches (beginSwitch opcode fallback) :=
  .bind (fun _ => .refl _) fun source => .bind (touches_append [opcode]) fun _ =>
    .bind (fun _ => .congr rfl rfl rfl) fun _ =>
      .bind (touches_refer fallback source .wide) fun _ _ => .refl _

/-- The open block ends with a switch. -/
theorem touches_endSwitch (targets : List Label) : Action.Follows Touches (endSwitch targets) := by
  refine .bind (fun _ => .congr rfl rfl rfl) fun _ => .bind (.forEach targets fun target _ => ?_)
    fun _ assembler => .closeBlock assembler
  exact .bind (touches_markTarget target) fun _ assembler => .addEdge assembler target

/-- A label that a line is attached to is touched. -/
theorem touches_addLine (label : Label) (line : UInt16) :
    Action.Follows Touches (addLine label line) := by
  intro assembler
  cases known : assembler.graph.node? label with
  | none =>
    have unknown : (addLine label line).run assembler
        = ⟨.error (.unknownLabel label), assembler, []⟩ := by
      simp [addLine, getNode, FlowGraph.node, known]
    rw [unknown]
    exact .refl assembler
  | some node =>
    have lined : (addLine label line).run assembler
        = ⟨.ok (), { assembler.update label (·.addLine line)
            with lines := assembler.lines.push { label, line } }, []⟩ := by
      simp [addLine, run_getNode known, update]
    rw [lined]
    have attached : assembler.Touches (assembler.update label (·.addLine line)) :=
      .update (fun node _ => .inr (.inr (by simp [Node.addLine]))) assembler label
    refine ⟨attached.kept, fun _ => .inl, fun mark member => ?_⟩
    rcases Array.mem_push.mp member with old | rfl
    · exact .inl old
    · refine .inr ⟨node.addLine line, ?_, .inr (.inr (by simp [Node.addLine]))⟩
      simp [update, FlowGraph.node?_update, known]

/-- The labels of a protected range that is added are touched. -/
theorem Touches.protects {handler : Handler}
    (known : ∀ label ∈ handler.labels, (assembler.graph.node? label).isSome) :
    assembler.Touches (assembler.protects handler) := by
  let started := assembler.update handler.start Node.bounded
  let bounds := assembler.bounds handler
  let marked := bounds.update handler.handler Node.marked
  have one : assembler.Touches started := .bounded _ _
  have two : started.Touches bounds := .bounded _ _
  have three : bounds.Touches marked := .marked _ _
  have all : assembler.Touches marked := (one.trans two).trans three
  have changed {before : Assembler} {label : Label} {change : Node → Node}
      (known : (before.graph.node? label).isSome) (touched : ∀ node, (change node).IsTouched) :
      (before.update label change).graph.IsTouched label := by
    obtain ⟨node, found⟩ := Option.isSome_iff_exists.mp known
    exact ⟨change node, by simp [Assembler.update, FlowGraph.node?_update, found], touched node⟩
  have start : marked.graph.IsTouched handler.start :=
    three.kept _ (two.kept _ (changed (known _ (by simp [Handler.labels])) isTouched_bounded))
  have stop : marked.graph.IsTouched handler.stop := by
    refine three.kept _ (changed ?_ isTouched_bounded)
    rw [Assembler.update, FlowGraph.isSome_node?_update]
    exact known _ (by simp [Handler.labels])
  have entry : marked.graph.IsTouched handler.handler := by
    refine changed ?_ fun _ => .inr (.inl rfl)
    simp only [bounds, Assembler.bounds, Assembler.update, FlowGraph.isSome_node?_update]
    exact known _ (by simp [Handler.labels])
  refine ⟨all.kept, fun other member => ?_, fun _ => .inl⟩
  rcases Array.mem_push.mp member with old | rfl
  · exact .inl old
  · right
    simp only [Handler.labels, List.forall_mem_cons]
    exact ⟨start, stop, entry, by simp⟩

/-- A protected range is added, or labels are marked as its bounds. -/
theorem touches_addHandler (handler : Handler) : Action.Follows Touches (addHandler handler) := by
  have lapses : Action.Lapses Touches (addHandler handler) :=
    .bind (touches_markBound _) fun _ => .bind (touches_markBound _) fun _ =>
      .bind (touches_markTarget _) fun _ => .of_ok fun _ => ⟨(), rfl⟩
  intro assembler
  cases answered : ((addHandler handler).run assembler).answer with
  | error cause => exact lapses assembler cause answered
  | ok answer =>
    obtain ⟨adds, -, known⟩ := of_yields_addHandler (Action.yields_of_answer answered)
    rw [← adds]
    exact .protects known

/-- No operation takes the traces away that the use of a label left, whether it fails or not. -/
theorem touches_perform (operation : Operation) : Action.Follows Touches operation.perform := by
  have unlabelled {action : Action Assembler Unit} (touches : Action.Follows Touches action) :
      Action.Follows Touches (Operation.withoutLabel action) := .bind touches fun _ _ => .refl _
  cases operation with
  | freshLabel => exact .bind (touches_create {}) fun _ _ => .refl _
  | freshDebugLabel => exact .bind (touches_create _) fun _ _ => .refl _
  | place label => exact unlabelled (touches_place label)
  | instruction bytes delta =>
    cases bytes with
    | nil => exact unlabelled fun _ => .refl _
    | cons opcode rest =>
      refine unlabelled ?_
      by_cases refused : needsOwnOperation opcode = true
      · simp only [Assembler.instruction, refused, if_true]
        exact fun _ => .refl _
      · simp only [Assembler.instruction, refused]
        refine .bind (fun _ => .congr rfl rfl rfl) fun _ => ?_
        split
        · exact fun assembler => .closeBlock assembler
        · exact fun _ => .refl _
  | localInstruction request =>
    refine unlabelled (.bind (fun _ => .congr rfl rfl rfl) fun _ =>
      .bind (fun _ => .congr rfl rfl rfl) fun _ => ?_)
    split
    · exact fun assembler => .endSubroutine assembler
    · exact fun _ => .refl _
  | jump opcode target => exact unlabelled (touches_jump opcode target)
  | tableSwitch low high fallback targets =>
    exact unlabelled (.bind (touches_beginSwitch _ fallback) fun source =>
      .bind (touches_append _) fun _ => .bind (touches_append _) fun _ =>
        .bind (.forEach targets fun target _ => touches_refer target source .wide) fun _ =>
          touches_endSwitch _)
  | lookupSwitch fallback cases =>
    exact unlabelled (.bind (touches_beginSwitch _ fallback) fun source =>
      .bind (touches_append _) fun _ =>
        .bind (.forEach _ fun one _ => .bind (touches_append _) fun _ =>
          touches_refer one.target source .wide) fun _ => touches_endSwitch _)
  | addLine label line => exact unlabelled (touches_addLine label line)
  | addHandler handler => exact unlabelled (touches_addHandler handler)
  | declare maxima => exact unlabelled fun _ => .congr rfl rfl rfl

/-- A run takes no such traces away either. -/
theorem touches_afterAll (assembler : Assembler) (operations : List Operation) :
    assembler.Touches (assembler.afterAll operations) := by
  induction operations generalizing assembler with
  | nil => exact .refl assembler
  | cons operation rest ih => exact (touches_perform operation assembler).trans (ih _)

/-- The label is not the one of the open block, no protected range and no line names it, and control
is not transferred to it. -/
structure LeavesUnused (assembler : Assembler) (label : Label) : Prop where
  /-- The open block starts at another label. -/
  openBlock : ∀ block, assembler.openBlock = some block → block.label ≠ label
  /-- No protected range names the label. -/
  handlers : ∀ handler ∈ assembler.handlers, label ∉ handler.labels
  /-- No line is attached to the label. -/
  lines : ∀ mark ∈ assembler.lines, mark.label ≠ label
  /-- Control is not transferred to the label. -/
  target : ∀ node, assembler.graph.node? label = some node → node.flags.jumpTarget = false

/-- Nothing uses an idle label after a run, whether operations failed or not. -/
theorem leavesUnused_afterAll (settings : Settings) (slots : UInt16) (operations : List Operation)
    {label : Label} {node : Node}
    (known : ((start settings slots).afterAll operations).graph.node? label = some node)
    (idle : node.IsIdle) : ((start settings slots).afterAll operations).LeavesUnused label := by
  have touches := touches_afterAll (start settings slots) operations
  have untouched : ¬((start settings slots).afterAll operations).graph.IsTouched label := by
    rintro ⟨other, found, touched⟩
    obtain rfl := Option.some.inj (found.symm.trans known)
    exact idle.not_isTouched touched
  constructor
  case openBlock =>
    rintro block opened rfl
    have wired := (wired_afterAll settings slots operations).1
    have ascends := Ascends.afterAll settings slots operations
    have last := Array.mem_of_back? (wired.last _ (isOpen_of_openBlock opened))
    obtain ⟨other, found, placed, -⟩ := ascends.ordinary _ last
    exact untouched ⟨other, found, .inl placed⟩
  case handlers =>
    intro handler member named
    rcases touches.handlers handler member with old | new
    · simp [start] at old
    · exact untouched (new label named)
  case lines =>
    rintro mark member rfl
    rcases touches.lines mark member with old | new
    · simp [start] at old
    · exact untouched new
  case target =>
    intro other found
    obtain rfl := Option.some.inj (found.symm.trans known)
    have anchored := anchored_afterAll settings slots operations
    cases marked : other.flags.jumpTarget with
    | false => rfl
    | true =>
      have ordinary := (anchored.labels label other found).target marked
      simp [idle.debugOnly] at ordinary

end Assembler

end MethodBody
