import MethodBody.Proofs.Blocks

/-!
# Targets are blocks

Control is only ever transferred to labels at which a block starts. A label that only debug
information refers to becomes an ordinary one when it is marked as a target, and once it is placed
it refuses to be marked. So a target that has its place is a block (`Anchored.isBlock`), in every
state that a run comes to (`Anchored.performs`).
-/

namespace MethodBody

/-- What is known about a label is its own, and its flags agree with what it is. -/
structure Node.IsSound (node : Node) (label : Label) (mayCall : Bool) (isBlock : Prop) : Prop where
  /-- What is known belongs to the label. -/
  named : node.label = label
  /-- A subroutine is called only if one may be. -/
  plain : node.flags.callsSubroutine = true → mayCall = true
  /-- Control is transferred to labels that a block can start at. -/
  target : node.flags.jumpTarget = true → node.flags.debugOnly = false
  /-- A block starts at a label that is placed, unless only debug information refers to it. -/
  block : node.isPlaced = true → node.flags.debugOnly = false → isBlock

/-- A label with the same flags that has a place if it had one before. -/
theorem Node.IsSound.congr {before after : Node} {label : Label} {mayCall : Bool} {isBlock : Prop}
    (sound : before.IsSound label mayCall isBlock) (named : after.label = before.label)
    (flags : after.flags = before.flags) (placed : after.isPlaced = before.isPlaced) :
    after.IsSound label mayCall isBlock where
  named := named.trans sound.named
  plain called := sound.plain (flags ▸ called)
  target marked := by rw [flags, sound.target (flags ▸ marked)]
  block has blocks := sound.block (placed ▸ has) (flags ▸ blocks)

/-- A label that does not refuse jumps can be marked. -/
theorem Node.IsSound.marked {node : Node} {label : Label} {mayCall : Bool} {isBlock : Prop}
    (sound : node.IsSound label mayCall isBlock) (allowed : node.refusesJumps = false) :
    node.marked.IsSound label mayCall isBlock where
  named := sound.named
  plain := sound.plain
  target _ := rfl
  block has _ := by
    have placed : node.isPlaced = true := has
    refine sound.block placed ?_
    simpa [Node.refusesJumps, placed] using allowed

/-- A label can bound a range. -/
theorem Node.IsSound.bounded {node : Node} {label : Label} {mayCall : Bool} {isBlock : Prop}
    (sound : node.IsSound label mayCall isBlock) : node.bounded.IsSound label mayCall isBlock := by
  unfold Node.bounded
  split
  · exact sound
  · rename_i unplaced
    exact ⟨sound.named, sound.plain, fun _ => rfl, fun has _ => absurd has unplaced⟩

namespace Assembler

/-- The flags of all labels agree with what the labels are, given whether subroutines may be called
and the label of a block that is just about to start. Handlers are targets. -/
structure Anchored (assembler : Assembler) (mayCall : Bool) (starting? : Option Label) : Prop where
  /-- The flags agree with the blocks. -/
  labels : ∀ label node, assembler.graph.node? label = some node →
    node.IsSound label mayCall (label ∈ assembler.graph.blocks ∨ starting? = some label)
  /-- Handlers are targets. -/
  handlers : ∀ handler ∈ assembler.handlers, assembler.graph.IsTarget handler.handler
  /-- A subroutine has been called only if one may be. -/
  plain : assembler.callsSubroutines = true → mayCall = true

variable {assembler after : Assembler} {mayCall : Bool} {starting? : Option Label}
  {label target : Label}

/-- A target that has its place is a block. -/
theorem Anchored.isBlock (anchored : assembler.Anchored mayCall none)
    (marked : assembler.graph.IsTarget label) {offset : Nat}
    (placed : assembler.graph.offset? label = some offset) : label ∈ assembler.graph.blocks := by
  obtain ⟨node, known, flagged⟩ := marked
  have sound := anchored.labels label node known
  have has : node.isPlaced = true := by
    simp only [FlowGraph.offset?, known, Option.bind_some] at placed
    simp [Node.isPlaced, placed]
  simpa using sound.block has (sound.target flagged)

/-- No subroutine has been called if none may be. -/
theorem Anchored.noCalls (anchored : assembler.Anchored false starting?) :
    assembler.callsSubroutines = false := by
  simpa using anchored.plain

/-- A label that accepts jumps goes on accepting them if nothing but its flags changes, and those do
not refuse. -/
theorem Accepts.update {changed : Label} {change : Node → Node}
    (accepts : assembler.Accepts label)
    (keeps : ∀ node, node.refusesJumps = false → (change node).refusesJumps = false) :
    (assembler.update changed change).Accepts label := by
  obtain ⟨node, known, allowed⟩ := accepts
  by_cases same : changed = label
  · exact ⟨change node, by simp [Assembler.update, FlowGraph.node?_update, same, known],
      keeps node allowed⟩
  · exact ⟨node, by simp [Assembler.update, FlowGraph.node?_update, same, known], allowed⟩

/-- An edge lets labels accept jumps. -/
theorem Accepts.addEdge (accepts : assembler.Accepts label) (successor : Label) :
    (assembler.addEdge successor).Accepts label := by
  unfold Assembler.addEdge
  split
  · exact accepts
  · rename_i block _
    have linked : (assembler.update block.label
        (·.prepend ⟨.jump block.height, successor⟩)).Accepts label :=
      accepts.update fun _ allowed => allowed
    exact linked

namespace Anchored

/-- One label changes, and its flags go on agreeing with what it is. -/
theorem update (anchored : assembler.Anchored mayCall starting?) {change : Node → Node}
    (keeps : ∀ node isBlock, assembler.graph.node? label = some node →
      node.IsSound label mayCall isBlock → (change node).IsSound label mayCall isBlock)
    (target : ∀ node, node.flags.jumpTarget = true → (change node).flags.jumpTarget = true) :
    (assembler.update label change).Anchored mayCall starting? where
  labels other node known := by
    have before := anchored.labels other
    rw [Assembler.update, FlowGraph.node?_update] at known
    split at known
    · rename_i same
      obtain ⟨old, was, rfl⟩ := Option.map_eq_some_iff.mp known
      subst same
      exact keeps old _ was (before old was)
    · exact before node known
  handlers handler member :=
    FlowGraph.isTarget_update _ _ target _ (anchored.handlers handler member)
  plain := anchored.plain

/-- One label changes, but neither its flags nor its place. -/
theorem update_same (anchored : assembler.Anchored mayCall starting?) {change : Node → Node}
    (same : ∀ node, (change node).label = node.label ∧ (change node).flags = node.flags ∧
      (change node).isPlaced = node.isPlaced) :
    (assembler.update label change).Anchored mayCall starting? := by
  refine anchored.update ?_ ?_
  · exact fun node isBlock _ sound => sound.congr (same node).1 (same node).2.1 (same node).2.2
  · intro node marked
    rw [(same node).2.1]
    exact marked

/-- Nothing changes about the labels. -/
theorem congr (anchored : assembler.Anchored mayCall starting?)
    (graph : after.graph = assembler.graph) (handlers : after.handlers = assembler.handlers)
    (called : after.callsSubroutines = assembler.callsSubroutines) :
    after.Anchored mayCall starting? := by
  constructor
  · rw [graph]
    exact anchored.labels
  · rw [graph, handlers]
    exact anchored.handlers
  · rw [called]
    exact anchored.plain

/-- An edge is added. -/
theorem addEdge (anchored : assembler.Anchored mayCall starting?) (successor : Label) :
    (assembler.addEdge successor).Anchored mayCall starting? := by
  unfold Assembler.addEdge
  split
  · exact anchored
  · rename_i block _
    have linked : (assembler.update block.label
        (·.prepend ⟨.jump block.height, successor⟩)).Anchored mayCall starting? :=
      anchored.update_same fun _ => ⟨rfl, rfl, rfl⟩
    exact linked

/-- The open block ends. -/
theorem closeBlock (anchored : assembler.Anchored mayCall starting?) :
    assembler.closeBlock.Anchored mayCall starting? := by
  unfold Assembler.closeBlock
  split
  · exact anchored
  · rename_i block _
    have closed : (assembler.update block.label fun node =>
          { node with outputHeight := block.height, peakHeight := block.peak }).Anchored
        mayCall starting? :=
      anchored.update_same fun _ => ⟨rfl, rfl, rfl⟩
    exact closed.congr rfl rfl rfl

/-- The block starts that is about to. -/
theorem openAt (anchored : assembler.Anchored mayCall (some label)) (isFallenInto : Bool) :
    (assembler.openAt label isFallenInto).Anchored mayCall none where
  labels other node known := by
    obtain ⟨named, plain, target, block⟩ := anchored.labels other node known
    refine ⟨named, plain, target, fun has blocks => .inl ?_⟩
    have either := block has blocks
    simp only [Option.some.injEq] at either
    simp only [Assembler.openAt, FlowGraph.pushBlock, Array.mem_push]
    exact either.imp_right Eq.symm
  handlers := anchored.handlers
  plain := anchored.plain

/-- The block starts that is about to, and the open block falls into it. -/
theorem startBlock (anchored : assembler.Anchored mayCall (some label)) :
    (assembler.startBlock label).Anchored mayCall none := by
  unfold Assembler.startBlock
  split
  · exact anchored.openAt false
  · exact (anchored.addEdge label).closeBlock.openAt true

/-- A label is placed, and a block is about to start there. -/
theorem settle (anchored : assembler.Anchored mayCall none) {node : Node}
    (known : assembler.graph.node? label = some node) (code : Buffer) (rewritten : Bool) :
    (assembler.settle label node code rewritten).Anchored mayCall (some label) := by
  have same := FlowGraph.update_const known fun node =>
    { node with placement := .placed assembler.code.cursor }
  have sound := anchored.labels label node known
  constructor
  · intro other found knownAfter
    rw [Assembler.settle, same, FlowGraph.node?_update] at knownAfter
    split at knownAfter
    · rename_i here
      subst here
      obtain ⟨old, was, rfl⟩ := Option.map_eq_some_iff.mp knownAfter
      obtain rfl : node = old := by simpa [known] using was
      exact ⟨sound.named, sound.plain, sound.target, fun _ _ => .inr rfl⟩
    · obtain ⟨named, plain, target, block⟩ := anchored.labels other found knownAfter
      refine ⟨named, plain, target, fun has blocks => .inl ?_⟩
      have before : other ∈ assembler.graph.blocks := by simpa using block has blocks
      exact before
  · intro handler member
    rw [Assembler.settle, same]
    apply FlowGraph.isTarget_update
    · exact fun _ marked => marked
    · exact anchored.handlers handler member
  · exact anchored.plain

/-- A label is placed. A block starts there, unless only debug information refers to it. -/
theorem placed (anchored : assembler.Anchored mayCall none) {node : Node}
    (known : assembler.graph.node? label = some node) (code : Buffer) (rewritten : Bool) :
    (assembler.placed label node code rewritten).Anchored mayCall none := by
  have settled := anchored.settle known code rewritten
  unfold Assembler.placed
  simp only
  split
  · rename_i debug
    refine ⟨fun other found knownAfter => ?_, settled.handlers, settled.plain⟩
    obtain ⟨named, plain, target, block⟩ := settled.labels other found knownAfter
    refine ⟨named, plain, target, fun has blocks => .inl ?_⟩
    rcases block has blocks with before | here
    · exact before
    · obtain rfl : label = other := by simpa using here
      have same := FlowGraph.update_const known fun node =>
        { node with placement := .placed assembler.code.cursor }
      rw [Assembler.settle, same, FlowGraph.node?_update, if_pos rfl, known] at knownAfter
      obtain rfl := Option.some.inj knownAfter
      simp [debug] at blocks
  · exact settled.startBlock

/-- A label is created. -/
theorem create (anchored : assembler.Anchored mayCall none) {flags : Flags}
    (plain : flags.callsSubroutine = false)
    (target : flags.jumpTarget = true → flags.debugOnly = false) :
    { assembler with graph := assembler.graph.create flags }.Anchored mayCall none where
  labels other node known := by
    rw [FlowGraph.node?_create] at known
    split at known
    · obtain rfl := Option.some.inj known
      refine ⟨rfl, ?_, target, by simp [Node.isPlaced, Node.offset?]⟩
      simp [plain]
    · exact anchored.labels other node known
  handlers handler member :=
    (FlowGraph.quiet_create _ _).targets _ (anchored.handlers handler member)
  plain := anchored.plain

/-- A block at a label of its own starts. -/
theorem goesOn (anchored : assembler.Anchored mayCall none) {flags : Flags}
    (plain : flags.callsSubroutine = false)
    (target : flags.jumpTarget = true → flags.debugOnly = false) :
    (assembler.goesOn flags).Anchored mayCall none := by
  have created := anchored.create plain target
  have known : (assembler.graph.create flags).node? assembler.graph.nextLabel
      = some { label := assembler.graph.nextLabel, flags } := by
    simp [FlowGraph.node?_create]
  exact (created.settle known assembler.code false).startBlock

/-- A label is marked as a target. -/
theorem marked (anchored : assembler.Anchored mayCall starting?)
    (accepts : assembler.Accepts label) :
    (assembler.update label Node.marked).Anchored mayCall starting? := by
  obtain ⟨node, known, allowed⟩ := accepts
  refine anchored.update ?_ fun _ _ => rfl
  intro other isBlock found sound
  obtain rfl : node = other := by simpa [known] using found
  exact sound.marked allowed

/-- Control is led to labels. -/
theorem leadsTo (anchored : assembler.Anchored mayCall starting?) {targets : List Label}
    (accepts : ∀ target ∈ targets, assembler.Accepts target) :
    (assembler.leadsTo targets).Anchored mayCall starting? := by
  induction targets generalizing assembler with
  | nil => exact anchored
  | cons target rest ih =>
    refine ih ((anchored.marked (accepts target List.mem_cons_self)).addEdge target) ?_
    intro other member
    refine Accepts.addEdge
      (Accepts.update (accepts other (List.mem_cons_of_mem _ member)) ?_) target
    exact fun _ _ => rfl

/-- The distance to a label is written. -/
theorem refers (anchored : assembler.Anchored mayCall starting?) (target : Label) (source : Nat)
    (width : Width) : (assembler.refers target source width).Anchored mayCall starting? := by
  have written :
      (assembler.append (assembler.operand target source width)).Anchored mayCall starting? :=
    anchored.congr rfl rfl rfl
  refine written.update_same ?_
  intro node
  refine ⟨?_, ?_, by simp [Node.isPlaced]⟩
  · unfold Node.referred
    split <;> rfl
  · unfold Node.referred
    split <;> rfl

/-- The distances to several labels are written. -/
theorem refersAll (anchored : assembler.Anchored mayCall starting?)
    (targets : List Label) (source : Nat) :
    (assembler.refersAll targets source).Anchored mayCall starting? := by
  induction targets generalizing assembler with
  | nil => exact anchored
  | cons target rest ih => exact ih (anchored.refers target source .wide)

/-- A jump is written. -/
theorem emits (anchored : assembler.Anchored mayCall starting?) (target : Label) (form : JumpForm) :
    (assembler.emits target form).Anchored mayCall starting? := by
  cases form with
  | plain opcode width =>
    have written : (assembler.append [opcode]).Anchored mayCall starting? :=
      anchored.congr rfl rfl rfl
    exact written.refers _ _ _
  | inverted inverse =>
    have written : ((assembler.append (inverse :: Width.narrow.operand 8)).append
        [Opcode.gotoWide]).Anchored mayCall starting? := anchored.congr rfl rfl rfl
    exact written.refers _ _ _

/-- The head of a switch is written. -/
theorem beginsSwitch (anchored : assembler.Anchored mayCall starting?)
    (opcode : Opcode) (fallback : Label) :
    (assembler.beginsSwitch opcode fallback).Anchored mayCall starting? := by
  have written : (assembler.append [opcode]).aligned.Anchored mayCall starting? :=
    anchored.congr rfl rfl rfl
  exact written.refers _ _ _

/-- A switch over consecutive keys is written. -/
theorem emitsTable (anchored : assembler.Anchored mayCall starting?)
    (low high : Int32) (fallback : Label) (targets : List Label) :
    (assembler.emitsTable low high fallback targets).Anchored mayCall starting? := by
  have headed : (((assembler.beginsSwitch Opcode.tableSwitch fallback).append
      (BigEndian.encodeSigned 4 low.toInt)).append
        (BigEndian.encodeSigned 4 high.toInt)).Anchored mayCall starting? :=
    (anchored.beginsSwitch Opcode.tableSwitch fallback).congr rfl rfl rfl
  exact headed.refersAll targets _

/-- A switch over any keys is written. -/
theorem emitsLookup (anchored : assembler.Anchored mayCall starting?) (fallback : Label)
    (cases : List Case) : (assembler.emitsLookup fallback cases).Anchored mayCall starting? := by
  have written (before : Assembler) (rest : List Case) (source : Nat)
      (anchored : before.Anchored mayCall starting?) :
      (rest.foldl (fun after one => after.emitsCase source one) before).Anchored
        mayCall starting? := by
    induction rest generalizing before with
    | nil => exact anchored
    | cons one rest ih =>
      have keyed :
          (before.append (BigEndian.encodeSigned 4 one.key.toInt)).Anchored mayCall starting? :=
        anchored.congr rfl rfl rfl
      exact ih _ (keyed.refers one.target source .wide)
  refine written _ cases _ ?_
  exact (anchored.beginsSwitch Opcode.lookupSwitch fallback).congr rfl rfl rfl

/-- The open block ends with a switch. -/
theorem switches (anchored : assembler.Anchored mayCall starting?) {targets : List Label}
    (accepts : ∀ target ∈ targets, assembler.Accepts target) :
    (assembler.switches targets).Anchored mayCall starting? := by
  have adjusted : (assembler.adjust (-1)).Anchored mayCall starting? := anchored.congr rfl rfl rfl
  exact (adjusted.leadsTo accepts).closeBlock

/-- An instruction that does not jump is written. -/
theorem writesPlain (anchored : assembler.Anchored mayCall starting?) (opcode : Opcode)
    (rest : List UInt8) (delta : Int32) :
    (assembler.writesPlain opcode rest delta).Anchored mayCall starting? := by
  have written : ((assembler.append (opcode :: rest)).adjust delta).Anchored mayCall starting? :=
    anchored.congr rfl rfl rfl
  unfold Assembler.writesPlain
  simp only
  split
  · exact written.closeBlock
  · exact written

/-- An instruction on a local variable is written. -/
theorem writesLocal (anchored : assembler.Anchored mayCall starting?) (request : LocalInstruction) :
    (assembler.writesLocal request).Anchored mayCall starting? := by
  have written : (((assembler.append request.encode).adjust request.delta).needLocals
      request.localsNeeded).Anchored mayCall starting? := anchored.congr rfl rfl rfl
  cases request with
  | ret slot =>
    have closed := written.closeBlock
    unfold Assembler.writesLocal
    simp only
    unfold Assembler.endSubroutine
    split
    · exact written
    · refine closed.update ?_ fun _ marked => marked
      exact fun node isBlock _ sound => ⟨sound.named, sound.plain, sound.target, sound.block⟩
  | _ => exact written

/-- The open block ends with a call, if subroutines may be called. -/
theorem calls (anchored : assembler.Anchored true none) (block : OpenBlock) (entry : Label) :
    (assembler.calls block entry).Anchored true none := by
  have called : { assembler with callsSubroutines := true }.Anchored true none :=
    ⟨anchored.labels, anchored.handlers, fun _ => rfl⟩
  have entered : ({ assembler with callsSubroutines := true }.update entry fun node =>
      { node with flags.startsSubroutine := true }).Anchored true none :=
    called.update (fun _ _ _ sound => ⟨sound.named, sound.plain, sound.target, sound.block⟩)
      fun _ marked => marked
  have left : (({ assembler with callsSubroutines := true }.update entry fun node =>
      { node with flags.startsSubroutine := true }).update block.label fun node =>
        { node with flags.callsSubroutine := true }).Anchored true none :=
    entered.update (fun _ _ _ sound => ⟨sound.named, fun _ => rfl, sound.target, sound.block⟩)
      fun _ marked => marked
  have linked : ((({ assembler with callsSubroutines := true }.update entry fun node =>
      { node with flags.startsSubroutine := true }).update block.label fun node =>
        { node with flags.callsSubroutine := true }).update block.label
          (·.prepend ⟨.jump (block.height + 1), entry⟩)).Anchored true none :=
    left.update_same fun _ => ⟨rfl, rfl, rfl⟩
  exact linked.goesOn rfl (by simp)

/-- A jump is written. It calls a subroutine only if one may be called. -/
theorem jumps (anchored : assembler.Anchored mayCall none) {opcode : Opcode}
    (permitted : opcode.base = Opcode.jsr → mayCall = true) (form : JumpForm) (target : Label) :
    (assembler.jumps opcode form target).Anchored mayCall none := by
  have written := anchored.emits target form
  have adjusted :
      ((assembler.emits target form).adjust opcode.base.jumpDelta).Anchored mayCall none :=
    written.congr rfl rfl rfl
  have led := adjusted.addEdge target
  unfold Assembler.jumps
  simp only
  split
  · exact written
  · split
    · rename_i call
      obtain rfl := permitted call
      exact written.calls _ target
    · unfold Assembler.branches
      simp only
      split
      · exact led.closeBlock
      · exact led.goesOn rfl fun _ => rfl

/-- A label is marked as a bound. -/
theorem bounded (anchored : assembler.Anchored mayCall starting?) (label : Label) :
    (assembler.update label Node.bounded).Anchored mayCall starting? := by
  refine anchored.update (fun _ _ _ sound => sound.bounded) fun node marked => ?_
  unfold Node.bounded
  split <;> exact marked

/-- The bounds of a range are noted. -/
theorem bounds (anchored : assembler.Anchored mayCall starting?) (handler : Handler) :
    (assembler.bounds handler).Anchored mayCall starting? :=
  (anchored.bounded handler.start).bounded handler.stop

/-- Blocks are protected. -/
theorem protects (anchored : assembler.Anchored mayCall starting?) {handler : Handler}
    (accepts : (assembler.bounds handler).Accepts handler.handler) :
    (assembler.protects handler).Anchored mayCall starting? := by
  have marked := (anchored.bounds handler).marked accepts
  refine ⟨marked.labels, ?_, marked.plain⟩
  intro other member
  rcases Array.mem_push.mp member with before | rfl
  · exact marked.handlers other before
  · exact isTarget_marked accepts.isSome

/-- What a successful operation does keeps the anchors, if it may be done. -/
theorem performs (anchored : assembler.Anchored mayCall none) {operation : Operation}
    (permitted : operation.isCall = true → mayCall = true)
    (performs : assembler.Performs operation after) :
    after.Anchored mayCall none := by
  cases performs with
  | freshLabel => exact anchored.create rfl fun _ => rfl
  | freshDebugLabel => exact anchored.create rfl (by simp)
  | place known => exact anchored.placed known _ _
  | nothing => exact anchored
  | @instruction opcode rest delta => exact anchored.writesPlain opcode rest delta
  | @localInstruction request => exact anchored.writesLocal request
  | @jump opcode target node form isJump known allowed =>
    have mayJump (call : opcode.base = Opcode.jsr) : mayCall = true :=
      permitted (by simp [Operation.isCall, call])
    exact (anchored.marked ⟨node, known, allowed⟩).jumps mayJump form target
  | tableSwitch accepts =>
    exact (anchored.emitsTable _ _ _ _).switches fun target member =>
      (accepts_congr (refuses?_emitsTable _ _ _ _ _)).mpr (accepts target member)
  | lookupSwitch accepts =>
    exact (anchored.emitsLookup _ _).switches fun target member =>
      (accepts_congr (refuses?_emitsLookup _ _ _)).mpr (accepts target member)
  | @addLine label line =>
    have marked : (assembler.update label (·.addLine line)).Anchored mayCall none :=
      anchored.update_same fun _ => ⟨rfl, rfl, rfl⟩
    exact marked.congr rfl rfl rfl
  | addHandler accepts => exact anchored.protects accepts
  | declare => exact anchored.congr rfl rfl rfl

end Anchored

/-- A method without instructions is anchored. -/
theorem anchored_start (mayCall : Bool) (settings : Settings) (parameterSlots : UInt16) :
    (start settings parameterSlots).Anchored mayCall none where
  labels label node known := by
    obtain ⟨index⟩ := label
    cases index with
    | zero =>
      obtain rfl : { label := .start, placement := .placed 0 } = node := by
        simpa [start, FlowGraph.node?] using known
      exact ⟨rfl, by simp, by simp, fun _ _ => .inl (by simp [start, Label.start])⟩
    | succ index => simp [start, FlowGraph.node?] at known
  handlers handler member := by simp [start] at member
  plain called := by simp [start] at called

/-- A run in which no operation fails, and none is a call, keeps the anchors. -/
theorem Anchored.afterAll (anchored : assembler.Anchored mayCall none) {operations : List Operation}
    (succeeds : assembler.Succeeds operations)
    (noCall : ∀ operation ∈ operations, operation.isCall = false) :
    (assembler.afterAll operations).Anchored mayCall none := by
  induction operations generalizing assembler with
  | nil => exact anchored
  | cons operation rest ih =>
    obtain ⟨answer, yields⟩ := exists_yields succeeds.1
    have plain := noCall operation List.mem_cons_self
    have first := anchored.performs (by simp [plain]) (performs_of_yields yields)
    exact ih first succeeds.2 fun other member => noCall other (List.mem_cons_of_mem _ member)

end Assembler

end MethodBody
