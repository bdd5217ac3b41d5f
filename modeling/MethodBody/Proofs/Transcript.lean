import MethodBody.Proofs.Relocation

/-!
# Runs write their listing

Whatever an operation does, it writes the pieces of the instruction that is listed for it and leaves
the text of all earlier pieces as it should be (`IsText.after`). Some operations fail after they
have written something; what they wrote is listed, and what they did not write is not. So the code
of a whole run is the text of the pieces of its listing (`IsText.afterAll`).
-/

namespace MethodBody

/-- A jump with a narrow operand is written as a narrow branch. -/
theorem Opcode.isNarrowBranch_of_jumpForm? {opcode chosen : Opcode} {far : Bool}
    (jumps : opcode.isJump = true)
    (form : opcode.jumpForm? far = some (.plain chosen .narrow)) :
    chosen.isNarrowBranch = true := by
  have narrow : ∀ opcode : Opcode, opcode.isJump = true → opcode.base = opcode →
      opcode.isNarrowBranch = true := by
    decide +kernel
  unfold jumpForm? at form
  simp only at form
  split at form
  · by_cases own : opcode.base = opcode
    · simp only [own, if_true, Option.some.injEq, JumpForm.plain.injEq] at form
      rw [← form.1]
      exact narrow opcode jumps own
    · simp [own] at form
  · split at form
    · simp at form
    · split at form
      · simp at form
      · simp at form

namespace FlowGraph

/-- The labels have the same placements in both graphs. -/
def SamePlaces (before after : FlowGraph) : Prop := after.placement? = before.placement?

/-- Each graph has its own placements. -/
theorem SamePlaces.refl (graph : FlowGraph) : SamePlaces graph graph := rfl

/-- Graphs with the same placements as a third. -/
theorem SamePlaces.trans (first second third : FlowGraph) (same : SamePlaces first second)
    (also : SamePlaces second third) : SamePlaces first third :=
  Eq.trans also same

/-- A revision that keeps the placement of its label keeps all placements. -/
theorem samePlaces_revise (label : Label) {revision : Node → Except Error Node}
    (same : ∀ node revised, revision node = .ok revised → revised.placement = node.placement) :
    Action.Follows SamePlaces (revise label revision) := by
  intro graph
  cases known : graph.node? label with
  | none =>
    have unknown : (revise label revision).run graph
        = ⟨.error (.unknownLabel label), graph, []⟩ := by
      simp [revise, FlowGraph.node, known, bind, Except.bind]
    rw [unknown]
    exact SamePlaces.refl graph
  | some node =>
    cases accepted : revision node with
    | error cause =>
      rw [run_revise_of_refused known accepted]
      exact SamePlaces.refl graph
    | ok revised =>
      rw [run_revise known accepted]
      funext other
      simp only [placement?, node?_update]
      split
      · rename_i here
        simp [← here, known, same node revised accepted]
      · rfl

end FlowGraph

namespace Assembler

/-- The code and the placements are the same in both states. -/
def SameText (before after : Assembler) : Prop :=
  after.code = before.code ∧ FlowGraph.SamePlaces before.graph after.graph

/-- The action keeps the code and the placements, also when it fails. -/
abbrev KeepsText {α : Type} (action : Action Assembler α) : Prop :=
  Action.Follows SameText action

/-- Each state has its own text. -/
theorem SameText.refl (assembler : Assembler) : SameText assembler assembler := ⟨rfl, rfl⟩

/-- States with the same text as a third. -/
theorem SameText.trans (first second third : Assembler) (same : SameText first second)
    (also : SameText second third) : SameText first third :=
  ⟨also.1.trans same.1, FlowGraph.SamePlaces.trans _ _ _ same.2 also.2⟩

instance : IsPreorder Assembler SameText where
  refl := SameText.refl
  trans := SameText.trans

variable {α : Type}

/-- An action on the labels that keeps the placements keeps the text. -/
theorem keepsText_onGraph {action : Action FlowGraph α}
    (same : Action.Follows FlowGraph.SamePlaces action) : KeepsText (onGraph action) :=
  fun assembler => ⟨rfl, same assembler.graph⟩

/-- Marking a label as a target keeps the text. -/
theorem keepsText_markTarget (label : Label) : KeepsText (markTarget label) := by
  refine keepsText_onGraph (FlowGraph.samePlaces_revise label fun node revised accepted => ?_)
  split at accepted
  · simp at accepted
  · obtain rfl := Except.ok.inj accepted
    rfl

/-- Marking a label as a bound keeps the text. -/
theorem keepsText_markBound (label : Label) : KeepsText (markBound label) := by
  refine keepsText_onGraph (FlowGraph.samePlaces_revise label fun node revised accepted => ?_)
  obtain rfl := Except.ok.inj accepted
  split <;> rfl

/-- Adding an edge keeps the text. -/
theorem keepsText_addEdge (successor : Label) : KeepsText (modify (·.addEdge successor)) :=
  fun assembler => ⟨code_addEdge assembler successor, placement?_addEdge assembler successor⟩

/-- Closing the open block keeps the text. -/
theorem keepsText_closeBlock : KeepsText (modify closeBlock) :=
  fun assembler => ⟨code_closeBlock assembler, placement?_closeBlock assembler⟩

/-- Ending a block with a switch keeps the text. -/
theorem keepsText_endSwitch (targets : List Label) : KeepsText (endSwitch targets) := by
  refine .bind (fun _ => ⟨rfl, rfl⟩) fun _ => .bind ?_ fun _ =>
    keepsText_closeBlock
  exact .forEach targets fun target _ =>
    .bind (keepsText_markTarget target) fun _ => keepsText_addEdge target

/-- Protecting blocks keeps the text. -/
theorem keepsText_addHandler (handler : Handler) : KeepsText (addHandler handler) :=
  .bind (keepsText_markBound _) fun _ => .bind (keepsText_markBound _) fun _ =>
    .bind (keepsText_markTarget _) fun _ => fun _ => ⟨rfl, rfl⟩

/-- Attaching a line keeps the text. -/
theorem keepsText_addLine (label : Label) (line : UInt16) : KeepsText (addLine label line) := by
  refine .bind SameText.refl fun _ => .bind (fun assembler => ⟨rfl, ?_⟩) fun _ =>
    fun _ => ⟨rfl, rfl⟩
  apply FlowGraph.placement?_update
  intro node
  rfl

/-- Ending a block with the return from a subroutine keeps the placements. -/
@[simp]
theorem placement?_endSubroutine (assembler : Assembler) :
    assembler.endSubroutine.graph.placement? = assembler.graph.placement? := by
  unfold endSubroutine
  split
  · rfl
  · refine Eq.trans ?_ (placement?_closeBlock assembler)
    apply FlowGraph.placement?_update
    intro node
    rfl

/-- A jump is longer than the way to the opcode that its distance is counted from, even if it fails
to write the distance. -/
theorem lead_lt_size_emitJump (assembler : Assembler) (form : JumpForm) (target : Label) :
    assembler.code.cursor + form.lead
      < ((emitJump form target).run assembler).state.code.size := by
  cases form with
  | plain opcode width =>
    have longer := (grows_refer target assembler.code.cursor width (assembler.append [opcode])).1
    have size : (assembler.append [opcode]).code.size = assembler.code.cursor + 1 := by
      simp [append, Buffer.cursor]
    simp only [emitJump, cursor, Action.run_bind, Action.run_inspect, Action.run_modify,
      Outcome.andThen_ok, Outcome.after_nil, JumpForm.lead]
    omega
  | inverted inverse =>
    let before := assembler.append (inverse :: Width.narrow.operand 8)
    have longer := (grows_refer target before.code.cursor .wide (before.append [Opcode.gotoWide])).1
    have size : (before.append [Opcode.gotoWide]).code.size = assembler.code.cursor + 4 := by
      simp [before, append, Buffer.cursor, Width.size]
    simp only [emitJump, cursor, Action.run_bind, Action.run_inspect, Action.run_modify,
      Outcome.andThen_ok, Outcome.after_nil, JumpForm.lead]
    exact Nat.lt_of_lt_of_le (by omega) longer

/-- A jump that is written is longer than the way to the opcode that its distance is counted
from. -/
theorem cursor_lt_size_jump {assembler : Assembler} {opcode : Opcode} {target : Label} {node : Node}
    {form : JumpForm} (isJump : opcode.isJump = true)
    (known : assembler.graph.node? target = some node) (allowed : node.refusesJumps = false)
    (chosen : opcode.jumpForm? (node.isFarBefore assembler.code.cursor) = some form) :
    assembler.code.cursor + form.lead
      < ((jump opcode target).run assembler).state.code.size := by
  let marked := assembler.update target Node.marked
  have marks : (markTarget target).run assembler = ⟨.ok (), marked, []⟩ := by
    rw [run_markTarget known, allowed]
    rfl
  have knownMarked : marked.graph.node? target = some node.marked := by
    simp [marked, update, FlowGraph.node?_update, known]
  have chosenMarked : opcode.jumpForm? (node.marked.isFarBefore marked.code.cursor)
      = some form := chosen
  refine Nat.lt_of_lt_of_le (lead_lt_size_emitJump marked form target) ?_
  simp only [jump, isJump, if_true, Action.run_bind, marks, Outcome.andThen_ok, Outcome.after_nil,
    cursor, Action.run_inspect, run_getNode knownMarked, chosenMarked]
  exact (Action.Follows.state_bind (fun _ => grows_endJump opcode _ form target) marked).1

/-- If no label lies behind short code, every label is near. -/
theorem near_of_behind {assembler : Assembler}
    (behind : ∀ label offset, assembler.graph.offset? label = some offset →
      offset ≤ assembler.code.size) (small : assembler.code.size < 0x80000000) :
    assembler.Near assembler.code.cursor :=
  fun label offset found => Offset.fits_wide (behind label offset found) small

namespace IsText

variable {assembler : Assembler} {pieces : List Piece}

/-- What keeps the text keeps the pieces. -/
theorem keeps (text : assembler.IsText pieces) {action : Action Assembler α}
    (same : KeepsText action) : (action.run assembler).state.IsText pieces :=
  text.congr (same assembler).1 (same assembler).2

/-- As long as the code is short, every label is near. -/
theorem near (text : assembler.IsText pieces) (small : assembler.code.size < 0x80000000) :
    assembler.Near assembler.code.cursor :=
  near_of_behind text.behind small

/-- A jump is written in its form. -/
theorem emits (text : assembler.IsText pieces) {opcode : Opcode} {target : Label} {node : Node}
    {form : JumpForm} (jumps : opcode.isJump = true)
    (known : assembler.graph.node? target = some node)
    (chosen : opcode.jumpForm? (node.isFarBefore assembler.code.cursor) = some form)
    (holds : form.Holds node assembler.code.cursor) :
    (assembler.emits target form).IsText
      (pieces ++ (Instruction.jump opcode form target).pieces assembler.code.cursor) := by
  have offset : assembler.graph.offset? target = node.offset? := by simp [FlowGraph.offset?, known]
  have existing : (assembler.graph.node? target).isSome := by simp [known]
  cases form with
  | plain written width =>
    cases width with
    | narrow => exact text.branch (Opcode.isNarrowBranch_of_jumpForm? jumps chosen) known holds
    | wide =>
      have opened := text.append [written]
      have referred := opened.refers target assembler.code.cursor
        (by intro place found; exact holds place (offset ▸ found)) existing
      simpa [Assembler.emits, Instruction.pieces] using referred
  | inverted inverse =>
    have opened := (text.append (inverse :: Width.narrow.operand 8)).append [Opcode.gotoWide]
    have source : (assembler.append (inverse :: Width.narrow.operand 8)).code.cursor
        = assembler.code.cursor + 3 := by
      simp [Assembler.append, Buffer.cursor, Width.size]
    have referred := opened.refers target (assembler.code.cursor + 3)
      (by intro place found; exact holds place (offset ▸ found)) existing
    simp only [Assembler.emits, source, Instruction.pieces]
    simpa using referred

/-- The opcode of a switch and the distance to its fallback are written. -/
theorem beginsSwitch (text : assembler.IsText pieces) (opcode : Opcode) {fallback : Label}
    (near : assembler.Near assembler.code.cursor)
    (known : (assembler.graph.node? fallback).isSome) :
    (assembler.beginsSwitch opcode fallback).IsText
      (pieces ++ [.literal (Instruction.switchHead opcode assembler.code.cursor),
        .distance assembler.code.cursor fallback]) := by
  have head : (assembler.append [opcode]).aligned
      = assembler.append (Instruction.switchHead opcode assembler.code.cursor) := by
    simp [Assembler.append, Assembler.aligned, Buffer.align, Buffer.append_append, Buffer.cursor,
      Instruction.switchHead]
  have opened := text.append (Instruction.switchHead opcode assembler.code.cursor)
  have referred := opened.refers fallback assembler.code.cursor (near fallback) known
  rw [Assembler.beginsSwitch, head]
  simpa using referred

/-- A switch over consecutive keys is written. -/
theorem emitsTable (text : assembler.IsText pieces) (low high : Int32) {fallback : Label}
    {targets : List Label} (near : assembler.Near assembler.code.cursor)
    (known : ∀ label ∈ fallback :: targets, (assembler.graph.node? label).isSome) :
    (assembler.emitsTable low high fallback targets).IsText (pieces
      ++ (Instruction.tableSwitch low high fallback targets).pieces assembler.code.cursor) := by
  have opened := ((text.beginsSwitch Opcode.tableSwitch near (known _ List.mem_cons_self)).append
    (BigEndian.encodeSigned 4 low.toInt)).append (BigEndian.encodeSigned 4 high.toInt)
  have referred := opened.refersAll assembler.code.cursor targets
    (by simpa [Near, Assembler.beginsSwitch] using near)
    (fun label member => by
      simpa [Assembler.beginsSwitch] using known label (List.mem_cons_of_mem _ member))
  simpa [Assembler.emitsTable, Instruction.pieces] using referred

/-- The cases of a switch are written. -/
theorem emitsCases (text : assembler.IsText pieces) (source : Nat) (cases : List Case)
    (near : assembler.Near source)
    (known : ∀ one ∈ cases, (assembler.graph.node? one.target).isSome) :
    (cases.foldl (fun after one => after.emitsCase source one) assembler).IsText
      (pieces ++ cases.flatMap fun one =>
        [.literal (BigEndian.encodeSigned 4 one.key.toInt), .distance source one.target]) := by
  induction cases generalizing assembler pieces with
  | nil => simpa using text
  | cons one rest ih =>
    have first := (text.append (BigEndian.encodeSigned 4 one.key.toInt)).refers one.target source
      (near one.target) (known one List.mem_cons_self)
    have others := ih first (by simpa [Near] using near) fun other member => by
      simpa using known other (List.mem_cons_of_mem _ member)
    simpa [Assembler.emitsCase] using others

/-- A switch over any keys is written. -/
theorem emitsLookup (text : assembler.IsText pieces) {fallback : Label} {cases : List Case}
    (near : assembler.Near assembler.code.cursor)
    (knownFallback : (assembler.graph.node? fallback).isSome)
    (known : ∀ one ∈ cases, (assembler.graph.node? one.target).isSome) :
    (assembler.emitsLookup fallback cases).IsText (pieces
      ++ (Instruction.lookupSwitch fallback cases).pieces assembler.code.cursor) := by
  have opened := (text.beginsSwitch Opcode.lookupSwitch near knownFallback).append
    (BigEndian.encodeSigned 4 cases.length)
  have written := opened.emitsCases assembler.code.cursor cases
    (by simpa [Near, Assembler.beginsSwitch] using near)
    (fun one member => by simpa [Assembler.beginsSwitch] using known one member)
  simpa [Assembler.emitsLookup, Instruction.pieces] using written

/-- Changing anything but the placement of a label writes nothing. -/
theorem update (text : assembler.IsText pieces) (label : Label) (change : Node → Node)
    (same : ∀ node, (change node).placement = node.placement) :
    (assembler.update label change).IsText pieces :=
  text.congr rfl (FlowGraph.placement?_update same assembler.graph label)

/-- Ending a block with a call writes nothing. -/
theorem calls (text : assembler.IsText pieces) (block : OpenBlock) (entry : Label) :
    (assembler.calls block entry).IsText pieces := by
  have called : { assembler with callsSubroutines := true }.IsText pieces := text.congr rfl rfl
  have entered := called.update entry (fun node =>
    { node with flags.startsSubroutine := true }) fun _ => rfl
  have left := entered.update block.label (fun node =>
    { node with flags.callsSubroutine := true }) fun _ => rfl
  have linked := left.update block.label
    (fun node => node.prepend ⟨.jump (block.height + 1), entry⟩) fun _ => rfl
  exact linked.goesOn {}

/-- Ending a block with a jump writes nothing. -/
theorem branches (text : assembler.IsText pieces) (base : Opcode) (target : Label)
    (nextIsTarget : Bool) : (assembler.branches base target nextIsTarget).IsText pieces := by
  have left : ((assembler.adjust base.jumpDelta).addEdge target).IsText pieces :=
    text.congr (code_addEdge _ _) (placement?_addEdge _ _)
  unfold Assembler.branches
  simp only
  split
  · exact left.congr (code_closeBlock _) (placement?_closeBlock _)
  · exact left.goesOn _

/-- A jump is written, and the open block ends with it. -/
theorem jumps (text : assembler.IsText pieces) {opcode : Opcode} {target : Label} {node : Node}
    {form : JumpForm} (isJump : opcode.isJump = true)
    (known : assembler.graph.node? target = some node)
    (chosen : opcode.jumpForm? (node.isFarBefore assembler.code.cursor) = some form)
    (holds : form.Holds node assembler.code.cursor) :
    (assembler.jumps opcode form target).IsText
      (pieces ++ (Instruction.jump opcode form target).pieces assembler.code.cursor) := by
  have written := text.emits isJump known chosen holds
  unfold Assembler.jumps
  simp only
  cases (assembler.emits target form).openBlock with
  | none => exact written
  | some block =>
    simp only
    split
    · exact written.calls block target
    · exact written.branches opcode.base target form.isInverted

/-- An operation that lists nothing writes nothing. -/
theorem unlisted {after : Assembler} (kept : after.IsText pieces) {operation : Operation}
    (none : assembler.listed? operation = none) :
    after.IsText (pieces ++ (assembler.listed? operation).toList.flatMap Listed.pieces) := by
  simpa [none] using kept

/-- An operation that lists an instruction writes its pieces. -/
theorem listed {after : Assembler} {operation : Operation} {instruction : Instruction}
    (emitted : operation.emitted? assembler = some instruction)
    (written : after.IsText (pieces ++ instruction.pieces assembler.code.cursor)) :
    after.IsText (pieces ++ (assembler.listed? operation).toList.flatMap Listed.pieces) := by
  rw [listed?, emitted]
  simp only [Option.map_some, Option.toList_some, List.flatMap_singleton]
  exact written

/-- A jump writes what is listed for it. -/
theorem jump (text : assembler.IsText pieces) (opcode : Opcode) {target : Label}
    (known : (assembler.graph.node? target).isSome)
    (small : ((Assembler.jump opcode target).run assembler).state.code.size < 0x80000000) :
    ((Assembler.jump opcode target).run assembler).state.IsText
      (pieces ++ (assembler.listed? (.jump opcode target)).toList.flatMap Listed.pieces) := by
  obtain ⟨node, found⟩ := Option.isSome_iff_exists.mp known
  unfold listed?
  by_cases isJump : opcode.isJump = true
  · by_cases refused : node.refusesJumps = true
    · rw [run_jump_of_refused isJump found refused, emitted?_jump_of_refused found refused]
      simpa using text
    · have allowed : node.refusesJumps = false := by simpa using refused
      obtain ⟨form, chosen⟩ :=
        Opcode.exists_jumpForm? isJump (node.isFarBefore assembler.code.cursor)
      have behind (offset : Nat) (place : node.offset? = some offset) :
          offset ≤ assembler.code.cursor :=
        text.behind target offset (by simp [FlowGraph.offset?, found, place])
      have longer := cursor_lt_size_jump isJump found allowed chosen
      have holds := Opcode.holds_of_jumpForm? chosen (Nat.lt_trans longer small) behind
      obtain ⟨events, ran⟩ := run_jump isJump found allowed chosen holds
      have marked := text.update target Node.marked fun _ => rfl
      have knownMarked : (assembler.update target Node.marked).graph.node? target
          = some node.marked := by
        simp [Assembler.update, FlowGraph.node?_update, found]
      have written := marked.jumps isJump knownMarked chosen holds
      rw [ran]
      exact listed (emitted?_jump isJump found allowed chosen) written
  · have other : opcode.isJump = false := by simpa using isJump
    rw [run_jump_of_notAJump target other, emitted?_jump_of_notAJump target other]
    simpa using text

/-- An instruction that does not jump is written, unless it needs an operation of its own. -/
theorem instruction (text : assembler.IsText pieces) (bytes : List UInt8) (delta : Int32) :
    ((Assembler.instruction bytes delta).run assembler).state.IsText
      (pieces ++ (assembler.listed? (.instruction bytes delta)).toList.flatMap Listed.pieces) := by
  unfold listed?
  cases bytes with
  | nil => simpa [Assembler.instruction, Operation.emitted?] using text
  | cons opcode rest =>
    cases refused : needsOwnOperation opcode with
    | true =>
      rw [run_instruction_of_refused refused, emitted?_instruction_of_refused refused]
      simpa using text
    | false =>
      have written : ((assembler.append (opcode :: rest)).adjust delta).IsText
          (pieces ++ [.literal (opcode :: rest)]) :=
        (text.append (opcode :: rest)).congr rfl rfl
      rw [run_instruction refused, emitted?_instruction refused]
      simp only [Option.map_some, Option.toList_some, List.flatMap_singleton]
      split
      · exact written.congr (code_closeBlock _) (placement?_closeBlock _)
      · exact written

/-- An instruction on a local variable is written. -/
theorem localInstruction (text : assembler.IsText pieces) (request : LocalInstruction) :
    ((Assembler.localInstruction request).run assembler).state.IsText
      (pieces ++ [.literal request.encode]) := by
  have written : (((assembler.append request.encode).adjust request.delta).needLocals
      request.localsNeeded).IsText (pieces ++ [.literal request.encode]) :=
    (text.append request.encode).congr rfl rfl
  cases request with
  | load kind slot => exact written
  | store kind slot => exact written
  | increment slot amount => exact written
  | ret slot => exact written.congr (code_endSubroutine _) (placement?_endSubroutine _)

/-- A switch over consecutive keys is written, also when one of its labels is then refused. -/
theorem tableSwitch (text : assembler.IsText pieces) (low high : Int32) {fallback : Label}
    {targets : List Label} (near : assembler.Near assembler.code.cursor)
    (known : ∀ label ∈ fallback :: targets, (assembler.graph.node? label).isSome) :
    ((Assembler.tableSwitch low high fallback targets).run assembler).state.IsText (pieces
      ++ (Instruction.tableSwitch low high fallback targets).pieces assembler.code.cursor) := by
  rw [run_tableSwitch low high near known]
  exact (text.emitsTable low high near known).keeps (keepsText_endSwitch _)

/-- A switch over any keys is written, also when one of its labels is then refused. -/
theorem lookupSwitch (text : assembler.IsText pieces) {fallback : Label} {cases : List Case}
    (near : assembler.Near assembler.code.cursor)
    (known : ∀ label ∈ fallback :: cases.map (·.target), (assembler.graph.node? label).isSome) :
    ((Assembler.lookupSwitch fallback cases).run assembler).state.IsText (pieces
      ++ (Instruction.lookupSwitch fallback (sortCases cases)).pieces assembler.code.cursor) := by
  have knownFallback := known fallback List.mem_cons_self
  have knownCases (one : Case) (member : one ∈ sortCases cases) :
      (assembler.graph.node? one.target).isSome := by
    have asked : one ∈ cases := List.mem_mergeSort.mp member
    exact known _ (List.mem_cons_of_mem _ (List.mem_map_of_mem asked))
  rw [run_lookupSwitch near knownFallback knownCases]
  exact (text.emitsLookup near knownFallback knownCases).keeps (keepsText_endSwitch _)

/-- What an operation leaves behind does not depend on its answer. -/
theorem state_withoutLabel (action : Action Assembler Unit) (assembler : Assembler) :
    ((Operation.withoutLabel action).run assembler).state = (action.run assembler).state := by
  unfold Operation.withoutLabel
  cases answer : (action.run assembler).answer with
  | error cause => exact Action.state_bind_of_error _ answer
  | ok value => exact Action.state_bind _ answer

/-- Every operation writes what is listed for it, also when it fails, unless the code becomes so
long that no wide operand can hold a distance in it. -/
theorem after (text : assembler.IsText pieces) {operation : Operation}
    (known : ∀ label ∈ operation.labels, (assembler.graph.node? label).isSome)
    (small : (assembler.after operation).code.size < 0x80000000) :
    (assembler.after operation).IsText
      (pieces ++ (assembler.listed? operation).toList.flatMap Listed.pieces) := by
  have near := text.near (Nat.lt_of_le_of_lt (grows_perform operation assembler).1 small)
  cases operation with
  | freshLabel => exact unlisted (text.create {}) rfl
  | freshDebugLabel => exact unlisted (text.create { debugOnly := true }) rfl
  | place label =>
    rw [Assembler.after, Operation.perform, state_withoutLabel]
    exact unlisted (text.place (known label List.mem_cons_self)) rfl
  | instruction bytes delta =>
    rw [Assembler.after, Operation.perform, state_withoutLabel]
    exact text.instruction bytes delta
  | localInstruction request =>
    rw [Assembler.after, Operation.perform, state_withoutLabel]
    exact listed rfl (text.localInstruction request)
  | jump opcode target =>
    rw [Assembler.after, Operation.perform, state_withoutLabel] at small ⊢
    exact text.jump opcode (known target List.mem_cons_self) small
  | tableSwitch low high fallback targets =>
    rw [Assembler.after, Operation.perform, state_withoutLabel]
    exact listed rfl (text.tableSwitch low high near known)
  | lookupSwitch fallback cases =>
    rw [Assembler.after, Operation.perform, state_withoutLabel]
    exact listed rfl (text.lookupSwitch near known)
  | addLine label line =>
    rw [Assembler.after, Operation.perform, state_withoutLabel]
    exact unlisted (text.keeps (keepsText_addLine label line)) rfl
  | addHandler handler =>
    rw [Assembler.after, Operation.perform, state_withoutLabel]
    exact unlisted (text.keeps (keepsText_addHandler handler)) rfl
  | declare maxima =>
    have kept : (assembler.after (.declare maxima)).IsText pieces := text.congr rfl rfl
    exact unlisted kept rfl

/-- A run writes its listing. -/
theorem afterAll (text : assembler.IsText pieces) {operations : List Operation}
    (known : assembler.NamesKnown operations)
    (small : (assembler.afterAll operations).code.size < 0x80000000) :
    (assembler.afterAll operations).IsText
      (pieces ++ (assembler.listing operations).flatMap Listed.pieces) := by
  induction operations generalizing assembler pieces with
  | nil => simpa [listing, Assembler.afterAll] using text
  | cons operation rest ih =>
    have shorter : (assembler.after operation).code.size < 0x80000000 :=
      Nat.lt_of_le_of_lt (size_le_afterAll (assembler.after operation) rest) small
    have others := ih (text.after known.1 shorter) known.2 small
    simpa [listing, Assembler.afterAll] using others

end IsText

end Assembler

end MethodBody
