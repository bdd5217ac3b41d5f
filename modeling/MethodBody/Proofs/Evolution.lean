import MethodBody.Proofs.Wiring

/-!
# The small steps of a run

Whatever an operation does to the labels and their blocks, and whether it fails or not, it is made
of a few kinds of small steps (`Assembler.Alters`): labels are created, changed and placed, the last
block gets an edge that control takes with the stack as it is, and blocks start, each at a label
that lies behind all that is written and that is not there for debugging only. So what each small
step keeps is kept by every operation (`exists_evolves`) and by every run (`holds_afterAll`).
Protected ranges are added by the operations that ask for them, and only if they succeed
(`handlers_afterAll`).
-/

namespace MethodBody

/-- The protected range that an operation asks for. -/
def Operation.handler? : Operation → Option Handler
  | addHandler handler => some handler
  | _ => none

namespace Assembler

/-- A block can start at the label: it lies behind all that is written, and it is not there for
debugging only. -/
def CanStart (assembler : Assembler) (label : Label) : Prop :=
  ∃ node, assembler.graph.node? label = some node ∧ node.flags.debugOnly = false ∧
    node.offset? = some assembler.code.size

/-- A small step of an operation. -/
inductive Alters (before : Assembler) : Assembler → Prop
  /-- Code may be written, and nothing happens to the labels or the protected ranges. -/
  | writes {after : Assembler} (graph : after.graph = before.graph)
      (handlers : after.handlers = before.handlers)
      (longer : before.code.size ≤ after.code.size) : Alters before after
  /-- A label is created. -/
  | creates (flags : Flags) : Alters before { before with graph := before.graph.create flags }
  /-- A label changes, but neither its edges nor its place, and it is not there for debugging only
  from now on. -/
  | changes (label : Label) {change : Node → Node}
      (edges : ∀ node, (change node).edges = node.edges)
      (place : ∀ node, (change node).offset? = node.offset?)
      (ordinary : ∀ node, node.flags.debugOnly = false → (change node).flags.debugOnly = false) :
    Alters before (before.update label change)
  /-- A label is placed behind all that is written. -/
  | settles {label : Label} {node : Node} (known : before.graph.node? label = some node)
      (unplaced : node.isPlaced = false) :
    Alters before (before.update label fun node =>
      { node with placement := .placed before.code.size })
  /-- A block gets an edge that control takes with the stack as it is. -/
  | links (block successor : Label) (height : Int32) :
    Alters before (before.update block (·.prepend ⟨.jump height, successor⟩))
  /-- A block starts. -/
  | starts {label : Label} (canStart : before.CanStart label) :
    Alters before { before with graph := before.graph.pushBlock label }

/-- The assembler with one more protected range, if one is added. -/
def note (assembler : Assembler) : Option Handler → Assembler
  | none => assembler
  | some handler => { assembler with handlers := assembler.handlers.push handler }

/-- Any number of small steps. -/
abbrev Evolves : Assembler → Assembler → Prop := Relation.ReflTransGen Alters

variable {assembler before after : Assembler} {label target : Label}

/-- A block can still start at a label after a change that keeps its place. -/
theorem CanStart.update (canStart : assembler.CanStart label) (changed : Label)
    {change : Node → Node} (place : ∀ node, (change node).offset? = node.offset?)
    (ordinary : ∀ node, node.flags.debugOnly = false → (change node).flags.debugOnly = false) :
    (assembler.update changed change).CanStart label := by
  obtain ⟨node, known, plain, here⟩ := canStart
  by_cases same : changed = label
  · refine ⟨change node, ?_, ordinary node plain, (place node).trans here⟩
    simp [Assembler.update, FlowGraph.node?_update, same, known]
  · refine ⟨node, ?_, plain, here⟩
    simp [Assembler.update, FlowGraph.node?_update, same, known]

namespace Evolves

/-- Nothing happens to the labels. -/
theorem of_graph (graph : after.graph = before.graph) (handlers : after.handlers = before.handlers)
    (longer : before.code.size ≤ after.code.size) : before.Evolves after :=
  .single (.writes graph handlers longer)

/-- Small steps add no protected range. -/
theorem handlers_eq (evolves : before.Evolves after) : after.handlers = before.handlers := by
  induction evolves with
  | refl => rfl
  | tail _ alters ih =>
    refine Eq.trans ?_ ih
    cases alters with
    | writes _ handlers => exact handlers
    | _ => rfl

/-- Bytes are written. -/
theorem append (assembler : Assembler) (bytes : List UInt8) :
    assembler.Evolves (assembler.append bytes) :=
  of_graph rfl rfl (by simp [Assembler.append])

/-- The stack height changes. -/
theorem adjust (assembler : Assembler) (delta : Int32) :
    assembler.Evolves (assembler.adjust delta) :=
  of_graph rfl rfl (Nat.le_refl _)

/-- The distance to a label is written. -/
theorem refers (assembler : Assembler) (target : Label) (source : Nat) (width : Width) :
    assembler.Evolves (assembler.refers target source width) := by
  refine (append assembler _).tail (.changes target ?_ ?_ ?_)
  · intro node
    unfold Node.referred
    split <;> rfl
  · exact fun node => Node.offset?_referred node _
  · intro node plain
    unfold Node.referred
    split <;> exact plain

/-- The distances to several labels are written. -/
theorem refersAll (assembler : Assembler) (targets : List Label) (source : Nat) :
    assembler.Evolves (assembler.refersAll targets source) := by
  induction targets generalizing assembler with
  | nil => exact .refl
  | cons target rest ih => exact (refers assembler target source .wide).trans (ih _)

/-- A jump is written. -/
theorem emits (assembler : Assembler) (target : Label) (form : JumpForm) :
    assembler.Evolves (assembler.emits target form) := by
  cases form with
  | plain opcode width => exact (append assembler [opcode]).trans (refers _ _ _ _)
  | inverted inverse =>
    exact (append assembler _).trans ((append _ [Opcode.gotoWide]).trans (refers _ _ _ _))

/-- The head of a switch is written. -/
theorem beginsSwitch (assembler : Assembler) (opcode : Opcode) (fallback : Label) :
    assembler.Evolves (assembler.beginsSwitch opcode fallback) := by
  have headed : assembler.Evolves (assembler.append [opcode]).aligned := by
    refine of_graph rfl rfl ?_
    simp only [Assembler.append, aligned, Buffer.align, Buffer.size_append]
    omega
  exact headed.trans (refers _ _ _ _)

/-- A switch over consecutive keys is written. -/
theorem emitsTable (assembler : Assembler) (low high : Int32) (fallback : Label)
    (targets : List Label) : assembler.Evolves (assembler.emitsTable low high fallback targets) :=
  (beginsSwitch assembler _ fallback).trans ((append _ _).trans
    ((append _ _).trans (refersAll _ targets _)))

/-- A switch over any keys is written. -/
theorem emitsLookup (assembler : Assembler) (fallback : Label) (cases : List Case) :
    assembler.Evolves (assembler.emitsLookup fallback cases) := by
  have written (before : Assembler) (rest : List Case) (source : Nat) :
      before.Evolves (rest.foldl (fun after one => after.emitsCase source one) before) := by
    induction rest generalizing before with
    | nil => exact .refl
    | cons one rest ih =>
      exact (append before _).trans ((refers _ one.target source .wide).trans (ih _))
  exact (beginsSwitch assembler _ fallback).trans ((append _ _).trans (written _ cases _))

/-- A label is marked as a target. -/
theorem marked (assembler : Assembler) (label : Label) :
    assembler.Evolves (assembler.update label Node.marked) :=
  .single (.changes label (fun _ => rfl) (fun _ => rfl) fun _ _ => rfl)

/-- A label is marked as a bound. -/
theorem bounded (assembler : Assembler) (label : Label) :
    assembler.Evolves (assembler.update label Node.bounded) := by
  refine .single (.changes label ?_ ?_ ?_)
  · intro node
    unfold Node.bounded
    split <;> rfl
  · intro node
    unfold Node.bounded
    split <;> rfl
  · intro node plain
    unfold Node.bounded
    split
    · exact plain
    · rfl

/-- The open block gets an edge. -/
theorem addEdge (assembler : Assembler) (successor : Label) :
    assembler.Evolves (assembler.addEdge successor) := by
  unfold Assembler.addEdge
  split
  · exact .refl
  · exact .single (.links _ _ _)

/-- The open block is closed. -/
theorem closeBlock (assembler : Assembler) : assembler.Evolves assembler.closeBlock := by
  unfold Assembler.closeBlock
  split
  · exact .refl
  · rename_i block _
    have measured : assembler.Evolves (assembler.update block.label fun node =>
        { node with outputHeight := block.height, peakHeight := block.peak }) :=
      .single (.changes block.label (fun _ => rfl) (fun _ => rfl) fun _ plain => plain)
    exact measured.trans (of_graph rfl rfl (Nat.le_refl _))

/-- The open block is closed with a return from a subroutine. -/
theorem endSubroutine (assembler : Assembler) : assembler.Evolves assembler.endSubroutine := by
  unfold Assembler.endSubroutine
  split
  · exact .refl
  · exact (closeBlock assembler).tail
      (.changes _ (fun _ => rfl) (fun _ => rfl) fun _ plain => plain)

/-- Control is led to labels. -/
theorem leadsTo (assembler : Assembler) (targets : List Label) :
    assembler.Evolves (assembler.leadsTo targets) := by
  induction targets generalizing assembler with
  | nil => exact .refl
  | cons target rest ih => exact ((marked assembler target).trans (addEdge _ target)).trans (ih _)

/-- The open block ends with a switch. -/
theorem switches (assembler : Assembler) (targets : List Label) :
    assembler.Evolves (assembler.switches targets) :=
  ((adjust assembler (-1)).trans (leadsTo _ targets)).trans (closeBlock _)

end Evolves

/-- A block can still start at a label after the open block has got an edge to it. -/
theorem CanStart.addEdge (canStart : assembler.CanStart label) (successor : Label) :
    (assembler.addEdge successor).CanStart label := by
  unfold Assembler.addEdge
  split
  · exact canStart
  · exact canStart.update _ (fun _ => rfl) fun _ plain => plain

/-- A block can still start at a label after the open block was closed. -/
theorem CanStart.closeBlock (canStart : assembler.CanStart label) :
    assembler.closeBlock.CanStart label := by
  unfold Assembler.closeBlock
  split
  · exact canStart
  · exact canStart.update _ (fun _ => rfl) fun _ plain => plain

/-- A label that has just been placed can start a block. -/
theorem canStart_settle (assembler : Assembler) {node : Node}
    (known : assembler.graph.node? label = some node) (plain : node.flags.debugOnly = false)
    {code : Buffer} (size : code.size = assembler.code.size) (rewritten : Bool) :
    (assembler.settle label node code rewritten).CanStart label := by
  refine ⟨{ node with placement := .placed assembler.code.cursor }, ?_, plain, ?_⟩
  · simp [settle, FlowGraph.node?_update, known]
  · exact congrArg some size.symm

namespace Evolves

/-- A block starts at a label that has just been placed. -/
theorem startBlock (canStart : assembler.CanStart label) :
    assembler.Evolves (assembler.startBlock label) := by
  have opens {middle : Assembler} (isFallenInto : Bool) (here : middle.CanStart label) :
      middle.Evolves (middle.openAt label isFallenInto) := by
    have started : middle.Evolves { middle with graph := middle.graph.pushBlock label } :=
      .single (.starts here)
    exact started.trans (of_graph rfl rfl (Nat.le_refl _))
  unfold Assembler.startBlock
  split
  · exact opens false canStart
  · have linked := canStart.addEdge label
    exact ((addEdge assembler label).trans (closeBlock _)).trans (opens true linked.closeBlock)

/-- A label is placed, and no block starts there yet. -/
theorem settle (assembler : Assembler) {node : Node}
    (known : assembler.graph.node? label = some node) (unplaced : node.isPlaced = false)
    {code : Buffer} (size : code.size = assembler.code.size) (rewritten : Bool) :
    assembler.Evolves (assembler.settle label node code rewritten) := by
  have same := FlowGraph.update_const known fun node =>
    { node with placement := .placed assembler.code.cursor }
  have settled : assembler.Evolves (assembler.update label fun node =>
      { node with placement := .placed assembler.code.size }) :=
    .single (.settles known unplaced)
  exact settled.trans (of_graph same rfl (Nat.le_of_eq size.symm))

/-- A label is placed. A block starts there, unless it is there for debugging only. -/
theorem placed (assembler : Assembler) {node : Node}
    (known : assembler.graph.node? label = some node) (unplaced : node.isPlaced = false)
    {code : Buffer} (size : code.size = assembler.code.size) (rewritten : Bool) :
    assembler.Evolves (assembler.placed label node code rewritten) := by
  have settled := settle assembler known unplaced size rewritten
  unfold Assembler.placed
  cases debug : node.flags.debugOnly with
  | true => exact settled
  | false => exact settled.trans (startBlock (canStart_settle assembler known debug size rewritten))

/-- A block at a label of its own starts. -/
theorem goesOn (assembler : Assembler) {flags : Flags} (plain : flags.debugOnly = false) :
    assembler.Evolves (assembler.goesOn flags) := by
  let created := { assembler with graph := assembler.graph.create flags }
  have known : created.graph.node? assembler.graph.nextLabel
      = some { label := assembler.graph.nextLabel, flags } := by
    simp [created, FlowGraph.node?_create]
  have made : assembler.Evolves created := .single (.creates flags)
  refine (made.trans (settle created known rfl rfl false)).trans (startBlock ?_)
  exact canStart_settle created known plain rfl false

/-- The open block ends with a call, and the continuation starts. -/
theorem calls (assembler : Assembler) (block : OpenBlock) (entry : Label) :
    assembler.Evolves (assembler.calls block entry) := by
  have called : assembler.Evolves { assembler with callsSubroutines := true } :=
    of_graph rfl rfl (Nat.le_refl _)
  have entered : assembler.Evolves (assembler.enters entry) :=
    called.tail (.changes entry (fun _ => rfl) (fun _ => rfl) fun _ plain => plain)
  have flagged : assembler.Evolves ((assembler.enters entry).update block.label fun node =>
      { node with flags.callsSubroutine := true }) :=
    entered.tail (.changes block.label (fun _ => rfl) (fun _ => rfl) fun _ plain => plain)
  have left : assembler.Evolves ((assembler.enters entry).leavesTo block entry) :=
    flagged.tail (.links block.label entry (block.height + 1))
  rw [calls_eq]
  exact left.trans (goesOn _ rfl)

/-- The open block ends with a jump that is no call. -/
theorem branches (assembler : Assembler) (base : Opcode) (target : Label) (nextIsTarget : Bool) :
    assembler.Evolves (assembler.branches base target nextIsTarget) := by
  have linked : assembler.Evolves ((assembler.adjust base.jumpDelta).addEdge target) :=
    (adjust assembler _).trans (addEdge _ target)
  unfold Assembler.branches
  simp only
  split
  · exact linked.trans (closeBlock _)
  · exact linked.trans (goesOn _ rfl)

/-- A jump is written, and the open block ends with it. -/
theorem jumps (assembler : Assembler) (opcode : Opcode) (form : JumpForm) (target : Label) :
    assembler.Evolves (assembler.jumps opcode form target) := by
  have written := emits assembler target form
  unfold Assembler.jumps
  simp only
  split
  · exact written
  · split
    · exact written.trans (calls _ _ target)
    · exact written.trans (branches _ _ target _)

/-- An instruction that does not jump is written. -/
theorem writesPlain (assembler : Assembler) (opcode : Opcode) (rest : List UInt8) (delta : Int32) :
    assembler.Evolves (assembler.writesPlain opcode rest delta) := by
  have written : assembler.Evolves ((assembler.append (opcode :: rest)).adjust delta) :=
    of_graph rfl rfl (by simp [Assembler.append, Assembler.adjust])
  unfold Assembler.writesPlain
  simp only
  split
  · exact written.trans (closeBlock _)
  · exact written

/-- An instruction on a local variable is written. -/
theorem writesLocal (assembler : Assembler) (request : LocalInstruction) :
    assembler.Evolves (assembler.writesLocal request) := by
  have written :
      assembler.Evolves (((assembler.append request.encode).adjust request.delta).needLocals
      request.localsNeeded) :=
    of_graph rfl rfl (by simp [Assembler.append, Assembler.adjust, Assembler.needLocals])
  cases request with
  | ret slot => exact written.trans (endSubroutine _)
  | _ => exact written

/-- The labels of a protected range are marked. -/
theorem marksAll (assembler : Assembler) (handler : Handler) :
    assembler.Evolves ((assembler.bounds handler).update handler.handler Node.marked) :=
  ((bounded assembler handler.start).trans (bounded _ handler.stop)).trans
    (marked _ handler.handler)

/-- An operation that succeeds is made of small steps, and may add a protected range at last. -/
theorem exists_of_performs {operation : Operation} (performs : before.Performs operation after) :
    ∃ middle, before.Evolves middle ∧ after = middle.note operation.handler? := by
  cases performs with
  | freshLabel => exact ⟨_, .single (.creates _), rfl⟩
  | freshDebugLabel => exact ⟨_, .single (.creates _), rfl⟩
  | place known unplaced size => exact ⟨_, placed before known unplaced size _, rfl⟩
  | nothing => exact ⟨_, .refl, rfl⟩
  | @instruction opcode rest delta => exact ⟨_, writesPlain before opcode rest delta, rfl⟩
  | @localInstruction request => exact ⟨_, writesLocal before request, rfl⟩
  | @jump opcode target node form =>
    exact ⟨_, (marked before target).trans (jumps _ opcode form target), rfl⟩
  | @tableSwitch low high fallback targets =>
    exact ⟨_, (emitsTable before low high fallback targets).trans (switches _ _), rfl⟩
  | @lookupSwitch fallback cases =>
    exact ⟨_, (emitsLookup before fallback _).trans (switches _ _), rfl⟩
  | @addLine label line =>
    have attached : before.Evolves (before.update label (·.addLine line)) :=
      .single (.changes label (fun _ => rfl) (fun _ => rfl) fun _ plain => plain)
    refine ⟨_, attached.trans ?_, rfl⟩
    exact of_graph rfl rfl (Nat.le_refl _)
  | @addHandler handler => exact ⟨_, marksAll before handler, rfl⟩
  | declare =>
    refine ⟨_, ?_, rfl⟩
    exact of_graph rfl rfl (Nat.le_refl _)

/-- What an operation leaves behind before it fails is made of small steps. -/
theorem of_lingers (lingers : before.Lingers after) : before.Evolves after := by
  induction lingers with
  | refl => exact .refl
  | @tail middle last _ leaves ih =>
    refine ih.trans ?_
    cases leaves with
    | code longer => exact of_graph rfl rfl longer
    | refers target source width => exact refers middle target source width
    | marks => exact marked middle _
    | bounds label => exact bounded middle label
    | adjusts => exact of_graph rfl rfl (Nat.le_refl _)
    | links => exact addEdge middle _

end Evolves

end Assembler

/-- The protected range that is added at a moment of a run, if one is. -/
def Moment.handler? (moment : Moment) : Option Handler :=
  match (moment.operation.perform.run moment.before).answer with
  | .ok _ => moment.operation.handler?
  | .error _ => none

namespace Assembler

variable {assembler : Assembler}

/-- An operation is made of small steps, whether it fails or not, and may add a protected range at
last. -/
theorem exists_evolves (moment : Moment) :
    ∃ middle, moment.before.Evolves middle ∧ moment.after = middle.note moment.handler? := by
  unfold Moment.handler?
  cases answered : (moment.operation.perform.run moment.before).answer with
  | ok answer =>
    exact Evolves.exists_of_performs (performs_of_yields (Action.yields_of_answer answered))
  | error cause =>
    exact ⟨_, .of_lingers (lapses_perform moment.operation moment.before cause answered), rfl⟩

/-- What every small step keeps, and every protected range that is added, is kept by a run. -/
theorem holds_afterAll {holds : Assembler → Prop}
    (alters : ∀ {before after : Assembler}, before.Alters after → holds before → holds after)
    (notes : ∀ {assembler : Assembler} handler?, holds assembler → holds (assembler.note handler?))
    (held : holds assembler) (operations : List Operation) :
    holds (assembler.afterAll operations) := by
  induction operations generalizing assembler with
  | nil => exact held
  | cons operation rest ih =>
    obtain ⟨middle, evolves, ended⟩ := exists_evolves ⟨assembler, operation⟩
    have reached : holds middle := by
      clear ended
      induction evolves with
      | refl => exact held
      | tail _ step ih => exact alters step ih
    have after : holds (assembler.after operation) := by
      have noted := notes (Moment.handler? ⟨assembler, operation⟩) reached
      rw [← ended] at noted
      exact noted
    exact ih after

/-- The protected ranges that are added in a run, in order. -/
def protections (assembler : Assembler) (operations : List Operation) : List Handler :=
  (assembler.history operations).filterMap Moment.handler?

/-- The protected ranges are those that were added, in order. -/
theorem handlers_afterAll (assembler : Assembler) (operations : List Operation) :
    (assembler.afterAll operations).handlers.toList
      = assembler.handlers.toList ++ assembler.protections operations := by
  induction operations generalizing assembler with
  | nil => exact (List.append_nil _).symm
  | cons operation rest ih =>
    obtain ⟨middle, evolves, ended⟩ := exists_evolves ⟨assembler, operation⟩
    have first : (assembler.after operation).handlers.toList = assembler.handlers.toList
        ++ (Moment.handler? ⟨assembler, operation⟩).toList := by
      have noted : (assembler.after operation).handlers
          = (middle.note (Moment.handler? ⟨assembler, operation⟩)).handlers :=
        congrArg Assembler.handlers ended
      rw [noted, ← evolves.handlers_eq]
      cases Moment.handler? ⟨assembler, operation⟩ <;> simp [note]
    have added : assembler.protections (operation :: rest)
        = (Moment.handler? ⟨assembler, operation⟩).toList
          ++ (assembler.after operation).protections rest := by
      simp only [protections, history, List.filterMap_cons]
      cases Moment.handler? ⟨assembler, operation⟩ <;> rfl
    rw [added, ← List.append_assoc, ← first]
    exact ih (assembler.after operation)

end Assembler

end MethodBody
