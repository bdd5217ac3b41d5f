import MethodBody.Proofs.Listing
import MethodBody.Proofs.Outcome

/-!
# What the steps of an operation do

The steps that operations are made of, as functions of the state they start from, for the case that
nothing is refused. A step that writes a distance to a label is never refused a wide operand as long
as all labels are near (`Near`), and a narrow one only if the label is too far.
-/

namespace MethodBody

namespace FlowGraph

/-- What is known about the offset of a label. -/
def placement? (graph : FlowGraph) (label : Label) : Option Placement :=
  (graph.node? label).map (·.placement)

/-- A flow graph is what is known about its labels, and its blocks. -/
theorem eq_of_node? {first second : FlowGraph} (blocks : first.blocks = second.blocks)
    (nodes : ∀ label, first.node? label = second.node? label) : first = second := by
  obtain ⟨firstNodes, firstBlocks⟩ := first
  obtain ⟨secondNodes, secondBlocks⟩ := second
  have same : firstNodes = secondNodes := Array.ext_getElem? fun index => nodes ⟨index⟩
  rw [same, show firstBlocks = secondBlocks from blocks]

/-- A known label changed by what it is known to be. -/
theorem update_const {graph : FlowGraph} {label : Label} {node : Node}
    (known : graph.node? label = some node) (change : Node → Node) :
    (graph.update label fun _ => change node) = graph.update label change := by
  refine eq_of_node? rfl fun other => ?_
  rw [node?_update, node?_update]
  split
  · rename_i here
    rw [← here, known]
    rfl
  · rfl

/-- A known label is found. -/
theorem node_of_known {graph : FlowGraph} {label : Label} {node : Node}
    (known : graph.node? label = some node) : graph.node label = .ok node := by
  simp [FlowGraph.node, known]

/-- A label that is found is known. -/
theorem known_of_node {graph : FlowGraph} {label : Label} {node : Node}
    (found : graph.node label = .ok node) : graph.node? label = some node := by
  cases known : graph.node? label with
  | none => simp [FlowGraph.node, known] at found
  | some other => rw [Except.ok.inj ((node_of_known known).symm.trans found)]

/-- The label created next is not known yet. -/
@[simp]
theorem node?_nextLabel (graph : FlowGraph) : graph.node? graph.nextLabel = none := by
  simp [node?, nextLabel]

/-- A change adds no label and removes none. -/
@[simp]
theorem isSome_node?_update (graph : FlowGraph) (changed label : Label) (change : Node → Node) :
    ((graph.update changed change).node? label).isSome = (graph.node? label).isSome := by
  rw [node?_update]
  split <;> simp

/-- A change that keeps the placements. -/
theorem placement?_update {change : Node → Node}
    (same : ∀ node, (change node).placement = node.placement)
    (graph : FlowGraph) (changed : Label) :
    (graph.update changed change).placement? = graph.placement? := by
  funext label
  simp only [placement?, node?_update]
  split
  · cases graph.node? label <;> simp [same]
  · rfl

/-- A label has the offset that its placement says. -/
theorem offset?_eq (graph : FlowGraph) (label : Label) :
    graph.offset? label = (graph.placement? label).bind fun placement =>
      match placement with
      | .pending _ => none
      | .placed offset => some offset := by
  unfold offset? placement?
  cases graph.node? label <;> rfl

/-- The labels have the same offsets if they have the same placements. -/
theorem offset?_congr {first second : FlowGraph} (same : second.placement? = first.placement?) :
    second.offset? = first.offset? := by
  funext label
  rw [offset?_eq, offset?_eq, same]

/-- What is known about a label is changed if the change is accepted. -/
theorem run_revise {graph : FlowGraph} {label : Label} {node revised : Node}
    {revision : Node → Except Error Node} (known : graph.node? label = some node)
    (accepted : revision node = .ok revised) :
    (revise label revision).run graph = ⟨.ok (), graph.update label fun _ => revised, []⟩ := by
  simp [revise, node_of_known known, accepted, bind, Except.bind, Outcome.andThen, Outcome.after]

/-- What is known about a label stays if the change is refused. -/
theorem run_revise_of_refused {graph : FlowGraph} {label : Label} {node : Node}
    {revision : Node → Except Error Node} {cause : Error} (known : graph.node? label = some node)
    (refused : revision node = .error cause) :
    (revise label revision).run graph = ⟨.error cause, graph, []⟩ := by
  simp [revise, node_of_known known, refused, bind, Except.bind, Outcome.andThen]

end FlowGraph

namespace Node

/-- A label that control can be transferred to. -/
def marked (node : Node) : Node :=
  { node with flags.debugOnly := false, flags.jumpTarget := true }

/-- No block starts at the label, and none will. -/
def refusesJumps (node : Node) : Bool := node.flags.debugOnly && node.isPlaced

/-- A label with one more reference, unless it has its offset. -/
def referred (node : Node) (reference : Reference) : Node :=
  match node.placement with
  | .pending ledger => { node with placement := .pending (ledger.push reference) }
  | .placed _ => node

/-- A reference does not give a label its offset. -/
@[simp]
theorem offset?_referred (node : Node) (reference : Reference) :
    (node.referred reference).offset? = node.offset? := by
  unfold referred
  cases placement : node.placement with
  | pending ledger => simp [offset?, placement]
  | placed offset => rfl

/-- The operand for the distance to the label, or its placeholder. -/
def operand (node : Node) (source : Nat) (width : Width) : List UInt8 :=
  match node.offset? with
  | none => width.operand (-1)
  | some offset => width.operand (Offset.distance offset source)

/-- The distance to a label is written if its width holds it. -/
theorem run_refer {node : Node} {source : Nat} {width : Width} {code : Buffer}
    (fits : ∀ offset, node.offset? = some offset → width.Fits (Offset.distance offset source)) :
    (node.refer source width).run code =
      ⟨.ok (node.referred ⟨source, width, code.cursor⟩), code.append (node.operand source width),
        []⟩ := by
  unfold refer referred operand
  cases placement : node.placement with
  | pending ledger =>
    have unplaced : node.offset? = none := by simp [offset?, placement]
    simp [Ledger.refer, unplaced]
  | placed offset =>
    have found : node.offset? = some offset := by simp [offset?, placement]
    simp [found, fits offset found]

end Node

/-- The jump is written as the opposite branch over a wide jump. -/
def JumpForm.isInverted (form : JumpForm) : Bool := form matches .inverted _

namespace Assembler

/-- A wide operand holds the distance from the source to every label that has an offset. -/
def Near (assembler : Assembler) (source : Nat) : Prop :=
  ∀ label offset, assembler.graph.offset? label = some offset →
    Width.wide.Fits (Offset.distance offset source)

/-- The operand for the distance to a label, or its placeholder. -/
def operand (assembler : Assembler) (target : Label) (source : Nat) (width : Width) : List UInt8 :=
  match assembler.graph.node? target with
  | none => width.operand (-1)
  | some node => node.operand source width

/-- Write the distance to a label, or a placeholder to be filled in later. -/
def refers (assembler : Assembler) (target : Label) (source : Nat) (width : Width) : Assembler :=
  (assembler.append (assembler.operand target source width)).update target
    (·.referred ⟨source, width, assembler.code.cursor⟩)

/-- Write the distances from one source to several labels. -/
def refersAll (assembler : Assembler) (targets : List Label) (source : Nat) : Assembler :=
  targets.foldl (fun assembler target => assembler.refers target source .wide) assembler

/-- Write a jump in the given form. -/
def emits (assembler : Assembler) (target : Label) : JumpForm → Assembler
  | .plain opcode width => (assembler.append [opcode]).refers target assembler.code.cursor width
  | .inverted inverse =>
    let before := assembler.append (inverse :: Width.narrow.operand 8)
    (before.append [Opcode.gotoWide]).refers target before.code.cursor .wide

/-- Append zeros up to the next multiple of four. -/
def aligned (assembler : Assembler) : Assembler :=
  { assembler with code := assembler.code.align 4 }

/-- Write the opcode of a switch and the distance to its fallback. -/
def beginsSwitch (assembler : Assembler) (opcode : Opcode) (fallback : Label) : Assembler :=
  (assembler.append [opcode]).aligned.refers fallback assembler.code.cursor .wide

/-- Write a switch over consecutive keys. -/
def emitsTable (assembler : Assembler) (low high : Int32) (fallback : Label)
    (targets : List Label) : Assembler :=
  (((assembler.beginsSwitch Opcode.tableSwitch fallback).append
    (BigEndian.encodeSigned 4 low.toInt)).append
      (BigEndian.encodeSigned 4 high.toInt)).refersAll targets assembler.code.cursor

/-- Write one case of a switch, whose opcode has the given offset. -/
def emitsCase (assembler : Assembler) (source : Nat) (one : Case) : Assembler :=
  (assembler.append (BigEndian.encodeSigned 4 one.key.toInt)).refers one.target source .wide

/-- Write a switch over the keys of the cases. -/
def emitsLookup (assembler : Assembler) (fallback : Label) (cases : List Case) : Assembler :=
  cases.foldl (fun after one => after.emitsCase assembler.code.cursor one)
    ((assembler.beginsSwitch Opcode.lookupSwitch fallback).append
      (BigEndian.encodeSigned 4 cases.length))

/-- Give a label the offset of the next instruction, once the code has been filled in for it. -/
def settle (assembler : Assembler) (label : Label) (node : Node) (code : Buffer)
    (rewritten : Bool) : Assembler :=
  { assembler with
    code
    graph := assembler.graph.update label fun _ =>
      { node with placement := .placed assembler.code.cursor }
    needsWidening := assembler.needsWidening || rewritten }

/-- Place a label, once the code has been filled in for it. -/
def placed (assembler : Assembler) (label : Label) (node : Node) (code : Buffer)
    (rewritten : Bool) : Assembler :=
  let settled := assembler.settle label node code rewritten
  if node.flags.debugOnly then settled else settled.startBlock label

/-- Go on with a block at a label of its own. -/
def goesOn (assembler : Assembler) (flags : Flags) : Assembler :=
  let label := assembler.graph.nextLabel
  let created := { assembler with graph := assembler.graph.create flags }
  (created.settle label { label, flags } assembler.code false).startBlock label

/-- Add an edge to each of the labels in order, each of which becomes a target. -/
def leadsTo (assembler : Assembler) (targets : List Label) : Assembler :=
  targets.foldl (fun assembler target => (assembler.update target Node.marked).addEdge target)
    assembler

/-- End the open block with the call of a subroutine. -/
def calls (assembler : Assembler) (block : OpenBlock) (entry : Label) : Assembler :=
  let flagged := ({ assembler with callsSubroutines := true }.update entry fun node =>
    { node with flags.startsSubroutine := true }).update block.label fun node =>
      { node with flags.callsSubroutine := true }
  { flagged with
    graph := flagged.graph.prepend block.label ⟨.jump (block.height + 1), entry⟩ }.goesOn {}

/-- End the open block with a jump that is no call. -/
def branches (assembler : Assembler) (base : Opcode) (target : Label) (nextIsTarget : Bool) :
    Assembler :=
  let before := (assembler.adjust base.jumpDelta).addEdge target
  if base = Opcode.goto then before.closeBlock else before.goesOn { jumpTarget := nextIsTarget }

/-- Write a jump in the given form to a label that is a target, and end the open block with it. -/
def jumps (assembler : Assembler) (opcode : Opcode) (form : JumpForm) (target : Label) :
    Assembler :=
  let written := assembler.emits target form
  match written.openBlock with
  | none => written
  | some block =>
    if opcode.base = Opcode.jsr then written.calls block target
    else written.branches opcode.base target form.isInverted

/-- End the open block with a switch, given all its labels. -/
def switches (assembler : Assembler) (targets : List Label) : Assembler :=
  ((assembler.adjust (-1)).leadsTo targets).closeBlock

variable {assembler : Assembler} {label target : Label} {node : Node}

/-- A known label is found. -/
theorem run_getNode (known : assembler.graph.node? label = some node) :
    (getNode label).run assembler = ⟨.ok node, assembler, []⟩ := by
  simp [getNode, FlowGraph.node_of_known known]

/-- A label is marked as a target unless it refuses jumps. -/
theorem run_markTarget (known : assembler.graph.node? label = some node) :
    (markTarget label).run assembler =
      if node.refusesJumps then ⟨.error (.debugOnlyTarget label), assembler, []⟩
      else ⟨.ok (), assembler.update label Node.marked, []⟩ := by
  unfold markTarget onGraph
  split
  · rename_i refused
    rw [Action.run_focus, FlowGraph.run_revise_of_refused known (if_pos refused)]
  · rename_i allowed
    have same := FlowGraph.update_const known Node.marked
    rw [Action.run_focus, FlowGraph.run_revise known (if_neg allowed)]
    simp only [Assembler.update, ← same, Node.marked]

/-- An unknown label cannot be marked. -/
theorem run_markTarget_of_unknown (unknown : assembler.graph.node? label = none) :
    (markTarget label).run assembler = ⟨.error (.unknownLabel label), assembler, []⟩ := by
  simp [markTarget, onGraph, FlowGraph.revise, FlowGraph.node, unknown, bind, Except.bind]

/-- The distance to a known label is written if its width holds it. -/
theorem run_refer (assembler : Assembler) (source : Nat) (width : Width)
    (known : assembler.graph.node? target = some node)
    (fits : ∀ offset, node.offset? = some offset → width.Fits (Offset.distance offset source)) :
    (refer target source width).run assembler
      = ⟨.ok (), assembler.refers target source width, []⟩ := by
  have same := FlowGraph.update_const known
    (·.referred ⟨source, width, assembler.code.cursor⟩)
  simp only [refer, Action.run_bind, run_getNode known, onCode, Outcome.andThen_ok,
    Action.run_focus, Node.run_refer fits, Action.run_modify]
  simp only [refers, operand, known, append, update, ← same]
  rfl

/-- Appending bytes keeps the labels. -/
@[simp]
theorem graph_append (assembler : Assembler) (bytes : List UInt8) :
    (assembler.append bytes).graph = assembler.graph := rfl

/-- Appending zeros keeps the labels. -/
@[simp]
theorem graph_aligned (assembler : Assembler) : assembler.aligned.graph = assembler.graph := rfl

/-- A reference does not give a label its offset. -/
@[simp]
theorem offset?_refers (assembler : Assembler) (target : Label) (source : Nat) (width : Width) :
    (assembler.refers target source width).graph.offset? = assembler.graph.offset? := by
  funext label
  simp only [refers, update, graph_append, FlowGraph.offset?, FlowGraph.node?_update]
  split
  · cases assembler.graph.node? label <;> simp
  · rfl

/-- A reference adds no label and removes none. -/
@[simp]
theorem isSome_node?_refers (assembler : Assembler) (target label : Label) (source : Nat)
    (width : Width) : ((assembler.refers target source width).graph.node? label).isSome
      = (assembler.graph.node? label).isSome :=
  FlowGraph.isSome_node?_update _ _ _ _

/-- The distance to a known label is written if all labels are near. -/
theorem run_refer_of_near (assembler : Assembler) {source : Nat} (near : assembler.Near source)
    (known : (assembler.graph.node? target).isSome) :
    (refer target source .wide).run assembler
      = ⟨.ok (), assembler.refers target source .wide, []⟩ := by
  obtain ⟨node, found⟩ := Option.isSome_iff_exists.mp known
  refine run_refer _ _ _ found fun offset place => near target offset ?_
  simp [FlowGraph.offset?, found, place]

/-- The distances to known labels are written if all labels are near. -/
theorem run_forEach_refer (assembler : Assembler) (targets : List Label) {source : Nat}
    (near : assembler.Near source)
    (known : ∀ target ∈ targets, (assembler.graph.node? target).isSome) :
    (Action.forEach targets fun target => refer target source .wide).run assembler
      = ⟨.ok (), assembler.refersAll targets source, []⟩ := by
  induction targets generalizing assembler with
  | nil => rfl
  | cons target rest ih =>
    have others := ih (assembler.refers target source .wide)
      (by simpa [Near] using near)
      (fun other member => by simpa using known other (List.mem_cons_of_mem _ member))
    rw [Action.forEach_cons, Action.run_bind, run_refer_of_near _ near
      (known target List.mem_cons_self), Outcome.andThen_ok, others]
    rfl

/-- The cases of a switch are written if all labels are near. -/
theorem run_forEach_case (assembler : Assembler) (cases : List Case) {source : Nat}
    (near : assembler.Near source)
    (known : ∀ one ∈ cases, (assembler.graph.node? one.target).isSome) :
    (Action.forEach cases fun one => do
        emitWord one.key.toInt
        refer one.target source .wide).run assembler
      = ⟨.ok (), cases.foldl (fun after one => after.emitsCase source one) assembler, []⟩ := by
  induction cases generalizing assembler with
  | nil => rfl
  | cons one rest ih =>
    have written : (emitWord one.key.toInt).run assembler
        = ⟨.ok (), assembler.append (BigEndian.encodeSigned 4 one.key.toInt), []⟩ := rfl
    have referred := run_refer_of_near
      (assembler.append (BigEndian.encodeSigned 4 one.key.toInt)) near
      (known one List.mem_cons_self)
    have others := ih (assembler.emitsCase source one)
      (by simpa [Near, emitsCase] using near)
      (fun other member => by
        simpa [emitsCase] using known other (List.mem_cons_of_mem _ member))
    rw [Action.forEach_cons, Action.run_bind, Action.run_bind, written,
      Outcome.andThen_ok, referred, Outcome.after_nil, Outcome.andThen_ok]
    exact others

/-- The opcode of a switch and the distance to its fallback are written if all labels are near. -/
theorem run_beginSwitch (opcode : Opcode) {fallback : Label}
    (near : assembler.Near assembler.code.cursor)
    (known : (assembler.graph.node? fallback).isSome) :
    (beginSwitch opcode fallback).run assembler
      = ⟨.ok assembler.code.cursor, assembler.beginsSwitch opcode fallback, []⟩ := by
  have referred := run_refer_of_near (assembler.append [opcode]).aligned near known
  simp only [beginSwitch, cursor, Action.run_bind, Action.run_inspect, Action.run_modify,
    Outcome.andThen_ok, Outcome.after_nil]
  change Outcome.andThen ((refer fallback assembler.code.cursor .wide).run
    (assembler.append [opcode]).aligned) _ = _
  rw [referred]
  rfl

/-- A switch over consecutive keys is written, and then its labels are taken as targets. -/
theorem run_tableSwitch (low high : Int32) {fallback : Label} {targets : List Label}
    (near : assembler.Near assembler.code.cursor)
    (known : ∀ label ∈ fallback :: targets, (assembler.graph.node? label).isSome) :
    (tableSwitch low high fallback targets).run assembler
      = (endSwitch (fallback :: targets)).run
          (assembler.emitsTable low high fallback targets) := by
  have distances := run_forEach_refer (((assembler.beginsSwitch Opcode.tableSwitch fallback).append
      (BigEndian.encodeSigned 4 low.toInt)).append (BigEndian.encodeSigned 4 high.toInt)) targets
    (by simpa [Near, beginsSwitch] using near)
    (fun label member => by simpa [beginsSwitch] using known label (List.mem_cons_of_mem _ member))
  rw [tableSwitch, Action.run_bind, run_beginSwitch _ near (known _ List.mem_cons_self),
    Outcome.andThen_ok, Outcome.after_nil]
  simp only [emitWord, Action.run_bind, Action.run_modify, Outcome.andThen_ok, distances,
    Outcome.after_nil]
  rfl

/-- A switch over any keys is written, and then its labels are taken as targets. -/
theorem run_lookupSwitch {fallback : Label} {cases : List Case}
    (near : assembler.Near assembler.code.cursor)
    (knownFallback : (assembler.graph.node? fallback).isSome)
    (known : ∀ one ∈ sortCases cases, (assembler.graph.node? one.target).isSome) :
    (lookupSwitch fallback cases).run assembler
      = (endSwitch (fallback :: (sortCases cases).map (·.target))).run
          (assembler.emitsLookup fallback (sortCases cases)) := by
  have distances := run_forEach_case ((assembler.beginsSwitch Opcode.lookupSwitch fallback).append
      (BigEndian.encodeSigned 4 (sortCases cases).length)) (sortCases cases)
    (by simpa [Near, beginsSwitch] using near)
    (fun one member => by simpa [beginsSwitch] using known one member)
  rw [lookupSwitch, Action.run_bind, run_beginSwitch _ near knownFallback, Outcome.andThen_ok,
    Outcome.after_nil]
  simp only [emitWord, Action.run_bind, Action.run_modify, Outcome.andThen_ok, Outcome.after_nil]
    at distances ⊢
  rw [distances]
  rfl

/-- A label is not placed twice. -/
theorem run_place_of_placed {offset : Nat} (known : assembler.graph.node? label = some node)
    (placed : node.placement = .placed offset) :
    (place label).run assembler = ⟨.error (.placedTwice node.label), assembler, []⟩ := by
  simp [place, run_getNode known, cursor, onCode, Node.place, placed]

/-- A label is not placed if a reference to it cannot be filled in. -/
theorem run_place_of_error {ledger : Ledger} {cause : Error} {code : Buffer} {events : List Event}
    (known : assembler.graph.node? label = some node) (pending : node.placement = .pending ledger)
    (refused : (ledger.resolve assembler.code.cursor).run assembler.code
      = ⟨.error cause, code, events⟩) :
    (place label).run assembler = ⟨.error cause, { assembler with code }, events⟩ := by
  simp [place, run_getNode known, cursor, onCode, Node.place, pending, refused]

/-- A label is placed once all references to it are filled in. -/
theorem run_place_of_ok {ledger : Ledger} {rewritten : Bool} {code : Buffer} {events : List Event}
    (known : assembler.graph.node? label = some node) (pending : node.placement = .pending ledger)
    (resolved : (ledger.resolve assembler.code.cursor).run assembler.code
      = ⟨.ok rewritten, code, events⟩) :
    (place label).run assembler = ⟨.ok (), assembler.placed label node code rewritten,
      events ++ [.placed label assembler.code.cursor]⟩ := by
  have atCursor : (onCode (node.place assembler.code.cursor)).run assembler
      = ⟨.ok ({ node with placement := .placed assembler.code.cursor }, rewritten),
          { assembler with code }, events⟩ := by
    simp [onCode, Node.place, pending, resolved]
  simp only [place, Action.run_bind, run_getNode known, cursor, Action.run_inspect,
    Outcome.andThen_ok, Outcome.after_nil, atCursor, Action.run_modify, Action.run_report]
  unfold placed
  cases node.flags.debugOnly <;> rfl

/-- A ledger without references is resolved by doing nothing. -/
theorem run_resolve_empty (target : Nat) (code : Buffer) :
    (Ledger.empty.resolve target).run code = ⟨.ok false, code, []⟩ := rfl

/-- Going on with a block at a label of its own is never refused. -/
theorem run_place_create (assembler : Assembler) {flags : Flags} (block : flags.debugOnly = false) :
    ∃ events, (create flags >>= place).run assembler
      = ⟨.ok (), assembler.goesOn flags, events⟩ := by
  let label := assembler.graph.nextLabel
  let created := { assembler with graph := assembler.graph.create flags }
  have known : created.graph.node? label = some { label, flags } := by
    simp [created, label, FlowGraph.node?_create]
  have made : (create flags).run assembler = ⟨.ok label, created, []⟩ := rfl
  refine ⟨[.placed label assembler.code.cursor], ?_⟩
  rw [Action.run_bind, made, Outcome.andThen_ok, Outcome.after_nil,
    run_place_of_ok known rfl (run_resolve_empty _ _)]
  simp [placed, block, goesOn, created, label]

/-- A call is never refused. -/
theorem run_call (assembler : Assembler) (block : OpenBlock) (entry : Label) :
    ∃ events, (call block entry).run assembler
      = ⟨.ok (), assembler.calls block entry, events⟩ := by
  obtain ⟨events, went⟩ := run_place_create _ (show ({} : Flags).debugOnly = false from rfl)
  refine ⟨events, ?_⟩
  simp only [call, Action.run_bind, Action.run_modify, Outcome.andThen_ok, Outcome.after_nil]
  exact went

/-- A jump that is no call is never refused. -/
theorem run_branch (assembler : Assembler) (base : Opcode) (target : Label) (nextIsTarget : Bool) :
    ∃ events, (branch base target nextIsTarget).run assembler
      = ⟨.ok (), assembler.branches base target nextIsTarget, events⟩ := by
  unfold branch branches
  simp only [Action.run_bind, Action.run_modify, Outcome.andThen_ok, Outcome.after_nil]
  split
  · exact ⟨[], rfl⟩
  · exact run_place_create _ rfl

end Assembler

/-- The distance to a label fits a jump of this form, whose first opcode has the given offset. -/
def JumpForm.Holds (node : Node) (source : Nat) : JumpForm → Prop
  | .plain _ width => ∀ offset, node.offset? = some offset →
      width.Fits (Offset.distance offset source)
  | .inverted _ => ∀ offset, node.offset? = some offset →
      Width.wide.Fits (Offset.distance offset (source + 3))

/-- How far behind the first opcode of a jump the one is that the distance is counted from. -/
def JumpForm.lead : JumpForm → Nat
  | .plain .. => 0
  | .inverted _ => 3

/-- A wide operand holds every distance back within short code. -/
theorem Offset.fits_wide {target source : Nat} (behind : target ≤ source)
    (short : source < 0x80000000) : Width.wide.Fits (Offset.distance target source) := by
  rw [Offset.distance_eq_sub (by omega) (by omega)]
  constructor <;> simp [Width.size] <;> omega

/-- The form of a jump holds the distance to any label that is not in front of the next
instruction. -/
theorem Opcode.holds_of_jumpForm? {opcode : Opcode} {node : Node} {source : Nat} {form : JumpForm}
    (chosen : opcode.jumpForm? (node.isFarBefore source) = some form)
    (small : source + form.lead < 0x80000000)
    (behind : ∀ offset, node.offset? = some offset → offset ≤ source) : form.Holds node source := by
  unfold jumpForm? at chosen
  simp only at chosen
  split at chosen
  · rename_i notFar
    obtain rfl := Option.some.inj chosen
    intro offset found
    split
    · have before := behind offset found
      simp only [Node.isFarBefore, found] at notFar
      simp only [JumpForm.lead] at small
      rw [Offset.distance_eq_sub (by omega) (by omega)] at notFar ⊢
      simp only [Bool.not_eq_true', decide_eq_false_iff_not] at notFar
      constructor <;> simp [Width.size] <;> omega
    · exact Offset.fits_wide (behind offset found) small
  · split at chosen
    · obtain rfl := Option.some.inj chosen
      exact fun offset found => Offset.fits_wide (behind offset found) small
    · split at chosen
      · obtain rfl := Option.some.inj chosen
        exact fun offset found => Offset.fits_wide (behind offset found) small
      · obtain ⟨inverse, _, rfl⟩ := Option.map_eq_some_iff.mp chosen
        exact fun offset found =>
          Offset.fits_wide (Nat.le_add_right_of_le (behind offset found)) small

/-- Whether all opcodes have a property can be decided byte by byte. -/
instance Opcode.decidableForall {P : Opcode → Prop} [DecidablePred P] :
    Decidable (∀ opcode, P opcode) :=
  decidable_of_iff (∀ value : Fin 256, P (UInt8.ofFin value))
    ⟨fun all opcode => by simpa using all opcode.toFin, fun all _ => all _⟩

/-- Every jump can be written in some form. -/
theorem Opcode.exists_jumpForm? {opcode : Opcode} (jumps : opcode.isJump = true) (far : Bool) :
    ∃ form, opcode.jumpForm? far = some form := by
  have all : ∀ opcode : Opcode, opcode.isJump = true → (opcode.jumpForm? far).isSome = true := by
    cases far <;> decide +kernel
  exact Option.isSome_iff_exists.mp (all opcode jumps)

namespace Assembler

variable {assembler : Assembler} {label target : Label} {node : Node} {opcode : Opcode}

/-- An opcode that is no jump is refused. -/
theorem run_jump_of_notAJump (target : Label) (other : opcode.isJump = false) :
    (jump opcode target).run assembler = ⟨.error (.notAJump opcode), assembler, []⟩ := by
  simp [jump, other]

/-- A jump to a label that does not exist is refused. -/
theorem run_jump_of_unknown (jumps : opcode.isJump = true)
    (unknown : assembler.graph.node? target = none) :
    (jump opcode target).run assembler = ⟨.error (.unknownLabel target), assembler, []⟩ := by
  simp [jump, jumps, run_markTarget_of_unknown unknown]

/-- A jump to a label that refuses jumps is refused. -/
theorem run_jump_of_refused (jumps : opcode.isJump = true)
    (known : assembler.graph.node? target = some node) (refused : node.refusesJumps = true) :
    (jump opcode target).run assembler = ⟨.error (.debugOnlyTarget target), assembler, []⟩ := by
  simp [jump, jumps, run_markTarget known, refused]

/-- A jump is written in its form. -/
theorem run_emitJump (assembler : Assembler) (form : JumpForm)
    (known : assembler.graph.node? target = some node)
    (holds : form.Holds node assembler.code.cursor) :
    (emitJump form target).run assembler = ⟨.ok (), assembler.emits target form, []⟩ := by
  cases form with
  | plain opcode width =>
    have referred := run_refer (assembler.append [opcode]) assembler.code.cursor width known
      holds
    simp [emitJump, cursor, referred, emits]
  | inverted inverse =>
    let before := assembler.append (inverse :: Width.narrow.operand 8)
    have source : before.code.cursor = assembler.code.cursor + 3 := by
      simp [before, append, Buffer.cursor, Width.size]
    have referred := run_refer (before.append [Opcode.gotoWide]) before.code.cursor .wide known
      (by rw [source]; exact holds)
    simp only [before] at referred
    simp [emitJump, cursor, referred, emits]

/-- A jump is written, and the open block ends with it. -/
theorem run_jump {form : JumpForm} (isJump : opcode.isJump = true)
    (known : assembler.graph.node? target = some node) (allowed : node.refusesJumps = false)
    (chosen : opcode.jumpForm? (node.isFarBefore assembler.code.cursor) = some form)
    (holds : form.Holds node assembler.code.cursor) :
    ∃ events, (jump opcode target).run assembler
      = ⟨.ok (), (assembler.update target Node.marked).jumps opcode form target, events⟩ := by
  let marked := assembler.update target Node.marked
  have knownMarked : marked.graph.node? target = some node.marked := by
    simp [marked, update, FlowGraph.node?_update, known]
  have emitted := run_emitJump marked form knownMarked holds
  have before : (jump opcode target).run assembler
      = Outcome.after (((match (marked.emits target form).openBlock with
          | none => pure ()
          | some block =>
            if opcode.base = Opcode.jsr then call block target
            else branch opcode.base target form.isInverted) :
              Action Assembler Unit).run (marked.emits target form))
            [.jump opcode assembler.code.cursor target] := by
    have chosenMarked : opcode.jumpForm? (node.marked.isFarBefore marked.code.cursor)
        = some form := chosen
    have marks : (markTarget target).run assembler = ⟨.ok (), marked, []⟩ := by
      rw [run_markTarget known, allowed]
      rfl
    simp only [jump, isJump, if_true, Action.run_bind, marks, Outcome.andThen_ok, Outcome.after_nil,
      cursor, Action.run_inspect, run_getNode knownMarked, chosenMarked, emitted, Action.run_report]
    rfl
  rw [before]
  unfold jumps
  simp only
  cases (marked.emits target form).openBlock with
  | none => exact ⟨[.jump opcode assembler.code.cursor target], rfl⟩
  | some block =>
    simp only
    split
    · obtain ⟨events, called⟩ := run_call (marked.emits target form) block target
      exact ⟨_, by rw [called]; rfl⟩
    · obtain ⟨events, branched⟩ := run_branch (marked.emits target form) opcode.base target
        form.isInverted
      exact ⟨_, by rw [branched]; rfl⟩

/-- An instruction that needs an operation of its own is refused. -/
theorem run_instruction_of_refused {rest : List UInt8} {delta : Int32}
    (refused : needsOwnOperation opcode = true) :
    (instruction (opcode :: rest) delta).run assembler
      = ⟨.error (.transfersControl opcode), assembler, []⟩ := by
  simp [instruction, refused]

/-- An instruction is written, and the open block ends with it if it never goes on. -/
theorem run_instruction {rest : List UInt8} {delta : Int32}
    (allowed : needsOwnOperation opcode = false) :
    (instruction (opcode :: rest) delta).run assembler = ⟨.ok (),
      if opcode.isTerminal then ((assembler.append (opcode :: rest)).adjust delta).closeBlock
      else (assembler.append (opcode :: rest)).adjust delta, []⟩ := by
  simp only [instruction, allowed]
  cases terminal : opcode.isTerminal <;> simp

/-- An instruction that is refused is not listed. -/
theorem emitted?_instruction_of_refused {rest : List UInt8} {delta : Int32}
    (refused : needsOwnOperation opcode = true) :
    (Operation.instruction (opcode :: rest) delta).emitted? assembler = none := by
  simp [Operation.emitted?, refused]

/-- An instruction that is written is listed. -/
theorem emitted?_instruction {rest : List UInt8} {delta : Int32}
    (allowed : needsOwnOperation opcode = false) :
    (Operation.instruction (opcode :: rest) delta).emitted? assembler
      = some (.plain (opcode :: rest) delta) := by
  simp [Operation.emitted?, allowed]

/-- An opcode that is no jump is not listed as one. -/
theorem emitted?_jump_of_notAJump (target : Label) (other : opcode.isJump = false) :
    (Operation.jump opcode target).emitted? assembler = none := by
  cases known : assembler.graph.node? target <;> simp [Operation.emitted?, known, other]

/-- A jump that is refused is not listed. -/
theorem emitted?_jump_of_refused (known : assembler.graph.node? target = some node)
    (refused : node.refusesJumps = true) :
    (Operation.jump opcode target).emitted? assembler = none := by
  have forbidden : (opcode.isJump && !(node.flags.debugOnly && node.isPlaced)) = false := by
    rw [Node.refusesJumps] at refused
    rw [refused]
    simp
  simp only [Operation.emitted?, known, Option.bind_eq_bind, Option.bind_some, forbidden]
  rfl

/-- A jump that is written is listed in its form. -/
theorem emitted?_jump {form : JumpForm} (isJump : opcode.isJump = true)
    (known : assembler.graph.node? target = some node) (allowed : node.refusesJumps = false)
    (chosen : opcode.jumpForm? (node.isFarBefore assembler.code.cursor) = some form) :
    (Operation.jump opcode target).emitted? assembler = some (.jump opcode form target) := by
  have fine : (opcode.isJump && !(node.flags.debugOnly && node.isPlaced)) = true := by
    rw [Node.refusesJumps] at allowed
    rw [allowed, isJump]
    rfl
  simp only [Operation.emitted?, known, Option.bind_eq_bind, Option.bind_some,
    fine, if_true, chosen]

end Assembler

end MethodBody
