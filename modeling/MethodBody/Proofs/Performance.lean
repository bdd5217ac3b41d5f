import MethodBody.Proofs.Effects
import MethodBody.Proofs.Growth

/-!
# What a successful operation does

What an operation that succeeds does can be written down as a function of the state before it, one
for each operation (`Performs`), and the labels that it names exist (`known_of_yields`). Whatever
holds of all these functions holds of every run in which no operation fails.
-/

namespace MethodBody

/-- Whether a label refuses jumps, if it exists. -/
def FlowGraph.refuses? (graph : FlowGraph) (label : Label) : Option Bool :=
  (graph.node? label).map Node.refusesJumps

/-- A change after which no label refuses jumps that accepted them, and none accepts jumps that
refused them. -/
theorem FlowGraph.refuses?_update {change : Node → Node}
    (same : ∀ node, (change node).refusesJumps = node.refusesJumps) (graph : FlowGraph)
    (changed : Label) : (graph.update changed change).refuses? = graph.refuses? := by
  funext label
  simp only [refuses?, node?_update]
  split
  · cases graph.node? label <;> simp [same]
  · rfl

namespace Assembler

variable {assembler after : Assembler} {label target : Label}

/-- A label that could be marked is known, does not refuse jumps, and is marked. -/
theorem of_yields_markTarget {label : Label} {answer : Unit}
    (yields : (markTarget label).Yields assembler answer after) :
    ∃ node, assembler.graph.node? label = some node ∧ node.refusesJumps = false ∧
      assembler.update label Node.marked = after := by
  obtain ⟨succeeds, rfl⟩ := yields
  cases known : assembler.graph.node? label with
  | none => simp [run_markTarget_of_unknown known] at succeeds
  | some node =>
    rw [run_markTarget known] at succeeds ⊢
    split at succeeds
    · simp at succeeds
    · rename_i allowed
      exact ⟨node, rfl, by simpa using allowed, by rw [if_neg allowed]⟩

/-- Control can be transferred to the label. -/
def Accepts (assembler : Assembler) (label : Label) : Prop :=
  ∃ node, assembler.graph.node? label = some node ∧ node.refusesJumps = false

/-- A label that accepts jumps is known. -/
theorem Accepts.isSome {label : Label} (accepts : assembler.Accepts label) :
    (assembler.graph.node? label).isSome := by
  obtain ⟨node, known, _⟩ := accepts
  simp [known]

/-- Labels accept jumps as in another state in which the same labels refuse them. -/
theorem accepts_congr (same : after.graph.refuses? = assembler.graph.refuses?) :
    after.Accepts label ↔ assembler.Accepts label := by
  have iff (state : Assembler) :
      state.Accepts label ↔ state.graph.refuses? label = some false := by
    simp [Accepts, FlowGraph.refuses?]
  rw [iff, iff, same]

/-- A change that lets no label accept jumps that refused them before. -/
theorem Accepts.of_update {changed label : Label} {change : Node → Node}
    (refuses : ∀ node, assembler.graph.node? changed = some node →
      (change node).refusesJumps = false → node.refusesJumps = false)
    (accepts : (assembler.update changed change).Accepts label) : assembler.Accepts label := by
  obtain ⟨node, known, allowed⟩ := accepts
  rw [update, FlowGraph.node?_update] at known
  split at known
  · rename_i same
    subst same
    obtain ⟨before, was, rfl⟩ := Option.map_eq_some_iff.mp known
    exact ⟨before, was, refuses before was allowed⟩
  · exact ⟨node, known, allowed⟩

/-- An edge lets no label accept jumps. -/
theorem Accepts.of_addEdge {successor label : Label}
    (accepts : (assembler.addEdge successor).Accepts label) : assembler.Accepts label := by
  unfold addEdge at accepts
  split at accepts
  · exact accepts
  · rename_i block _
    have linked : (assembler.update block.label
        (·.prepend ⟨.jump block.height, successor⟩)).Accepts label := accepts
    refine linked.of_update ?_
    exact fun _ _ allowed => allowed

/-- Labels that could all be marked accepted jumps, and control is led to each of them. -/
theorem of_yields_marks {targets : List Label} {answer : Unit}
    (yields : (Action.forEach targets fun target => do
      markTarget target
      modify (·.addEdge target)).Yields assembler answer after) :
    assembler.leadsTo targets = after ∧ ∀ target ∈ targets, assembler.Accepts target := by
  induction targets generalizing assembler with
  | nil => exact ⟨(Action.yields_pure.mp yields).2, by simp⟩
  | cons target rest ih =>
    obtain ⟨middle, first, others⟩ := Action.yields_forEach_cons.mp yields
    simp only [Action.yields_bind, Action.yields_modify] at first
    obtain ⟨_, _, marking, rfl⟩ := first
    obtain ⟨node, known, allowed, rfl⟩ := of_yields_markTarget marking
    obtain ⟨rfl, acceptsOthers⟩ := ih others
    refine ⟨rfl, ?_⟩
    intro label member
    rcases List.mem_cons.mp member with rfl | later
    · exact ⟨node, known, allowed⟩
    · refine Accepts.of_update ?_ (acceptsOthers label later).of_addEdge
      intro before was _
      obtain rfl : node = before := by simpa [known] using was
      exact allowed

/-- A switch ends the open block once all its labels are marked. -/
theorem of_yields_endSwitch {targets : List Label} {answer : Unit}
    (yields : (endSwitch targets).Yields assembler answer after) :
    assembler.switches targets = after ∧ ∀ target ∈ targets, assembler.Accepts target := by
  unfold endSwitch at yields
  simp only [Action.yields_bind, Action.yields_modify] at yields
  obtain ⟨_, _, rfl, _, _, marking, rfl⟩ := yields
  obtain ⟨rfl, accepts⟩ := of_yields_marks marking
  exact ⟨rfl, accepts⟩

end Assembler

/-- A label at which a block has to start if it is placed later. -/
def Node.bounded (node : Node) : Node :=
  if node.isPlaced then node else { node with flags.debugOnly := false }

namespace Assembler

/-- Write an instruction that does not jump. -/
def writesPlain (assembler : Assembler) (opcode : Opcode) (rest : List UInt8) (delta : Int32) :
    Assembler :=
  let written := (assembler.append (opcode :: rest)).adjust delta
  if opcode.isTerminal then written.closeBlock else written

/-- Write an instruction on a local variable. -/
def writesLocal (assembler : Assembler) (request : LocalInstruction) : Assembler :=
  let written := ((assembler.append request.encode).adjust request.delta).needLocals
    request.localsNeeded
  match request with
  | .ret _ => written.endSubroutine
  | _ => written

/-- Note the bounds of a protected range. -/
def bounds (assembler : Assembler) (handler : Handler) : Assembler :=
  (assembler.update handler.start Node.bounded).update handler.stop Node.bounded

/-- Protect the blocks of a range with a handler. -/
def protects (assembler : Assembler) (handler : Handler) : Assembler :=
  { (assembler.bounds handler).update handler.handler Node.marked with
    handlers := assembler.handlers.push handler }

/-- What each operation does if it succeeds. -/
inductive Performs (assembler : Assembler) : Operation → Assembler → Prop
  /-- A label is created. -/
  | freshLabel :
    Performs assembler .freshLabel { assembler with graph := assembler.graph.create {} }
  /-- A label that only debug information refers to is created. -/
  | freshDebugLabel : Performs assembler .freshDebugLabel
      { assembler with graph := assembler.graph.create { debugOnly := true } }
  /-- A label without an offset is placed, and the code keeps its size. -/
  | place {label : Label} {node : Node} {code : Buffer} {rewritten : Bool}
      (known : assembler.graph.node? label = some node) (unplaced : node.isPlaced = false)
      (size : code.size = assembler.code.size) :
    Performs assembler (.place label) (assembler.placed label node code rewritten)
  /-- Nothing is written. -/
  | nothing {delta : Int32} : Performs assembler (.instruction [] delta) assembler
  /-- An instruction is written. -/
  | instruction {opcode : Opcode} {rest : List UInt8} {delta : Int32}
      (allowed : needsOwnOperation opcode = false) :
    Performs assembler (.instruction (opcode :: rest) delta)
      (assembler.writesPlain opcode rest delta)
  /-- An instruction on a local variable is written. -/
  | localInstruction {request : LocalInstruction} :
    Performs assembler (.localInstruction request) (assembler.writesLocal request)
  /-- A jump is written in its form. -/
  | jump {opcode : Opcode} {target : Label} {node : Node} {form : JumpForm}
      (isJump : opcode.isJump = true) (known : assembler.graph.node? target = some node)
      (allowed : node.refusesJumps = false)
      (chosen : opcode.jumpForm? (node.isFarBefore assembler.code.cursor) = some form)
      (holds : form.Holds node assembler.code.cursor) :
    Performs assembler (.jump opcode target)
      ((assembler.update target Node.marked).jumps opcode form target)
  /-- A switch over consecutive keys is written. -/
  | tableSwitch {low high : Int32} {fallback : Label} {targets : List Label}
      (accepts : ∀ target ∈ fallback :: targets, assembler.Accepts target) :
    Performs assembler (.tableSwitch low high fallback targets)
      ((assembler.emitsTable low high fallback targets).switches (fallback :: targets))
  /-- A switch over any keys is written. -/
  | lookupSwitch {fallback : Label} {cases : List Case}
      (accepts : ∀ target ∈ fallback :: (sortCases cases).map (·.target),
        assembler.Accepts target) :
    Performs assembler (.lookupSwitch fallback cases)
      ((assembler.emitsLookup fallback (sortCases cases)).switches
        (fallback :: (sortCases cases).map (·.target)))
  /-- A line is attached to a label. -/
  | addLine {label : Label} {line : UInt16} : Performs assembler (.addLine label line)
      { assembler.update label (·.addLine line) with lines := assembler.lines.push { label, line } }
  /-- Blocks are protected. -/
  | addHandler {handler : Handler} (accepts : (assembler.bounds handler).Accepts handler.handler) :
    Performs assembler (.addHandler handler) (assembler.protects handler)
  /-- Sizes are declared. -/
  | declare {maxima : Maxima} :
    Performs assembler (.declare maxima) { assembler with declared := maxima }

variable {assembler after : Assembler} {label target : Label}

/-- A reference lets labels accept jumps as they did. -/
theorem refuses?_refers (assembler : Assembler) (target : Label) (source : Nat) (width : Width) :
    (assembler.refers target source width).graph.refuses? = assembler.graph.refuses? := by
  refine FlowGraph.refuses?_update ?_ _ _
  intro node
  rw [Node.refusesJumps, Node.isPlaced, Node.offset?_referred]
  unfold Node.referred
  split <;> rfl

/-- References let labels accept jumps as they did. -/
theorem refuses?_refersAll (assembler : Assembler) (targets : List Label) (source : Nat) :
    (assembler.refersAll targets source).graph.refuses? = assembler.graph.refuses? := by
  induction targets generalizing assembler with
  | nil => rfl
  | cons target rest ih => exact (ih _).trans (assembler.refuses?_refers target source .wide)

/-- A switch over consecutive keys lets labels accept jumps as they did. -/
theorem refuses?_emitsTable (assembler : Assembler) (low high : Int32) (fallback : Label)
    (targets : List Label) :
    (assembler.emitsTable low high fallback targets).graph.refuses? = assembler.graph.refuses? :=
  (refuses?_refersAll _ targets _).trans (refuses?_refers _ fallback _ .wide)

/-- A switch over any keys lets labels accept jumps as they did. -/
theorem refuses?_emitsLookup (assembler : Assembler) (fallback : Label) (cases : List Case) :
    (assembler.emitsLookup fallback cases).graph.refuses? = assembler.graph.refuses? := by
  have inCases (before : Assembler) (rest : List Case) (source : Nat) :
      (rest.foldl (fun after one => after.emitsCase source one) before).graph.refuses?
        = before.graph.refuses? := by
    induction rest generalizing before with
    | nil => rfl
    | cons one rest ih => exact (ih _).trans (refuses?_refers _ one.target source .wide)
  exact (inCases _ cases _).trans (refuses?_refers _ fallback _ .wide)

/-- A label that was looked up is known. -/
theorem known_of_getNode {node : Node} (yields : (getNode label).Yields assembler node after) :
    assembler.graph.node? label = some node ∧ assembler = after := by
  obtain ⟨found, rfl⟩ := Action.yields_read.mp yields
  exact ⟨FlowGraph.known_of_node found, rfl⟩

/-- A reference that is written has a known label, and its width holds the distance. -/
theorem of_yields_refer {source : Nat} {width : Width} {answer : Unit}
    (yields : (refer target source width).Yields assembler answer after) :
    assembler.refers target source width = after ∧
      ∃ node, assembler.graph.node? target = some node ∧
        ∀ offset, node.offset? = some offset → width.Fits (Offset.distance offset source) := by
  have both := yields
  unfold refer at both
  obtain ⟨node, _, looked, both⟩ := Action.yields_bind.mp both
  obtain ⟨known, rfl⟩ := known_of_getNode looked
  obtain ⟨_, _, written, _⟩ := Action.yields_bind.mp both
  have fits (offset : Nat) (place : node.offset? = some offset) :
      width.Fits (Offset.distance offset source) := by
    refine Decidable.byContradiction fun wide => ?_
    have placement : node.placement = .placed offset := by
      cases placement : node.placement with
      | pending ledger => simp [Node.offset?, placement] at place
      | placed other => simpa [Node.offset?, placement] using place
    have failed := written.1
    simp [onCode, Node.refer, placement, wide] at failed
  refine ⟨?_, node, known, fits⟩
  rw [← yields.2, run_refer assembler source width known fits]

/-- References that are written, one after the other. -/
theorem of_yields_forEach_refer {source : Nat} {targets : List Label} {answer : Unit}
    (yields : (Action.forEach targets fun target => refer target source .wide).Yields assembler
      answer after) : assembler.refersAll targets source = after := by
  induction targets generalizing assembler with
  | nil => exact (Action.yields_pure.mp yields).2
  | cons target rest ih =>
    obtain ⟨_, first, others⟩ := Action.yields_forEach_cons.mp yields
    obtain ⟨rfl, _⟩ := of_yields_refer first
    exact ih others

/-- Cases that are written, one after the other. -/
theorem of_yields_forEach_case {source : Nat} {cases : List Case} {answer : Unit}
    (yields : (Action.forEach cases fun one => do
      emitWord one.key.toInt
      refer one.target source .wide).Yields assembler answer after) :
    cases.foldl (fun after one => after.emitsCase source one) assembler = after := by
  induction cases generalizing assembler with
  | nil => exact (Action.yields_pure.mp yields).2
  | cons one rest ih =>
    obtain ⟨_, first, others⟩ := Action.yields_forEach_cons.mp yields
    simp only [Action.yields_bind, emitWord, Action.yields_modify] at first
    obtain ⟨_, _, rfl, referred⟩ := first
    obtain ⟨rfl, _⟩ := of_yields_refer referred
    exact ih others

/-- The head of a switch that is written. -/
theorem of_yields_beginSwitch {opcode : Opcode} {fallback : Label} {source : Nat}
    (yields : (beginSwitch opcode fallback).Yields assembler source after) :
    assembler.code.cursor = source ∧ assembler.beginsSwitch opcode fallback = after := by
  unfold beginSwitch cursor at yields
  simp only [Action.yields_bind, Action.yields_inspect, Action.yields_modify,
    Action.yields_pure] at yields
  obtain ⟨_, _, ⟨rfl, rfl⟩, _, _, rfl, _, _, rfl, _, _, referred, rfl, rfl⟩ := yields
  exact ⟨rfl, (of_yields_refer referred).1⟩

/-- A switch over consecutive keys that is written. -/
theorem of_yields_tableSwitch {low high : Int32} {fallback : Label} {targets : List Label}
    {answer : Unit}
    (yields : (tableSwitch low high fallback targets).Yields assembler answer after) :
    (assembler.emitsTable low high fallback targets).switches (fallback :: targets) = after ∧
      ∀ target ∈ fallback :: targets, assembler.Accepts target := by
  unfold tableSwitch at yields
  simp only [Action.yields_bind, emitWord, Action.yields_modify] at yields
  obtain ⟨_, _, begins, _, _, rfl, _, _, rfl, _, _, referred, ends⟩ := yields
  obtain ⟨rfl, rfl⟩ := of_yields_beginSwitch begins
  obtain rfl := of_yields_forEach_refer referred
  obtain ⟨rfl, accepts⟩ := of_yields_endSwitch ends
  exact ⟨rfl, fun label member =>
    (accepts_congr (refuses?_emitsTable _ _ _ _ _)).mp (accepts label member)⟩

/-- A switch over any keys that is written. -/
theorem of_yields_lookupSwitch {fallback : Label} {cases : List Case} {answer : Unit}
    (yields : (lookupSwitch fallback cases).Yields assembler answer after) :
    (assembler.emitsLookup fallback (sortCases cases)).switches
        (fallback :: (sortCases cases).map (·.target)) = after ∧
      ∀ target ∈ fallback :: (sortCases cases).map (·.target), assembler.Accepts target := by
  unfold lookupSwitch at yields
  simp only [Action.yields_bind] at yields
  obtain ⟨_, _, begins, _, _, counted, _, _, referred, ends⟩ := yields
  obtain ⟨rfl, rfl⟩ := of_yields_beginSwitch begins
  obtain rfl := Action.yields_modify.mp counted
  obtain rfl := of_yields_forEach_case referred
  obtain ⟨rfl, accepts⟩ := of_yields_endSwitch ends
  exact ⟨rfl, fun label member =>
    (accepts_congr (refuses?_emitsLookup _ _ _)).mp (accepts label member)⟩

/-- A jump that is written holds the distance. -/
theorem of_yields_emitJump {form : JumpForm} {answer : Unit}
    (yields : (emitJump form target).Yields assembler answer after) :
    assembler.emits target form = after ∧
      ∃ node, assembler.graph.node? target = some node ∧ form.Holds node assembler.code.cursor := by
  cases form with
  | plain opcode width =>
    simp only [emitJump, cursor, Action.yields_bind, Action.yields_inspect, Action.yields_modify]
      at yields
    obtain ⟨_, _, ⟨rfl, rfl⟩, _, _, rfl, referred⟩ := yields
    obtain ⟨rfl, node, known, fits⟩ := of_yields_refer referred
    exact ⟨rfl, node, known, fits⟩
  | inverted inverse =>
    simp only [emitJump, cursor, Action.yields_bind, Action.yields_inspect, Action.yields_modify]
      at yields
    obtain ⟨_, _, rfl, _, _, ⟨rfl, rfl⟩, _, _, rfl, referred⟩ := yields
    obtain ⟨rfl, node, known, fits⟩ := of_yields_refer referred
    have source : (assembler.append (inverse :: Width.narrow.operand 8)).code.cursor
        = assembler.code.cursor + 3 := by
      simp [append, Buffer.cursor, Width.size]
    rw [source] at fits
    exact ⟨rfl, node, known, fits⟩

/-- An action on the code yields what it yields there, and leaves everything else. -/
theorem yields_onCode {α : Type} {action : Action Buffer α} {value : α} :
    (onCode action).Yields assembler value after ↔
      ∃ code, action.Yields assembler.code value code ∧ { assembler with code } = after := by
  simp [Action.Yields, onCode, and_assoc]

/-- A label that is placed had no offset, and the code keeps its size. -/
theorem of_yields_place {answer : Unit} (yields : (place label).Yields assembler answer after) :
    ∃ node code rewritten, assembler.graph.node? label = some node ∧ node.isPlaced = false ∧
      code.size = assembler.code.size ∧ assembler.placed label node code rewritten = after := by
  have both := yields
  unfold place cursor at both
  simp only [Action.yields_bind, Action.yields_inspect] at both
  obtain ⟨node, _, looked, _, _, ⟨rfl, rfl⟩, _, _, placing, _⟩ := both
  obtain ⟨known, rfl⟩ := known_of_getNode looked
  obtain ⟨code, placing, _⟩ := yields_onCode.mp placing
  cases placement : node.placement with
  | placed offset => simp [Node.place, placement] at placing
  | pending ledger =>
    simp only [Node.place, placement, Action.yields_bind] at placing
    obtain ⟨rewritten, _, resolved, done⟩ := placing
    obtain ⟨_, rfl⟩ := Action.yields_pure.mp done
    have size := (Buffer.keepsSize_resolve ledger _).of_yields resolved
    have unplaced : node.isPlaced = false := by simp [Node.isPlaced, Node.offset?, placement]
    refine ⟨node, _, rewritten, known, unplaced, size, ?_⟩
    obtain ⟨events, ran⟩ := Action.run_of_yields resolved
    rw [← yields.2, run_place_of_ok known placement ran]
/-- An operation that succeeds has done its action. -/
theorem of_yields_withoutLabel {action : Action Assembler Unit} {answer : Option Label}
    (yields : (Operation.withoutLabel action).Yields assembler answer after) :
    action.Yields assembler () after := by
  unfold Operation.withoutLabel at yields
  simp only [Action.yields_bind, Action.yields_pure] at yields
  obtain ⟨_, _, done, _, rfl⟩ := yields
  exact done

/-- A known label is marked as a bound. -/
theorem run_markBound (known : (assembler.graph.node? label).isSome) :
    (markBound label).run assembler = ⟨.ok (), assembler.update label Node.bounded, []⟩ := by
  obtain ⟨node, known⟩ := Option.isSome_iff_exists.mp known
  have accepted : (fun node : Node => (Except.ok (if node.isPlaced then node
      else { node with flags.debugOnly := false }) : Except Error Node)) node
        = .ok node.bounded := rfl
  have same := FlowGraph.update_const known Node.bounded
  rw [markBound, onGraph, Action.run_focus, FlowGraph.run_revise known accepted]
  simp only [Assembler.update, ← same]

/-- An unknown label cannot be marked as a bound. -/
theorem run_markBound_of_unknown (unknown : assembler.graph.node? label = none) :
    (markBound label).run assembler = ⟨.error (.unknownLabel label), assembler, []⟩ := by
  simp [markBound, onGraph, FlowGraph.revise, FlowGraph.node, unknown, bind, Except.bind]

/-- A label that could be marked as a bound is known. -/
theorem of_yields_markBound {answer : Unit}
    (yields : (markBound label).Yields assembler answer after) :
    (assembler.graph.node? label).isSome ∧ assembler.update label Node.bounded = after := by
  obtain ⟨succeeds, rfl⟩ := yields
  cases known : assembler.graph.node? label with
  | none => simp [run_markBound_of_unknown known] at succeeds
  | some node => exact ⟨rfl, by rw [run_markBound (by simp [known])]⟩

/-- Protecting blocks marks the labels of the range and of the handler. -/
theorem of_yields_addHandler {handler : Handler} {answer : Unit}
    (yields : (addHandler handler).Yields assembler answer after) :
    assembler.protects handler = after ∧ (assembler.bounds handler).Accepts handler.handler ∧
      ∀ label ∈ [handler.start, handler.stop, handler.handler],
        (assembler.graph.node? label).isSome := by
  unfold addHandler at yields
  simp only [Action.yields_bind, Action.yields_modify] at yields
  obtain ⟨_, _, starts, _, _, stops, _, _, handles, rfl⟩ := yields
  obtain ⟨knownStart, rfl⟩ := of_yields_markBound starts
  obtain ⟨knownStop, rfl⟩ := of_yields_markBound stops
  obtain ⟨node, known, allowed, rfl⟩ := of_yields_markTarget handles
  have accepts : (assembler.bounds handler).Accepts handler.handler := ⟨node, known, allowed⟩
  have knownHandler := accepts.isSome
  simp only [bounds, update, FlowGraph.isSome_node?_update] at knownHandler knownStop
  refine ⟨rfl, accepts, ?_⟩
  intro label member
  simp only [List.mem_cons, List.not_mem_nil, or_false] at member
  rcases member with rfl | rfl | rfl
  · exact knownStart
  · exact knownStop
  · exact knownHandler

/-- A jump that is not refused is written in its form, which holds the distance. -/
theorem of_yields_jump {opcode : Opcode} {answer : Unit}
    (yields : (jump opcode target).Yields assembler answer after) :
    ∃ node form, opcode.isJump = true ∧ assembler.graph.node? target = some node ∧
      node.refusesJumps = false ∧
      opcode.jumpForm? (node.isFarBefore assembler.code.cursor) = some form ∧
      form.Holds node assembler.code.cursor ∧
      (assembler.update target Node.marked).jumps opcode form target = after := by
  by_cases isJump : opcode.isJump = true
  · have parts := yields
    unfold jump cursor at parts
    simp only [isJump, if_true, Action.yields_bind, Action.yields_inspect] at parts
    obtain ⟨_, _, marking, _, _, ⟨rfl, rfl⟩, _, _, looked, parts⟩ := parts
    obtain ⟨node, known, allowed, rfl⟩ := of_yields_markTarget marking
    have knownMarked : (assembler.update target Node.marked).graph.node? target
        = some node.marked := by
      simp [update, FlowGraph.node?_update, known]
    obtain ⟨found, rfl⟩ := known_of_getNode looked
    obtain rfl := Option.some.inj (found.symm.trans knownMarked)
    obtain ⟨form, chosen⟩ := Opcode.exists_jumpForm? isJump (node.isFarBefore assembler.code.cursor)
    have chosenMarked : opcode.jumpForm?
        (node.marked.isFarBefore (assembler.update target Node.marked).code.cursor)
          = some form := chosen
    simp only [chosenMarked, Action.yields_bind] at parts
    obtain ⟨_, _, emits, _⟩ := parts
    obtain ⟨_, _, knownAgain, fits⟩ := of_yields_emitJump emits
    obtain rfl := Option.some.inj (knownMarked.symm.trans knownAgain)
    have holds : form.Holds node assembler.code.cursor := fits
    obtain ⟨events, ran⟩ := run_jump isJump known allowed chosen holds
    have led := yields.2
    rw [ran] at led
    exact ⟨node, form, isJump, known, allowed, chosen, holds, led⟩
  · have failed := yields.1
    simp [run_jump_of_notAJump target (by simpa using isJump : opcode.isJump = false)] at failed

/-- A line that is attached belongs to a known label. -/
theorem of_yields_addLine {line : UInt16} {answer : Unit}
    (yields : (addLine label line).Yields assembler answer after) :
    (assembler.graph.node? label).isSome ∧
      { assembler.update label (·.addLine line) with
        lines := assembler.lines.push { label, line } } = after := by
  unfold addLine at yields
  simp only [Action.yields_bind, Action.yields_modify] at yields
  obtain ⟨_, _, looked, _, _, rfl, rfl⟩ := yields
  obtain ⟨known, rfl⟩ := known_of_getNode looked
  exact ⟨by simp [known], rfl⟩

/-- An operation that succeeds names labels that exist. -/
theorem known_of_yields {operation : Operation} {answer : Option Label}
    (yields : operation.perform.Yields assembler answer after) :
    ∀ label ∈ operation.labels, (assembler.graph.node? label).isSome := by
  cases operation with
  | freshLabel => simp [Operation.labels]
  | freshDebugLabel => simp [Operation.labels]
  | instruction bytes delta => simp [Operation.labels]
  | localInstruction request => simp [Operation.labels]
  | declare maxima => simp [Operation.labels]
  | place label =>
    obtain ⟨node, _, _, known, _⟩ := of_yields_place (of_yields_withoutLabel yields)
    simp [Operation.labels, known]
  | jump opcode target =>
    obtain ⟨node, _, _, known, _⟩ := of_yields_jump (of_yields_withoutLabel yields)
    simp [Operation.labels, known]
  | tableSwitch low high fallback targets =>
    have accepts := (of_yields_tableSwitch (of_yields_withoutLabel yields)).2
    exact fun label member => (accepts label member).isSome
  | lookupSwitch fallback cases =>
    have accepts := (of_yields_lookupSwitch (of_yields_withoutLabel yields)).2
    intro label member
    refine (accepts label ?_).isSome
    simp only [Operation.labels, List.mem_cons, List.mem_map] at member ⊢
    rcases member with first | ⟨one, asked, target⟩
    · exact .inl first
    · exact .inr ⟨one, List.mem_mergeSort.mpr asked, target⟩
  | addLine label line =>
    have known := (of_yields_addLine (of_yields_withoutLabel yields)).1
    simpa [Operation.labels] using known
  | addHandler handler =>
    exact (of_yields_addHandler (of_yields_withoutLabel yields)).2.2

/-- An operation that succeeds does what can be written down for it. -/
theorem performs_of_yields {operation : Operation} {answer : Option Label}
    (yields : operation.perform.Yields assembler answer after) :
    assembler.Performs operation after := by
  cases operation with
  | freshLabel => exact yields.2 ▸ .freshLabel
  | freshDebugLabel => exact yields.2 ▸ .freshDebugLabel
  | declare maxima => exact yields.2 ▸ .declare
  | addHandler handler =>
    obtain ⟨rfl, accepts, _⟩ := of_yields_addHandler (of_yields_withoutLabel yields)
    exact .addHandler accepts
  | addLine label line =>
    obtain ⟨_, rfl⟩ := of_yields_addLine (of_yields_withoutLabel yields)
    exact .addLine
  | instruction bytes delta =>
    have done := of_yields_withoutLabel yields
    cases bytes with
    | nil =>
      obtain rfl := (Action.yields_pure.mp done).2
      exact .nothing
    | cons opcode rest =>
      cases refused : needsOwnOperation opcode with
      | true =>
        have failed := done.1
        simp [run_instruction_of_refused refused] at failed
      | false =>
        have led := done.2
        rw [run_instruction refused] at led
        obtain rfl : assembler.writesPlain opcode rest delta = after := led
        exact .instruction refused
  | localInstruction request =>
    have done := (of_yields_withoutLabel yields).2
    have led : assembler.writesLocal request = after := by
      rw [← done]
      cases request <;> rfl
    exact led ▸ .localInstruction
  | place label =>
    obtain ⟨node, code, rewritten, known, unplaced, size, rfl⟩ :=
      of_yields_place (of_yields_withoutLabel yields)
    exact .place known unplaced size
  | jump opcode target =>
    obtain ⟨node, form, isJump, known, allowed, chosen, holds, rfl⟩ :=
      of_yields_jump (of_yields_withoutLabel yields)
    exact .jump isJump known allowed chosen holds
  | tableSwitch low high fallback targets =>
    obtain ⟨rfl, accepts⟩ := of_yields_tableSwitch (of_yields_withoutLabel yields)
    exact .tableSwitch accepts
  | lookupSwitch fallback cases =>
    obtain ⟨rfl, accepts⟩ := of_yields_lookupSwitch (of_yields_withoutLabel yields)
    exact .lookupSwitch accepts

/-- An operation that succeeds yields something. -/
theorem exists_yields {operation : Operation}
    (succeeds : (operation.perform.run assembler).answer.isOk) :
    ∃ answer, operation.perform.Yields assembler answer (assembler.after operation) := by
  cases answered : (operation.perform.run assembler).answer with
  | error cause => simp [answered, Except.isOk, Except.toBool] at succeeds
  | ok answer => exact ⟨answer, Action.yields_of_answer answered⟩

/-- A run in which no operation fails names labels that exist. -/
theorem namesKnown_of_succeeds {operations : List Operation}
    (succeeds : assembler.Succeeds operations) : assembler.NamesKnown operations := by
  induction operations generalizing assembler with
  | nil => trivial
  | cons operation rest ih =>
    obtain ⟨answer, yields⟩ := exists_yields succeeds.1
    exact ⟨known_of_yields yields, ih succeeds.2⟩

end Assembler

end MethodBody
