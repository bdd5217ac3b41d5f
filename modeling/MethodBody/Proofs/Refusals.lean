import MethodBody.Proofs.Anchors
import Mathlib.Logic.Relation

/-!
# What failed operations leave behind

An operation that fails keeps what it did until then: it may have written bytes, noted references,
marked labels and led the open block to some of the labels of a switch (`Assembler.Leaves`). But it
never places a label, and it neither opens a block nor closes one. So each operation of a run either
does all that it is asked to, or leaves some such traces (`performs_or_lingers`), and what both keep
holds after every run.
-/

namespace MethodBody

namespace Action

variable {σ α β : Type}

/-- The state after an action that fails is related to the state before. -/
def Lapses (relation : σ → σ → Prop) (action : Action σ α) : Prop :=
  ∀ state cause, (action.run state).answer = .error cause →
    relation state (action.run state).state

namespace Lapses

variable {relation : σ → σ → Prop}

/-- An action whose outcomes are all related to where it started. -/
theorem of_follows {action : Action σ α} (follows : Follows relation action) :
    Lapses relation action := fun state _ _ => follows state

/-- An action that never fails. -/
theorem of_ok {action : Action σ α}
    (succeeds : ∀ state, ∃ value, (action.run state).answer = .ok value) :
    Lapses relation action := by
  intro state cause fails
  obtain ⟨value, answered⟩ := succeeds state
  simp [answered] at fails

/-- Two actions in a row, of which the second may fail. -/
theorem bind [IsTrans σ relation] {action : Action σ α} {next : α → Action σ β}
    (first : Follows relation action) (second : ∀ value, Lapses relation (next value)) :
    Lapses relation (action >>= next) := by
  intro state cause fails
  rcases answer_bind_eq_error.mp fails with now | ⟨value, answered, later⟩
  · rw [state_bind_of_error next now]
    exact first state
  · rw [state_bind next answered]
    exact IsTrans.trans _ _ _ (first state) (second value _ cause later)

end Lapses

end Action

namespace Assembler

/-- A trace that an operation may leave before it fails. -/
inductive Leaves (before : Assembler) : Assembler → Prop
  /-- Bytes are written. -/
  | code {code : Buffer} (longer : before.code.size ≤ code.size) :
    Leaves before { before with code }
  /-- The distance to a label is written. -/
  | refers (target : Label) (source : Nat) (width : Width) :
    Leaves before (before.refers target source width)
  /-- A label is marked as a target. -/
  | marks {label : Label} (accepts : before.Accepts label) :
    Leaves before (before.update label Node.marked)
  /-- A label is marked as a bound. -/
  | bounds (label : Label) : Leaves before (before.update label Node.bounded)
  /-- The stack height changes. -/
  | adjusts (delta : Int32) : Leaves before (before.adjust delta)
  /-- The open block leads to a target. -/
  | links {label : Label} (target : before.graph.IsTarget label) :
    Leaves before (before.addEdge label)

/-- All traces that an operation may leave before it fails. -/
abbrev Lingers : Assembler → Assembler → Prop := Relation.ReflTransGen Leaves

variable {assembler : Assembler}

/-- Marking a label as a target leaves the mark, or nothing. -/
theorem lingers_markTarget (label : Label) : Action.Follows Lingers (markTarget label) := by
  intro assembler
  cases known : assembler.graph.node? label with
  | none =>
    rw [run_markTarget_of_unknown known]
  | some node =>
    rw [run_markTarget known]
    split
    · exact .refl
    · rename_i allowed
      exact .single (.marks ⟨node, known, by simpa using allowed⟩)

/-- Marking a label as a bound leaves the mark, or nothing. -/
theorem lingers_markBound (label : Label) : Action.Follows Lingers (markBound label) := by
  intro assembler
  cases known : assembler.graph.node? label with
  | none =>
    rw [run_markBound_of_unknown known]
  | some node =>
    rw [run_markBound (by simp [known])]
    exact .single (.bounds label)

/-- The distance to a label is written, or nothing is. -/
theorem state_refer (assembler : Assembler) (target : Label) (source : Nat) (width : Width) :
    ((refer target source width).run assembler).state = assembler.refers target source width ∨
      ((refer target source width).run assembler).state = assembler := by
  cases known : assembler.graph.node? target with
  | none => exact .inr (by simp [refer, getNode, FlowGraph.node, known])
  | some node =>
    by_cases fits : ∀ offset, node.offset? = some offset →
        width.Fits (Offset.distance offset source)
    · left
      rw [run_refer assembler source width known fits]
    · right
      push Not at fits
      obtain ⟨offset, found, long⟩ := fits
      have placement : node.placement = .placed offset := by
        cases placement : node.placement with
        | pending ledger => simp [Node.offset?, placement] at found
        | placed other => simpa [Node.offset?, placement] using found
      simp [refer, run_getNode known, onCode, Node.refer, placement, long]

/-- Writing the distance to a label leaves the distance, or nothing. -/
theorem lingers_refer (target : Label) (source : Nat) (width : Width) :
    Action.Follows Lingers (refer target source width) := by
  intro assembler
  rcases state_refer assembler target source width with referred | same
  · rw [referred]
    exact .single (.refers target source width)
  · rw [same]

/-- Writing bytes leaves the bytes. -/
theorem lingers_append (bytes : List UInt8) :
    Action.Follows Lingers (modify fun assembler => assembler.append bytes) :=
  fun assembler => .single (.code (by simp))

/-- Writing a jump leaves what is written of it. -/
theorem lingers_emitJump (form : JumpForm) (target : Label) :
    Action.Follows Lingers (emitJump form target) := by
  cases form with
  | plain opcode width =>
    exact .bind (fun _ => .refl) fun source => .bind (lingers_append [opcode]) fun _ =>
      lingers_refer target source width
  | inverted inverse =>
    exact .bind (lingers_append _) fun _ => .bind (fun _ => .refl) fun source =>
      .bind (lingers_append [Opcode.gotoWide]) fun _ => lingers_refer target source .wide

/-- Writing the head of a switch leaves what is written of it. -/
theorem lingers_beginSwitch (opcode : Opcode) (fallback : Label) :
    Action.Follows Lingers (beginSwitch opcode fallback) := by
  refine .bind (fun _ => .refl) fun source => .bind (lingers_append [opcode]) fun _ =>
    .bind (fun assembler => .single (.code ?_)) fun _ =>
      .bind (lingers_refer fallback source .wide) fun _ _ => .refl
  simp [Buffer.align]

/-- Leading the open block to a label leaves the mark and the edge, or nothing. -/
theorem lingers_marks (target : Label) : Action.Follows Lingers (do
    markTarget target
    modify (·.addEdge target)) := by
  intro assembler
  cases answered : ((markTarget target).run assembler).answer with
  | error cause =>
    rw [Action.state_bind_of_error _ answered]
    exact lingers_markTarget target assembler
  | ok answer =>
    obtain ⟨node, known, allowed, marked⟩ := of_yields_markTarget (Action.yields_of_answer answered)
    rw [Action.state_bind _ answered, ← marked, Action.run_modify]
    have linked : (assembler.update target Node.marked).graph.IsTarget target :=
      isTarget_marked (by simp [known])
    exact .tail (.single (.marks ⟨node, known, allowed⟩)) (.links linked)

/-- Ending a block with a switch never closes the block and fails. -/
theorem lapses_endSwitch (targets : List Label) : Action.Lapses Lingers (endSwitch targets) :=
  .bind (fun _ => .single (.adjusts (-1))) fun _ =>
    .bind (.forEach targets fun target _ => lingers_marks target) fun _ =>
      .of_ok fun _ => ⟨(), rfl⟩

/-- A jump that fails never ends the open block. -/
theorem lapses_jump (opcode : Opcode) (target : Label) :
    Action.Lapses Lingers (jump opcode target) := by
  by_cases jumps : opcode.isJump = true
  · simp only [jump, jumps, if_true]
    refine .bind (lingers_markTarget target) fun _ => .bind (fun _ => .refl) fun source =>
      .bind (fun _ => .refl) fun node => ?_
    split
    · refine .bind (lingers_emitJump _ target) fun _ => .bind (fun _ => .refl) fun _ =>
        .bind (fun _ => .refl) fun found => .of_ok fun assembler => ?_
      split
      · exact ⟨(), rfl⟩
      · split
        · obtain ⟨events, called⟩ := run_call assembler _ target
          exact ⟨(), by rw [called]⟩
        · obtain ⟨events, branched⟩ := run_branch assembler opcode.base target _
          exact ⟨(), by rw [branched]⟩
    · exact .of_follows fun _ => .refl
  · simp only [jump, jumps]
    exact .of_follows fun _ => .refl

/-- A label that cannot be placed is not placed. -/
theorem lapses_place (label : Label) : Action.Lapses Lingers (place label) := by
  refine .bind (fun _ => .refl) fun node => .bind (fun _ => .refl) fun offset =>
    .bind (fun assembler => .single (.code ?_)) fun placed => .of_ok fun assembler => ?_
  · exact Nat.le_of_eq (Buffer.keepsSize_place node offset assembler.code).symm
  · cases node.flags.debugOnly <;> simp

/-- No operation that fails places a label, opens a block or closes one. -/
theorem lapses_perform (operation : Operation) : Action.Lapses Lingers operation.perform := by
  have unlabelled {action : Action Assembler Unit} (lapses : Action.Lapses Lingers action) :
      Action.Lapses Lingers (Operation.withoutLabel action) := by
    intro assembler cause fails
    rcases Action.answer_bind_eq_error.mp fails with now | ⟨_, _, later⟩
    · rw [Operation.withoutLabel, Action.state_bind_of_error _ now]
      exact lapses assembler cause now
    · simp at later
  cases operation with
  | freshLabel => exact .of_ok fun _ => ⟨_, rfl⟩
  | freshDebugLabel => exact .of_ok fun _ => ⟨_, rfl⟩
  | place label => exact unlabelled (lapses_place label)
  | instruction bytes delta =>
    refine unlabelled ?_
    cases bytes with
    | nil => exact .of_follows fun _ => .refl
    | cons opcode rest =>
      intro assembler cause fails
      cases refused : needsOwnOperation opcode with
      | true =>
        rw [run_instruction_of_refused refused]
      | false => simp [run_instruction refused] at fails
  | localInstruction request =>
    refine unlabelled (.of_ok fun assembler => ⟨(), ?_⟩)
    cases request <;> rfl
  | jump opcode target => exact unlabelled (lapses_jump opcode target)
  | tableSwitch low high fallback targets =>
    exact unlabelled (.bind (lingers_beginSwitch _ fallback) fun source =>
      .bind (lingers_append _) fun _ => .bind (lingers_append _) fun _ =>
        .bind (.forEach targets fun target _ => lingers_refer target source .wide) fun _ =>
          lapses_endSwitch _)
  | lookupSwitch fallback cases =>
    exact unlabelled (.bind (lingers_beginSwitch _ fallback) fun source =>
      .bind (lingers_append _) fun _ => .bind (.forEach _ fun one _ =>
        .bind (lingers_append _) fun _ => lingers_refer one.target source .wide) fun _ =>
          lapses_endSwitch _)
  | addLine label line =>
    exact unlabelled (.bind (fun _ => .refl) fun _ => .of_ok fun _ => ⟨(), rfl⟩)
  | addHandler handler =>
    exact unlabelled (.bind (lingers_markBound _) fun _ => .bind (lingers_markBound _) fun _ =>
      .bind (lingers_markTarget _) fun _ => .of_ok fun _ => ⟨(), rfl⟩)
  | declare maxima => exact .of_ok fun _ => ⟨_, rfl⟩

/-- Each operation either does all that it is asked to, or leaves some traces and fails. -/
theorem performs_or_lingers (assembler : Assembler) (operation : Operation) :
    assembler.Performs operation (assembler.after operation) ∨
      assembler.Lingers (assembler.after operation) := by
  cases answered : (operation.perform.run assembler).answer with
  | ok answer => exact .inl (performs_of_yields (Action.yields_of_answer answered))
  | error cause => exact .inr (lapses_perform operation assembler cause answered)

/-- A trace of an operation that fails keeps the anchors. -/
theorem Anchored.leaves {after : Assembler} (anchored : assembler.Anchored true none)
    (leaves : assembler.Leaves after) : after.Anchored true none := by
  cases leaves with
  | code => exact anchored.congr rfl rfl rfl
  | refers target source width => exact anchored.refers target source width
  | marks accepts => exact anchored.marked accepts
  | bounds label => exact anchored.bounded label
  | adjusts => exact anchored.congr rfl rfl rfl
  | links => exact anchored.addEdge _

/-- All traces of an operation that fails keep the anchors. -/
theorem Anchored.lingers {after : Assembler} (anchored : assembler.Anchored true none)
    (lingers : assembler.Lingers after) : after.Anchored true none := by
  induction lingers with
  | refl => exact anchored
  | tail _ leaves ih => exact ih.leaves leaves

/-- What an operation leaves behind is anchored, whether it fails or not. -/
theorem Anchored.after (anchored : assembler.Anchored true none) (operation : Operation) :
    (assembler.after operation).Anchored true none := by
  rcases performs_or_lingers assembler operation with performs | lingers
  · exact anchored.performs (fun _ => rfl) performs
  · exact anchored.lingers lingers

/-- What a run leaves behind is anchored, whether its operations fail or not. -/
theorem anchored_afterAll (settings : Settings) (parameterSlots : UInt16)
    (operations : List Operation) :
    ((start settings parameterSlots).afterAll operations).Anchored true none := by
  suffices keeps : ∀ assembler : Assembler, assembler.Anchored true none →
      (assembler.afterAll operations).Anchored true none from
    keeps _ (anchored_start true settings parameterSlots)
  induction operations with
  | nil => exact fun _ anchored => anchored
  | cons operation rest ih => exact fun _ anchored => ih _ (anchored.after operation)

end Assembler

end MethodBody
