import MethodBody.Proofs.Placing

/-!
# Failures that change nothing

A jump, the placing of a label and a plain instruction are all or nothing: if they fail, everything
is as it was before (`failures_change_nothing`). A plain instruction is checked before it is
written, and so is the target of a jump. What a label has to fill in is worked out for all
references before any of them is overwritten. After its checks a jump goes through: the form that is
chosen for it holds the distance to any label that lies in front of it, and what follows it is a
label of its own.
-/

namespace MethodBody

namespace Action

variable {σ α : Type} {action : Action σ α} {state : σ}

/-- If the action fails, the state stays as it was. -/
def IsAtomic (action : Action σ α) (state : σ) : Prop :=
  ∀ cause, (action.run state).answer = .error cause → (action.run state).state = state

/-- An action that succeeds does not fail. -/
theorem isAtomic_of_ok {value : α} (succeeds : (action.run state).answer = .ok value) :
    action.IsAtomic state := by
  intro cause fails
  simp [succeeds] at fails

/-- An action that changes nothing changes nothing if it fails. -/
theorem isAtomic_of_state (same : (action.run state).state = state) : action.IsAtomic state :=
  fun _ _ => same

end Action

namespace Assembler

variable {assembler : Assembler} {pieces : List Piece} {label target : Label} {node : Node}
  {opcode : Opcode}

/-- An instruction is checked before it is written. -/
theorem isAtomic_instruction (assembler : Assembler) (bytes : List UInt8) (delta : Int32) :
    (instruction bytes delta).IsAtomic assembler := by
  cases bytes with
  | nil => exact Action.isAtomic_of_state rfl
  | cons opcode rest =>
    cases refused : needsOwnOperation opcode with
    | true =>
      apply Action.isAtomic_of_state
      rw [run_instruction_of_refused refused]
    | false =>
      have succeeds : ((instruction (opcode :: rest) delta).run assembler).answer = .ok () := by
        rw [run_instruction refused]
      exact Action.isAtomic_of_ok succeeds

/-- A label that does not exist is not placed. -/
theorem run_place_of_unknown (unknown : assembler.graph.node? label = none) :
    (place label).run assembler = ⟨.error (.unknownLabel label), assembler, []⟩ := by
  simp [place, getNode, FlowGraph.node, unknown]

namespace IsText

/-- All references to a label are looked at before any of them is filled in. -/
theorem isAtomic_place (text : assembler.IsText pieces) (label : Label) :
    (Assembler.place label).IsAtomic assembler := by
  cases known : assembler.graph.node? label with
  | none =>
    apply Action.isAtomic_of_state
    rw [run_place_of_unknown known]
  | some node =>
    cases placement : node.placement with
    | placed offset =>
      apply Action.isAtomic_of_state
      rw [run_place_of_placed known placement]
    | pending ledger =>
      -- All references are planned before the first one is filled in, so only the plan can fail.
      cases plans : ledger.plan assembler.code assembler.code.cursor with
      | error cause =>
        have refused := Ledger.run_resolve_of_refused plans
        apply Action.isAtomic_of_state
        rw [run_place_of_error known placement refused]
      | ok planned =>
        obtain ⟨events, resolved⟩ :=
          Ledger.run_resolve_of_planned plans (text.inside known placement)
        have succeeds : ((Assembler.place label).run assembler).answer = .ok () := by
          rw [run_place_of_ok known placement resolved]
        exact Action.isAtomic_of_ok succeeds

/-- A jump to a label that accepts jumps goes through. -/
theorem answer_jump_eq_ok (text : assembler.IsText pieces)
    (small : assembler.code.size + 3 < 0x80000000) (isJump : opcode.isJump = true)
    (known : assembler.graph.node? target = some node) (allowed : node.refusesJumps = false) :
    ((Assembler.jump opcode target).run assembler).answer = .ok () := by
  obtain ⟨form, chosen⟩ := Opcode.exists_jumpForm? isJump (node.isFarBefore assembler.code.cursor)
  -- A label that has its place lies in front of the jump, and the form is chosen for how far.
  have near : assembler.code.cursor + form.lead < 0x80000000 := by
    have lead : form.lead ≤ 3 := by cases form <;> simp [JumpForm.lead]
    show assembler.code.size + form.lead < 0x80000000
    omega
  have behind (offset : Nat) (place : node.offset? = some offset) :
      offset ≤ assembler.code.cursor :=
    text.behind target offset (by simp [FlowGraph.offset?, known, place])
  have holds := Opcode.holds_of_jumpForm? chosen near behind
  obtain ⟨events, ran⟩ := run_jump isJump known allowed chosen holds
  rw [ran]

/-- A jump is refused if its opcode is no jump or its target refuses jumps, and only then. -/
theorem answer_jump (text : assembler.IsText pieces)
    (small : assembler.code.size + 3 < 0x80000000) (opcode : Opcode)
    (known : assembler.graph.node? target = some node) :
    ((Assembler.jump opcode target).run assembler).answer =
      if opcode.isJump = false then .error (.notAJump opcode)
      else if node.flags.debugOnly && node.isPlaced then .error (.debugOnlyTarget target)
      else .ok () := by
  cases isJump : opcode.isJump with
  | false =>
    rw [run_jump_of_notAJump target isJump]
    rfl
  | true =>
    by_cases refused : node.refusesJumps = true
    · rw [run_jump_of_refused isJump known refused]
      exact (if_pos refused).symm
    · rw [text.answer_jump_eq_ok small isJump known (by simpa using refused)]
      exact (if_neg refused).symm

/-- Whatever a jump may be refused for is checked before anything is written. -/
theorem isAtomic_jump (text : assembler.IsText pieces)
    (small : assembler.code.size + 3 < 0x80000000) (opcode : Opcode) (target : Label) :
    (Assembler.jump opcode target).IsAtomic assembler := by
  cases isJump : opcode.isJump with
  | false =>
    apply Action.isAtomic_of_state
    rw [run_jump_of_notAJump target isJump]
  | true =>
    cases known : assembler.graph.node? target with
    | none =>
      apply Action.isAtomic_of_state
      rw [run_jump_of_unknown isJump known]
    | some node =>
      cases refused : node.refusesJumps with
      | true =>
        apply Action.isAtomic_of_state
        rw [run_jump_of_refused isJump known refused]
      | false => exact Action.isAtomic_of_ok (text.answer_jump_eq_ok small isJump known refused)

end IsText

variable {settings : Settings} {slots : UInt16} {operations : List Operation}

/-- Wherever a run comes to with short code, a jump, the placing of a label and a plain instruction
change nothing if they fail. A jump fails if its opcode is no jump, or if its target is a label that
only debug information refers to and that has its place already. It does not fail for any other
reason. -/
theorem failures_change_nothing (known : (start settings slots).NamesKnown operations)
    (short : ((start settings slots).afterAll operations).code.size < 0x40000000) :
    let assembler := (start settings slots).afterAll operations
    (∀ opcode target, (jump opcode target).IsAtomic assembler) ∧
      (∀ label, (place label).IsAtomic assembler) ∧
      (∀ bytes delta, (instruction bytes delta).IsAtomic assembler) ∧
      ∀ opcode target node, assembler.graph.node? target = some node →
        ((jump opcode target).run assembler).answer =
          if opcode.isJump = false then .error (.notAJump opcode)
          else if node.flags.debugOnly && node.isPlaced then .error (.debugOnlyTarget target)
          else .ok () := by
  intro assembler
  have text := (IsText.start settings slots).afterAll known (by omega)
  have small : assembler.code.size + 3 < 0x80000000 := by
    show ((start settings slots).afterAll operations).code.size + 3 < 0x80000000
    omega
  refine ⟨text.isAtomic_jump small, text.isAtomic_place, isAtomic_instruction assembler, ?_⟩
  intro opcode target node created
  exact text.answer_jump small opcode created

/-- A label that only debug information refers to is placed, and a jump waits for another label. -/
def debuggedJump : List Operation :=
  [.freshDebugLabel, .place ⟨1⟩, .freshLabel, .jump Opcode.ifEq ⟨2⟩]

/-- No jump leads to the label that is there for debugging, the start of the method is not placed
again, and a return is no jump. All of this fails and changes nothing. -/
theorem failures_change_nothing_debuggedJump :
    let assembler := (start {} 0).afterAll debuggedJump
    (((jump Opcode.goto ⟨1⟩).run assembler).answer = .error (.debugOnlyTarget ⟨1⟩) ∧
      ((jump Opcode.goto ⟨1⟩).run assembler).state = assembler) ∧
    (((place .start).run assembler).answer = .error (.placedTwice .start) ∧
      ((place .start).run assembler).state = assembler) ∧
    (((jump 0xb1 ⟨2⟩).run assembler).answer = .error (.notAJump 0xb1) ∧
      ((jump 0xb1 ⟨2⟩).run assembler).state = assembler) ∧
    ((jump Opcode.goto ⟨2⟩).run assembler).answer = .ok () := by
  intro assembler
  have known : (start {} 0).NamesKnown debuggedJump := by decide
  obtain ⟨jumps, places, _, answers⟩ := failures_change_nothing known (by decide)
  obtain ⟨debugging, foundDebugging⟩ : ∃ node, assembler.graph.node? ⟨1⟩ = some node := ⟨_, rfl⟩
  obtain ⟨ordinary, foundOrdinary⟩ : ∃ node, assembler.graph.node? ⟨2⟩ = some node := ⟨_, rfl⟩
  have refused : ((jump Opcode.goto ⟨1⟩).run assembler).answer = .error (.debugOnlyTarget ⟨1⟩) := by
    rw [answers _ _ debugging foundDebugging]
    obtain rfl := Option.some.inj foundDebugging
    rfl
  have placed : ((place .start).run assembler).answer = .error (.placedTwice .start) := by
    decide +kernel
  have other : ((jump 0xb1 ⟨2⟩).run assembler).answer = .error (.notAJump 0xb1) := by
    rw [answers _ _ ordinary foundOrdinary]
    rfl
  refine ⟨⟨refused, jumps _ _ _ refused⟩, ⟨placed, places _ _ placed⟩,
    ⟨other, jumps _ _ _ other⟩, ?_⟩
  rw [answers _ _ ordinary foundOrdinary]
  obtain rfl := Option.some.inj foundOrdinary
  rfl

end Assembler

end MethodBody
