import MethodBody.Proofs.Listing
import MethodBody.Proofs.Outcome

/-!
# Code only grows

No operation takes bytes away or changes the settings, whether it succeeds or fails. So the code is
never longer during a run than at its end (`size_le_afterAll`).
-/

namespace MethodBody

namespace Buffer

/-- The code has as many bytes in one state as in another. -/
def SameSize (before after : Buffer) : Prop := after.size = before.size

instance : IsPreorder Buffer SameSize where
  refl _ := rfl
  trans _ _ _ first second := Eq.trans second first

/-- The action keeps the number of bytes. -/
abbrev KeepsSize {α : Type} (action : Action Buffer α) : Prop :=
  Action.Follows SameSize action

/-- Overwriting for a reference keeps the number of bytes. -/
@[simp]
theorem size_overwrite (reference : Reference) (code : Buffer) (patch : Patch) :
    (reference.overwrite code patch).size = code.size := by
  cases patch <;> simp [Reference.overwrite]

/-- A reference lies in the code whether or not another one has been filled in. -/
@[simp]
theorem inside_overwrite {reference other : Reference} {code : Buffer} {patch : Patch} :
    reference.Inside (other.overwrite code patch) ↔ reference.Inside code := by
  simp [Reference.Inside]

/-- Filling in one reference keeps the number of bytes, also when it fails. -/
theorem keepsSize_apply (reference : Reference) (patch : Patch) :
    KeepsSize (reference.apply patch) := by
  refine .bind (fun _ => rfl) fun _ => .bind (fun _ => rfl) fun _ =>
    .bind (fun _ => rfl) fun inside => ?_
  split
  · exact fun code => size_overwrite reference code patch
  · exact fun _ => rfl

/-- Filling in references keeps the number of bytes, also when it fails. -/
theorem keepsSize_applyAll (target : Nat) (planned : List (Reference × Patch)) :
    KeepsSize (Ledger.applyAll target planned) := by
  unfold Ledger.applyAll
  generalize false = rewritten
  induction planned generalizing rewritten with
  | nil => exact fun _ => rfl
  | cons one rest ih =>
    rw [Action.fold_cons]
    refine .bind (.bind (fun _ => rfl) fun _ => ?_) fun _ => ih _
    exact .bind (keepsSize_apply one.1 one.2) fun _ _ => rfl

/-- Filling in all references of a ledger keeps the number of bytes, also when it fails. -/
theorem keepsSize_resolve (ledger : Ledger) (target : Nat) : KeepsSize (ledger.resolve target) :=
  .bind (fun _ => rfl) fun _ => keepsSize_applyAll target _

/-- Placing a label keeps the number of bytes, also when it fails. -/
theorem keepsSize_place (node : Node) (offset : Nat) : KeepsSize (node.place offset) := by
  unfold Node.place
  split
  · exact .bind (keepsSize_resolve _ offset) fun _ _ => rfl
  · exact fun _ => rfl

end Buffer

namespace Assembler

/-- The code is at most as long in one state as in another one with the same settings. -/
def NoLonger (before after : Assembler) : Prop :=
  before.code.size ≤ after.code.size ∧ after.settings = before.settings

/-- The action takes no bytes away. -/
abbrev Grows {α : Type} (action : Action Assembler α) : Prop :=
  Action.Follows NoLonger action

/-- The code is as long as itself. -/
theorem NoLonger.refl (assembler : Assembler) : NoLonger assembler assembler :=
  ⟨Nat.le_refl _, rfl⟩

/-- Code that is no longer than code that is no longer. -/
theorem NoLonger.trans (first second third : Assembler) (shorter : NoLonger first second)
    (longer : NoLonger second third) : NoLonger first third :=
  ⟨Nat.le_trans shorter.1 longer.1, longer.2.trans shorter.2⟩

instance : IsPreorder Assembler NoLonger where
  refl := NoLonger.refl
  trans := NoLonger.trans

variable {α : Type}

/-- An action that keeps the code. -/
theorem grows_of_code {action : Action Assembler α}
    (code : ∀ assembler, (action.run assembler).state.code = assembler.code)
    (settings : ∀ assembler, (action.run assembler).state.settings = assembler.settings) :
    Grows action := by
  intro assembler
  rw [NoLonger, code, settings]
  exact ⟨Nat.le_refl _, rfl⟩

/-- An action on the code that takes no bytes away. -/
theorem grows_onCode {action : Action Buffer α}
    (longer : ∀ code, code.size ≤ (action.run code).state.size) : Grows (onCode action) :=
  fun assembler => ⟨longer assembler.code, rfl⟩

/-- An action on the labels keeps the code. -/
theorem grows_onGraph (action : Action FlowGraph α) : Grows (onGraph action) :=
  grows_of_code (fun _ => rfl) fun _ => rfl

/-- Appending bytes takes none away. -/
theorem grows_append (bytes : List UInt8) :
    Grows (modify fun assembler => assembler.append bytes) := by
  intro assembler
  simp [NoLonger, append]

/-- Closing the open block keeps the code. -/
@[simp]
theorem code_closeBlock (assembler : Assembler) : assembler.closeBlock.code = assembler.code := by
  unfold closeBlock
  split <;> rfl

/-- Adding an edge keeps the code. -/
@[simp]
theorem code_addEdge (assembler : Assembler) (successor : Label) :
    (assembler.addEdge successor).code = assembler.code := by
  unfold addEdge
  split <;> rfl

/-- Opening a block keeps the code. -/
@[simp]
theorem code_startBlock (assembler : Assembler) (label : Label) :
    (assembler.startBlock label).code = assembler.code := by
  unfold startBlock
  split <;> simp [openAt]

/-- Ending a block with the return from a subroutine keeps the code. -/
@[simp]
theorem code_endSubroutine (assembler : Assembler) :
    assembler.endSubroutine.code = assembler.code := by
  unfold endSubroutine
  split <;> simp [update]

/-- Closing the open block keeps the settings. -/
@[simp]
theorem settings_closeBlock (assembler : Assembler) :
    assembler.closeBlock.settings = assembler.settings := by
  unfold closeBlock
  split <;> rfl

/-- Adding an edge keeps the settings. -/
@[simp]
theorem settings_addEdge (assembler : Assembler) (successor : Label) :
    (assembler.addEdge successor).settings = assembler.settings := by
  unfold addEdge
  split <;> rfl

/-- Opening a block keeps the settings. -/
@[simp]
theorem settings_startBlock (assembler : Assembler) (label : Label) :
    (assembler.startBlock label).settings = assembler.settings := by
  unfold startBlock
  split <;> simp [openAt]

/-- Ending a block with the return from a subroutine keeps the settings. -/
@[simp]
theorem settings_endSubroutine (assembler : Assembler) :
    assembler.endSubroutine.settings = assembler.settings := by
  unfold endSubroutine
  split <;> simp [update]

/-- Placing a label takes no bytes away. -/
theorem grows_place (label : Label) : Grows (place label) := by
  refine .bind NoLonger.refl fun node => .bind NoLonger.refl
    fun offset => .bind ?_ fun placed => .bind NoLonger.refl fun _ =>
      .bind NoLonger.refl fun _ => .bind NoLonger.refl fun _ => ?_
  · exact grows_onCode fun code => Nat.le_of_eq (Buffer.keepsSize_place node offset code).symm
  · split
    · exact NoLonger.refl
    · exact grows_of_code (code_startBlock · label) (settings_startBlock · label)

/-- Writing the distance to a label takes no bytes away. -/
theorem grows_refer (target : Label) (source : Nat) (width : Width) :
    Grows (refer target source width) := by
  have longer (node : Node) (code : Buffer) :
      code.size ≤ ((node.refer source width).run code).state.size := by
    unfold Node.refer
    cases node.placement with
    | pending ledger => simp [Ledger.refer]
    | placed offset =>
      by_cases fits : width.Fits (Offset.distance offset source) <;> simp [fits]
  exact .bind NoLonger.refl fun node =>
    .bind (grows_onCode (longer node)) fun _ => NoLonger.refl

/-- Writing a jump in its form takes no bytes away. -/
theorem grows_emitJump (form : JumpForm) (target : Label) : Grows (emitJump form target) := by
  cases form with
  | plain opcode width =>
    exact .bind NoLonger.refl fun source => .bind (grows_append [opcode]) fun _ =>
      grows_refer target source width
  | inverted inverse =>
    exact .bind (grows_append _) fun _ => .bind NoLonger.refl fun source =>
      .bind (grows_append [Opcode.gotoWide]) fun _ => grows_refer target source .wide

/-- Ending a block with a call takes no bytes away. -/
theorem grows_call (block : OpenBlock) (entry : Label) : Grows (call block entry) :=
  .bind NoLonger.refl fun _ => .bind NoLonger.refl fun _ => .bind NoLonger.refl
    fun _ => .bind NoLonger.refl fun _ =>
      .bind (grows_of_code (fun _ => rfl) fun _ => rfl) grows_place

/-- Ending a block with a jump takes no bytes away. -/
theorem grows_branch (base : Opcode) (target : Label) (nextIsTarget : Bool) :
    Grows (branch base target nextIsTarget) := by
  refine .bind NoLonger.refl fun _ =>
    .bind (grows_of_code (code_addEdge · target) (settings_addEdge · target)) fun _ => ?_
  split
  · exact grows_of_code code_closeBlock settings_closeBlock
  · exact .bind (grows_of_code (fun _ => rfl) fun _ => rfl) grows_place

/-- Ending the open block with a jump that is written takes no bytes away. -/
theorem grows_endJump (opcode : Opcode) (source : Nat) (form : JumpForm) (target : Label) :
    Grows (do
      Action.report (.jump opcode source target)
      match ← Action.inspect Assembler.openBlock with
      | none => pure ()
      | some block =>
        if opcode.base = Opcode.jsr then call block target
        else branch opcode.base target (form matches .inverted _)) := by
  refine .bind NoLonger.refl fun _ => .bind NoLonger.refl fun found => ?_
  split
  · exact NoLonger.refl
  · split
    · exact grows_call _ target
    · exact grows_branch _ target _

/-- A jump takes no bytes away. -/
theorem grows_jump (opcode : Opcode) (target : Label) : Grows (jump opcode target) := by
  by_cases jumps : opcode.isJump = true
  · simp only [jump, jumps, if_true]
    refine .bind (grows_onGraph _) fun _ => .bind NoLonger.refl fun source =>
      .bind NoLonger.refl fun node => ?_
    split
    · exact .bind (grows_emitJump _ target) fun _ => grows_endJump opcode source _ target
    · exact NoLonger.refl
  · simp only [jump, jumps]
    exact NoLonger.refl

/-- Ending a block with a switch takes no bytes away. -/
theorem grows_endSwitch (targets : List Label) : Grows (endSwitch targets) :=
  .bind NoLonger.refl fun _ => .bind (.forEach targets fun target _ =>
    .bind (grows_onGraph _) fun _ =>
      grows_of_code (code_addEdge · target) (settings_addEdge · target)) fun _ =>
        grows_of_code code_closeBlock settings_closeBlock

/-- The opcode of a switch and the distance to its fallback take no bytes away. -/
theorem grows_beginSwitch (opcode : Opcode) (fallback : Label) :
    Grows (beginSwitch opcode fallback) := by
  refine .bind NoLonger.refl fun source => .bind (grows_append [opcode]) fun _ =>
    .bind ?_ fun _ => .bind (grows_refer fallback source .wide) fun _ => NoLonger.refl
  intro assembler
  simp [NoLonger, Buffer.align]

/-- Every operation takes no bytes away. -/
theorem grows_perform (operation : Operation) : Grows operation.perform := by
  have unlabelled {action : Action Assembler Unit} (grows : Grows action) :
      Grows (Operation.withoutLabel action) := .bind grows fun _ => NoLonger.refl
  cases operation with
  | freshLabel => exact grows_of_code (fun _ => rfl) fun _ => rfl
  | freshDebugLabel => exact grows_of_code (fun _ => rfl) fun _ => rfl
  | place label => exact unlabelled (grows_place label)
  | instruction bytes delta =>
    cases bytes with
    | nil => exact unlabelled NoLonger.refl
    | cons opcode rest =>
      refine unlabelled ?_
      by_cases refused : needsOwnOperation opcode = true
      · simp only [Assembler.instruction, refused, if_true]
        exact NoLonger.refl
      · simp only [Assembler.instruction, refused]
        refine .bind (grows_append (opcode :: rest)) fun _ => ?_
        split
        · exact grows_of_code code_closeBlock settings_closeBlock
        · exact NoLonger.refl
  | localInstruction instruction =>
    refine unlabelled (.bind (grows_append _) fun _ => .bind NoLonger.refl fun _ => ?_)
    split
    · exact grows_of_code code_endSubroutine settings_endSubroutine
    · exact NoLonger.refl
  | jump opcode target => exact unlabelled (grows_jump opcode target)
  | tableSwitch low high fallback targets =>
    exact unlabelled (.bind (grows_beginSwitch _ fallback) fun source =>
      .bind (grows_append _) fun _ => .bind (grows_append _) fun _ =>
        .bind (.forEach targets fun target _ => grows_refer target source .wide) fun _ =>
          grows_endSwitch _)
  | lookupSwitch fallback cases =>
    exact unlabelled (.bind (grows_beginSwitch _ fallback) fun source =>
      .bind (grows_append _) fun _ =>
        .bind (.forEach _ fun one _ => .bind (grows_append _) fun _ =>
          grows_refer one.target source .wide) fun _ => grows_endSwitch _)
  | addLine label line =>
    exact unlabelled (.bind NoLonger.refl fun _ => .bind NoLonger.refl fun _ => NoLonger.refl)
  | addHandler handler =>
    exact unlabelled (.bind (grows_onGraph _) fun _ => .bind (grows_onGraph _) fun _ =>
      .bind (grows_onGraph _) fun _ => NoLonger.refl)
  | declare maxima => exact unlabelled NoLonger.refl

/-- A run takes no bytes away. -/
theorem noLonger_afterAll (assembler : Assembler) (operations : List Operation) :
    NoLonger assembler (assembler.afterAll operations) := by
  induction operations generalizing assembler with
  | nil => exact NoLonger.refl assembler
  | cons operation rest ih =>
    exact NoLonger.trans _ _ _ (grows_perform operation assembler) (ih _)

/-- Code only grows during a run. -/
theorem size_le_afterAll (assembler : Assembler) (operations : List Operation) :
    assembler.code.size ≤ (assembler.afterAll operations).code.size :=
  (noLonger_afterAll assembler operations).1

/-- A run keeps the settings. -/
theorem settings_afterAll (assembler : Assembler) (operations : List Operation) :
    (assembler.afterAll operations).settings = assembler.settings :=
  (noLonger_afterAll assembler operations).2

end Assembler

end MethodBody
