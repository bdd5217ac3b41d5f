import MethodBody.Proofs.Patching
import MethodBody.Proofs.Placing

/-!
# No byte waits for two labels

What is written for a reference when its label is placed covers the operand and, if the operand is
narrow, the opcode in front of it. At every point of a run, whatever failed before, all this lies in
the code, and no byte of it is covered for another label as well (`unshared_afterAll`): a reference
is noted when its operand is written, behind everything that waited before.
-/

namespace MethodBody

/-- The references that wait for the offset of a label. -/
def waitingFor (placement? : Label → Option Placement) (label : Label) : List Reference :=
  (placement? label).elim [] Placement.waiting

/-- Nothing waits for the offset of a label that has one. -/
theorem waitingFor_of_placed {placement? : Label → Option Placement} {label : Label} {offset : Nat}
    (placed : placement? label = some (.placed offset)) : waitingFor placement? label = [] := by
  rw [waitingFor, placed]
  rfl

/-- The references of a ledger wait for the offset of its label. -/
theorem waitingFor_of_pending {placement? : Label → Option Placement} {label : Label}
    {ledger : Ledger} (pending : placement? label = some (.pending ledger)) :
    waitingFor placement? label = ledger.toList := by
  rw [waitingFor, pending]
  rfl

/-- All bytes that references cover lie in the code, and none is covered for two labels. -/
structure Unshared (code : Buffer) (placement? : Label → Option Placement) : Prop where
  /-- A byte that is covered lies in the code. -/
  inside : ∀ label, ∀ reference ∈ waitingFor placement? label, ∀ index, reference.Covers index →
    index < code.size
  /-- A byte is covered for one label at most. -/
  apart : ∀ label other, label ≠ other → ∀ first ∈ waitingFor placement? label,
    ∀ second ∈ waitingFor placement? other, ∀ index, first.Covers index → ¬ second.Covers index

namespace Unshared

variable {code longer : Buffer} {placement? later? : Label → Option Placement}

/-- The operand of a reference that waits lies in the code. -/
theorem inside_of_mem (unshared : Unshared code placement?) {label : Label} {reference : Reference}
    (waits : reference ∈ waitingFor placement? label) : reference.Inside code := by
  have positive : 0 < reference.width.size := by cases reference.width <;> decide
  have last : reference.Covers (reference.site + reference.width.size - 1) := .inl (by omega)
  have bound := unshared.inside label reference waits _ last
  unfold Reference.Inside
  omega

/-- Longer code with fewer references that wait. -/
theorem mono (unshared : Unshared code placement?) (size : code.size ≤ longer.size)
    (fewer : ∀ label, waitingFor later? label ⊆ waitingFor placement? label) :
    Unshared longer later? where
  inside label reference waits index covers :=
    Nat.lt_of_lt_of_le (unshared.inside label reference (fewer label waits) index covers) size
  apart label other different first isFirst second isSecond :=
    unshared.apart label other different first (fewer label isFirst) second (fewer other isSecond)

/-- Longer code with one more reference, which covers bytes that are new. -/
theorem add (unshared : Unshared code placement?) (target : Label) (added : Reference)
    (size : code.size ≤ longer.size)
    (more : ∀ label, ∀ reference ∈ waitingFor later? label,
      reference ∈ waitingFor placement? label ∨ (label = target ∧ reference = added))
    (fresh : ∀ index, added.Covers index → code.size ≤ index ∧ index < longer.size) :
    Unshared longer later? where
  inside label reference waits index covers := by
    rcases more label reference waits with before | ⟨-, rfl⟩
    · exact Nat.lt_of_lt_of_le (unshared.inside label reference before index covers) size
    · exact (fresh index covers).2
  apart label other different first isFirst second isSecond index covers coversToo := by
    rcases more label first isFirst with before | ⟨rfl, rfl⟩
    · have old := unshared.inside label first before index covers
      rcases more other second isSecond with beforeToo | ⟨-, rfl⟩
      · exact unshared.apart label other different first before second beforeToo
          index covers coversToo
      · have new := fresh index coversToo
        omega
    · have new := fresh index covers
      rcases more other second isSecond with before | ⟨same, -⟩
      · have old := unshared.inside other second before index coversToo
        omega
      · exact different same.symm

end Unshared

namespace Assembler

/-- No byte of the code is covered for two labels. -/
def Unshared (assembler : Assembler) : Prop :=
  MethodBody.Unshared assembler.code assembler.graph.placement?

/-- No byte is covered for two labels afterwards, if none was before. -/
def SharesNothing (before after : Assembler) : Prop := before.Unshared → after.Unshared

instance : IsPreorder Assembler SharesNothing where
  refl _ := id
  trans _ _ _ first second := second ∘ first

variable {assembler after : Assembler} {α : Type}

namespace Unshared

/-- Longer code with the same placements. -/
theorem congr (unshared : assembler.Unshared) (size : assembler.code.size ≤ after.code.size)
    (same : after.graph.placement? = assembler.graph.placement?) : after.Unshared := by
  refine unshared.mono size ?_
  rw [same]
  exact fun _ => List.Subset.refl _

/-- The distance to a label behind bytes that have just been written. A narrow one belongs to the
opcode right in front of it. -/
theorem refers (unshared : assembler.Unshared) (bytes : List UInt8) (target : Label) {source : Nat}
    {width : Width} (narrow : width = .narrow → source = assembler.code.size ∧ bytes ≠ []) :
    ((assembler.append bytes).refers target source width).Unshared := by
  have cursor : (assembler.append bytes).code.cursor = assembler.code.size + bytes.length :=
    Buffer.size_append _ _
  have size : ((assembler.append bytes).refers target source width).code.size
      = assembler.code.size + bytes.length + width.size :=
    (size_refers _ target source width).trans (congrArg (· + width.size) cursor)
  refine unshared.add target ⟨source, width, (assembler.append bytes).code.cursor⟩ (by omega) ?_ ?_
  · intro label reference waits
    rw [waitingFor, placement?_refers] at waits
    have same : (assembler.append bytes).graph.placement? label
        = assembler.graph.placement? label :=
      rfl
    rw [same] at waits
    rw [waitingFor]
    cases placement : assembler.graph.placement? label with
    | none => simp [placement] at waits
    | some before =>
      cases before with
      | placed offset => simp [placement, Placement.push, Placement.waiting] at waits
      | pending ledger =>
        by_cases here : target = label
        · simp only [placement, here, if_true, Option.map_some, Placement.push, Option.elim_some,
            Placement.waiting, Ledger.toList_push, List.mem_append, List.mem_singleton] at waits
          rcases waits with old | new
          · exact .inl old
          · exact .inr ⟨here.symm, new⟩
        · left
          simpa [placement, here, Placement.push, Placement.waiting] using waits
  · intro index covers
    rw [size]
    rcases covers with operand | ⟨isNarrow, opcode⟩
    · simp only [cursor] at operand
      omega
    · obtain ⟨start, some⟩ := narrow isNarrow
      have positive := List.length_pos_of_ne_nil some
      simp only at opcode
      omega

/-- Nothing waits for a label that has been settled, and the others wait as before. -/
theorem settle (unshared : assembler.Unshared) {label : Label} {node : Node} {code : Buffer}
    (known : assembler.graph.node? label = some node) (size : code.size = assembler.code.size)
    (rewritten : Bool) : (assembler.settle label node code rewritten).Unshared := by
  refine unshared.mono (Nat.le_of_eq size.symm) fun other => ?_
  have placement := placement?_settle known code rewritten other
  by_cases here : label = other
  · rw [if_pos here] at placement
    rw [waitingFor_of_placed placement]
    exact List.nil_subset _
  · rw [if_neg here] at placement
    rw [waitingFor, placement]
    exact List.Subset.refl _

/-- Nothing waits for a label that has just been created. -/
theorem create (unshared : assembler.Unshared) (flags : Flags) :
    { assembler with graph := assembler.graph.create flags }.Unshared := by
  refine unshared.mono (Nat.le_refl _) fun label => ?_
  simp only [waitingFor, FlowGraph.placement?, FlowGraph.node?_create]
  split
  · exact List.nil_subset _
  · exact List.Subset.refl _

/-- Opening a block keeps what waits. -/
theorem startBlock (unshared : assembler.Unshared) (label : Label) :
    (assembler.startBlock label).Unshared :=
  unshared.congr (Nat.le_of_eq (congrArg Buffer.size (code_startBlock _ _)).symm)
    (placement?_startBlock _ _)

/-- Going on with a block at a label of its own keeps what waits. -/
theorem goesOn (unshared : assembler.Unshared) (flags : Flags) :
    (assembler.goesOn flags).Unshared := by
  have known : (assembler.graph.create flags).node? assembler.graph.nextLabel
      = some { label := assembler.graph.nextLabel, flags } := by
    simp [FlowGraph.node?_create]
  exact ((unshared.create flags).settle known rfl false).startBlock _

end Unshared

/-- What keeps the text keeps what waits. -/
theorem sharesNothing_of_keepsText {action : Action Assembler α} (same : KeepsText action) :
    Action.Follows SharesNothing action :=
  fun assembler unshared =>
    unshared.congr (Nat.le_of_eq (congrArg Buffer.size (same assembler).1).symm) (same assembler).2

/-- Bytes that are appended are not waited for. -/
theorem sharesNothing_append (bytes : List UInt8) :
    Action.Follows SharesNothing (modify fun assembler => assembler.append bytes) :=
  fun _ unshared => unshared.congr (by simp [append]) rfl

/-- The distance to a label behind bytes that are written for it. -/
theorem Unshared.refer (unshared : assembler.Unshared) (bytes : List UInt8) (target : Label)
    {source : Nat} {width : Width}
    (narrow : width = .narrow → source = assembler.code.size ∧ bytes ≠ []) :
    ((Assembler.refer target source width).run (assembler.append bytes)).state.Unshared := by
  rcases state_refer (assembler.append bytes) target source width with referred | same
  · rw [referred]
    exact unshared.refers bytes target narrow
  · rw [same]
    exact unshared.congr (by simp [append]) rfl

/-- A wide distance to a label. -/
theorem sharesNothing_refer (target : Label) (source : Nat) :
    Action.Follows SharesNothing (refer target source .wide) := by
  intro assembler unshared
  have written : ((refer target source .wide).run (assembler.append [])).state.Unshared :=
    unshared.refer [] target (by simp)
  have nothing : assembler.append [] = assembler := by simp [append]
  rwa [nothing] at written

/-- A jump is written with the opcode in front of its operand. -/
theorem sharesNothing_emitJump (form : JumpForm) (target : Label) :
    Action.Follows SharesNothing (emitJump form target) := by
  intro assembler unshared
  cases form with
  | plain opcode width =>
    have written : ((refer target assembler.code.size width).run
        (assembler.append [opcode])).state.Unshared :=
      unshared.refer [opcode] target fun _ => ⟨rfl, List.cons_ne_nil _ _⟩
    simpa [emitJump, cursor, Buffer.cursor] using written
  | inverted inverse =>
    let before := assembler.append (inverse :: Width.narrow.operand 8)
    have opened : before.Unshared := sharesNothing_append _ assembler unshared
    have written : ((refer target before.code.size .wide).run
        (before.append [Opcode.gotoWide])).state.Unshared :=
      opened.refer [Opcode.gotoWide] target (by simp)
    simpa [emitJump, cursor, Buffer.cursor, before] using written

/-- Placing a label leaves nothing that waits for it. -/
theorem sharesNothing_place (label : Label) : Action.Follows SharesNothing (place label) := by
  intro assembler unshared
  cases known : assembler.graph.node? label with
  | none => simpa [place, getNode, FlowGraph.node, known] using unshared
  | some node =>
    cases placement : node.placement with
    | placed offset => rwa [run_place_of_placed known placement]
    | pending ledger =>
      have size := Buffer.keepsSize_resolve ledger assembler.code.cursor assembler.code
      cases resolved : (ledger.resolve assembler.code.cursor).run assembler.code with
      | mk answer code events =>
      rw [resolved] at size
      cases answer with
      | error cause =>
        rw [run_place_of_error known placement resolved]
        exact unshared.congr (Nat.le_of_eq size.symm) rfl
      | ok rewritten =>
        rw [run_place_of_ok known placement resolved]
        have settled := unshared.settle known size rewritten
        unfold placed
        split
        · exact settled
        · exact settled.startBlock label

/-- Changing anything but the placement of a label keeps what waits. -/
theorem Unshared.update (unshared : assembler.Unshared) (label : Label) (change : Node → Node)
    (same : ∀ node, (change node).placement = node.placement) :
    (assembler.update label change).Unshared :=
  unshared.congr (Nat.le_refl _) (FlowGraph.placement?_update same assembler.graph label)

/-- A call leaves nothing that waits for its continuation. -/
theorem Unshared.calls (unshared : assembler.Unshared) (block : OpenBlock) (entry : Label) :
    (assembler.calls block entry).Unshared := by
  have called : { assembler with callsSubroutines := true }.Unshared :=
    unshared.congr (Nat.le_refl _) rfl
  have entered := called.update entry (fun node =>
    { node with flags.startsSubroutine := true }) fun _ => rfl
  have left := entered.update block.label (fun node =>
    { node with flags.callsSubroutine := true }) fun _ => rfl
  have linked := left.update block.label
    (fun node => node.prepend ⟨.jump (block.height + 1), entry⟩) fun _ => rfl
  exact linked.goesOn {}

/-- A jump that is no call leaves nothing that waits for its continuation. -/
theorem Unshared.branches (unshared : assembler.Unshared) (base : Opcode) (target : Label)
    (nextIsTarget : Bool) : (assembler.branches base target nextIsTarget).Unshared := by
  have adjusted : (assembler.adjust base.jumpDelta).Unshared := unshared.congr (Nat.le_refl _) rfl
  have linked := sharesNothing_of_keepsText (keepsText_addEdge target) _ adjusted
  unfold Assembler.branches
  simp only
  split
  · exact sharesNothing_of_keepsText keepsText_closeBlock _ linked
  · exact linked.goesOn _

/-- A jump keeps the bytes apart, also when it fails. -/
theorem sharesNothing_jump (opcode : Opcode) (target : Label) :
    Action.Follows SharesNothing (jump opcode target) := by
  by_cases jumps : opcode.isJump = true
  · simp only [jump, jumps, if_true]
    refine .bind (sharesNothing_of_keepsText (keepsText_markTarget target)) fun _ =>
      .bind (fun _ => id) fun source => .bind (fun _ => id) fun node => ?_
    split
    · refine .bind (sharesNothing_emitJump _ target) fun _ => .bind (fun _ => id) fun _ =>
        .bind (fun _ => id) fun found => ?_
      split
      · exact fun _ => id
      · split
        · intro assembler unshared
          obtain ⟨events, called⟩ := run_call assembler _ target
          rw [called]
          exact unshared.calls _ target
        · intro assembler unshared
          obtain ⟨events, branched⟩ := run_branch assembler opcode.base target _
          rw [branched]
          exact unshared.branches _ target _
    · exact fun _ => id
  · simp only [jump, jumps]
    exact fun _ => id

/-- The head of a switch keeps the bytes apart. -/
theorem sharesNothing_beginSwitch (opcode : Opcode) (fallback : Label) :
    Action.Follows SharesNothing (beginSwitch opcode fallback) := by
  refine .bind (fun _ => id) fun source => .bind (sharesNothing_append [opcode]) fun _ =>
    .bind (fun assembler unshared => ?_) fun _ =>
      .bind (sharesNothing_refer fallback source) fun _ _ => id
  exact unshared.congr (by simp [Buffer.align]) rfl

/-- No operation makes a byte wait for two labels, also when it fails. -/
theorem sharesNothing_perform (operation : Operation) :
    Action.Follows SharesNothing operation.perform := by
  have unlabelled {action : Action Assembler Unit} (keeps : Action.Follows SharesNothing action) :
      Action.Follows SharesNothing (Operation.withoutLabel action) := .bind keeps fun _ _ => id
  cases operation with
  | freshLabel => exact fun _ unshared => unshared.create {}
  | freshDebugLabel => exact fun _ unshared => unshared.create { debugOnly := true }
  | place label => exact unlabelled (sharesNothing_place label)
  | instruction bytes delta =>
    cases bytes with
    | nil => exact unlabelled fun _ => id
    | cons opcode rest =>
      refine unlabelled ?_
      by_cases refused : needsOwnOperation opcode = true
      · simp only [Assembler.instruction, refused, if_true]
        exact fun _ => id
      · simp only [Assembler.instruction, refused]
        refine .bind (sharesNothing_append (opcode :: rest)) fun _ => ?_
        split
        · exact sharesNothing_of_keepsText keepsText_closeBlock
        · exact fun _ => id
  | localInstruction request =>
    refine unlabelled (.bind (sharesNothing_append _) fun _ => .bind (fun _ => id) fun _ => ?_)
    split
    · exact sharesNothing_of_keepsText fun assembler =>
        ⟨code_endSubroutine assembler, placement?_endSubroutine assembler⟩
    · exact fun _ => id
  | jump opcode target => exact unlabelled (sharesNothing_jump opcode target)
  | tableSwitch low high fallback targets =>
    exact unlabelled (.bind (sharesNothing_beginSwitch _ fallback) fun source =>
      .bind (sharesNothing_append _) fun _ => .bind (sharesNothing_append _) fun _ =>
        .bind (.forEach targets fun target _ => sharesNothing_refer target source) fun _ =>
          sharesNothing_of_keepsText (keepsText_endSwitch _))
  | lookupSwitch fallback cases =>
    exact unlabelled (.bind (sharesNothing_beginSwitch _ fallback) fun source =>
      .bind (sharesNothing_append _) fun _ =>
        .bind (.forEach _ fun one _ => .bind (sharesNothing_append _) fun _ =>
          sharesNothing_refer one.target source) fun _ =>
            sharesNothing_of_keepsText (keepsText_endSwitch _))
  | addLine label line =>
    exact unlabelled (sharesNothing_of_keepsText (keepsText_addLine label line))
  | addHandler handler =>
    exact unlabelled (sharesNothing_of_keepsText (keepsText_addHandler handler))
  | declare maxima => exact unlabelled fun _ => id

/-- At every point of a run, whatever failed before, all bytes that wait for labels lie in the code,
and none waits for two labels. -/
theorem unshared_afterAll (settings : Settings) (parameterSlots : UInt16)
    (operations : List Operation) :
    ((start settings parameterSlots).afterAll operations).Unshared := by
  suffices keeps : ∀ assembler : Assembler, assembler.Unshared →
      (assembler.afterAll operations).Unshared by
    refine keeps _ ?_
    have none (label : Label) :
        waitingFor (start settings parameterSlots).graph.placement? label = [] := by
      obtain ⟨index⟩ := label
      cases index <;> rfl
    constructor <;> simp [none]
  induction operations with
  | nil => exact fun _ unshared => unshared
  | cons operation rest ih =>
    exact fun assembler unshared => ih _ (sharesNothing_perform operation assembler unshared)

end Assembler

end MethodBody
