import MethodBody.Proofs.BlockOrder

/-!
# When labels get their offsets

An operation places at most one label: the one that it is asked to place, or a new one behind a jump
that may not be taken. It does so once all its bytes are written, so the label lies at the end of
the code then (`places_after`). All other operations, and all that fail, place nothing
(`Assembler.PlacesNothing`). So a label lies before the end of the code exactly if something was
written after it had been placed (`lt_size_iff`).
-/

namespace MethodBody

namespace Moment

/-- The operation writes the byte at the offset. -/
def Writes (moment : Moment) (offset : Nat) : Prop :=
  moment.before.code.size ≤ offset ∧ offset < moment.after.code.size

/-- The operation writes something behind the label, which has its place then. -/
def WritesBehind (moment : Moment) (label : Label) : Prop :=
  moment.before.code.size < moment.after.code.size ∧
    (moment.before.graph.offset? label).isSome = true

end Moment

namespace Assembler

/-- No label is placed, and no branch is filled in. -/
structure PlacesNothing (before after : Assembler) : Prop where
  /-- A label stays known. -/
  known : ∀ label, (before.graph.node? label).isSome → (after.graph.node? label).isSome
  /-- The labels have the same offsets. -/
  offsets : after.graph.offset? = before.graph.offset?
  /-- No branch is found to be too long. -/
  widening : after.needsWidening = before.needsWidening

/-- What an operation does that places a label. -/
structure Places (before : Assembler) (operation : Operation) (after : Assembler)
    (placed : Label) : Prop where
  /-- The label has no offset yet. -/
  unplaced : before.graph.offset? placed = none
  /-- The operation asks for it, or the label is new and no branch to it is filled in. -/
  asked : operation = .place placed ∨
    before.graph.node? placed = none ∧ after.needsWidening = before.needsWidening
  /-- The label is placed at the end of the code. -/
  offsets : after.graph.offset? = placing before.graph.offset? placed after.code.size

variable {assembler first second third before after : Assembler} {label : Label}

namespace PlacesNothing

/-- Nothing happens. -/
theorem refl (assembler : Assembler) : assembler.PlacesNothing assembler :=
  ⟨fun _ known => known, rfl, rfl⟩

/-- Nothing is placed in two steps. -/
theorem trans (one : first.PlacesNothing second) (two : second.PlacesNothing third) :
    first.PlacesNothing third :=
  ⟨fun label known => two.known label (one.known label known), two.offsets.trans one.offsets,
    two.widening.trans one.widening⟩

/-- Nothing happens to the labels. -/
theorem of_graph (graph : after.graph = before.graph)
    (widening : after.needsWidening = before.needsWidening) : before.PlacesNothing after :=
  ⟨fun _ known => by rw [graph]; exact known, by rw [graph], widening⟩

/-- A label changes, but not its offset. -/
theorem update (assembler : Assembler) (label : Label) {change : Node → Node}
    (same : ∀ node, (change node).offset? = node.offset?) :
    assembler.PlacesNothing (assembler.update label change) where
  known other known := by
    rw [Assembler.update, FlowGraph.isSome_node?_update]
    exact known
  offsets := FlowGraph.offset?_update_eq same _ label
  widening := rfl

/-- A label is created. -/
theorem create (assembler : Assembler) (flags : Flags) :
    assembler.PlacesNothing { assembler with graph := assembler.graph.create flags } where
  known label known := by
    rw [FlowGraph.node?_create]
    split
    · rfl
    · exact known
  offsets := FlowGraph.offset?_create _ flags
  widening := rfl

/-- Bytes are written. -/
theorem append (assembler : Assembler) (bytes : List UInt8) :
    assembler.PlacesNothing (assembler.append bytes) := of_graph rfl rfl

/-- The stack height changes. -/
theorem adjust (assembler : Assembler) (delta : Int32) :
    assembler.PlacesNothing (assembler.adjust delta) := of_graph rfl rfl

/-- The distance to a label is written. -/
theorem refers (assembler : Assembler) (target : Label) (source : Nat) (width : Width) :
    assembler.PlacesNothing (assembler.refers target source width) :=
  (append assembler _).trans (update _ target fun node => Node.offset?_referred node _)

/-- The distances to several labels are written. -/
theorem refersAll (assembler : Assembler) (targets : List Label) (source : Nat) :
    assembler.PlacesNothing (assembler.refersAll targets source) := by
  induction targets generalizing assembler with
  | nil => exact refl assembler
  | cons target rest ih => exact (refers assembler target source .wide).trans (ih _)

/-- A jump is written. -/
theorem emits (assembler : Assembler) (target : Label) (form : JumpForm) :
    assembler.PlacesNothing (assembler.emits target form) := by
  cases form with
  | plain opcode width => exact (append assembler [opcode]).trans (refers _ _ _ _)
  | inverted inverse =>
    exact (append assembler _).trans ((append _ [Opcode.gotoWide]).trans (refers _ _ _ _))

/-- The head of a switch is written. -/
theorem beginsSwitch (assembler : Assembler) (opcode : Opcode) (fallback : Label) :
    assembler.PlacesNothing (assembler.beginsSwitch opcode fallback) := by
  have headed : assembler.PlacesNothing (assembler.append [opcode]).aligned := of_graph rfl rfl
  exact headed.trans (refers _ _ _ _)

/-- A switch over consecutive keys is written. -/
theorem emitsTable (assembler : Assembler) (low high : Int32) (fallback : Label)
    (targets : List Label) :
    assembler.PlacesNothing (assembler.emitsTable low high fallback targets) :=
  (beginsSwitch assembler _ fallback).trans ((append _ _).trans
    ((append _ _).trans (refersAll _ targets _)))

/-- A switch over any keys is written. -/
theorem emitsLookup (assembler : Assembler) (fallback : Label) (cases : List Case) :
    assembler.PlacesNothing (assembler.emitsLookup fallback cases) := by
  have written (before : Assembler) (rest : List Case) (source : Nat) :
      before.PlacesNothing (rest.foldl (fun after one => after.emitsCase source one) before) := by
    induction rest generalizing before with
    | nil => exact refl before
    | cons one rest ih =>
      exact (append before _).trans ((refers _ one.target source .wide).trans (ih _))
  exact (beginsSwitch assembler _ fallback).trans ((append _ _).trans (written _ cases _))

/-- A label is marked as a target. -/
theorem marked (assembler : Assembler) (label : Label) :
    assembler.PlacesNothing (assembler.update label Node.marked) :=
  update assembler label fun _ => rfl

/-- A label is marked as a bound. -/
theorem bounded (assembler : Assembler) (label : Label) :
    assembler.PlacesNothing (assembler.update label Node.bounded) := by
  refine update assembler label fun node => ?_
  unfold Node.bounded
  split <;> rfl

/-- The open block gets an edge. -/
theorem addEdge (assembler : Assembler) (successor : Label) :
    assembler.PlacesNothing (assembler.addEdge successor) := by
  unfold Assembler.addEdge
  split
  · exact refl assembler
  · exact update assembler _ fun _ => rfl

/-- The open block is closed. -/
theorem closeBlock (assembler : Assembler) : assembler.PlacesNothing assembler.closeBlock := by
  unfold Assembler.closeBlock
  split
  · exact refl assembler
  · rename_i block _
    have measured : assembler.PlacesNothing (assembler.update block.label fun node =>
        { node with outputHeight := block.height, peakHeight := block.peak }) :=
      update assembler block.label fun _ => rfl
    exact measured.trans (of_graph rfl rfl)

/-- The open block is closed with a return from a subroutine. -/
theorem endSubroutine (assembler : Assembler) :
    assembler.PlacesNothing assembler.endSubroutine := by
  unfold Assembler.endSubroutine
  split
  · exact refl assembler
  · exact (closeBlock assembler).trans (update _ _ fun _ => rfl)

/-- A block starts. -/
theorem startBlock (assembler : Assembler) (label : Label) :
    assembler.PlacesNothing (assembler.startBlock label) := by
  have opens (before : Assembler) (isFallenInto : Bool) :
      before.PlacesNothing (before.openAt label isFallenInto) := ⟨fun _ known => known, rfl, rfl⟩
  unfold Assembler.startBlock
  split
  · exact opens assembler false
  · exact ((addEdge assembler label).trans (closeBlock _)).trans (opens _ true)

/-- The block ends with a call. -/
theorem calls (assembler : Assembler) (block : OpenBlock) (entry : Label) :
    assembler.PlacesNothing ((assembler.enters entry).leavesTo block entry) := by
  have called : assembler.PlacesNothing { assembler with callsSubroutines := true } :=
    of_graph rfl rfl
  have entered : assembler.PlacesNothing (assembler.enters entry) :=
    called.trans (update _ entry fun _ => rfl)
  have flagged : assembler.PlacesNothing ((assembler.enters entry).update block.label fun node =>
      { node with flags.callsSubroutine := true }) :=
    entered.trans (update _ block.label fun _ => rfl)
  have linked (before : Assembler) : before.PlacesNothing (before.update block.label
      (·.prepend ⟨.jump (block.height + 1), entry⟩)) := update before block.label fun _ => rfl
  exact flagged.trans (linked _)

/-- Control is led to labels. -/
theorem leadsTo (assembler : Assembler) (targets : List Label) :
    assembler.PlacesNothing (assembler.leadsTo targets) := by
  induction targets generalizing assembler with
  | nil => exact refl assembler
  | cons target rest ih => exact ((marked assembler target).trans (addEdge _ target)).trans (ih _)

/-- The open block ends with a switch. -/
theorem switches (assembler : Assembler) (targets : List Label) :
    assembler.PlacesNothing (assembler.switches targets) :=
  ((adjust assembler (-1)).trans (leadsTo _ targets)).trans (closeBlock _)

/-- An instruction that does not jump is written. -/
theorem writesPlain (assembler : Assembler) (opcode : Opcode) (rest : List UInt8) (delta : Int32) :
    assembler.PlacesNothing (assembler.writesPlain opcode rest delta) := by
  have written : assembler.PlacesNothing ((assembler.append (opcode :: rest)).adjust delta) :=
    of_graph rfl rfl
  unfold Assembler.writesPlain
  simp only
  split
  · exact written.trans (closeBlock _)
  · exact written

/-- An instruction on a local variable is written. -/
theorem writesLocal (assembler : Assembler) (request : LocalInstruction) :
    assembler.PlacesNothing (assembler.writesLocal request) := by
  have written : assembler.PlacesNothing (((assembler.append request.encode).adjust
      request.delta).needLocals request.localsNeeded) := of_graph rfl rfl
  cases request with
  | ret slot => exact written.trans (endSubroutine _)
  | _ => exact written

/-- Blocks are protected. -/
theorem protects (assembler : Assembler) (handler : Handler) :
    assembler.PlacesNothing (assembler.protects handler) := by
  have marks := ((bounded assembler handler.start).trans (bounded _ handler.stop)).trans
    (marked _ handler.handler)
  exact marks.trans (of_graph rfl rfl)

/-- What an operation leaves behind before it fails places nothing. -/
theorem of_lingers (lingers : before.Lingers after) : before.PlacesNothing after := by
  induction lingers with
  | refl => exact refl before
  | @tail middle last _ leaves ih =>
    refine ih.trans ?_
    cases leaves with
    | code => exact of_graph rfl rfl
    | refers target source width => exact refers middle target source width
    | marks => exact marked middle _
    | bounds label => exact bounded middle label
    | adjusts => exact of_graph rfl rfl
    | links => exact addEdge middle _

/-- A label that is placed after steps that place nothing is placed by all of them. -/
theorem places (nothing : first.PlacesNothing second) {operation : Operation}
    (places : second.Places operation third label) : first.Places operation third label where
  unplaced := by
    rw [← nothing.offsets]
    exact places.unplaced
  asked := places.asked.imp_right fun ⟨fresh, widening⟩ => by
    refine ⟨?_, widening.trans nothing.widening⟩
    by_contra known
    have still := nothing.known label (Option.isSome_iff_ne_none.mpr known)
    simp [fresh] at still
  offsets := by rw [places.offsets, nothing.offsets]

end PlacesNothing

namespace Places

variable {operation : Operation}

/-- A block that starts behind a label that is placed changes nothing about that. -/
theorem startBlock (places : before.Places operation after label) (block : Label) :
    before.Places operation (after.startBlock block) label where
  unplaced := places.unplaced
  asked := places.asked.imp_right fun ⟨fresh, widening⟩ =>
    ⟨fresh, (PlacesNothing.startBlock after block).widening.trans widening⟩
  offsets := by
    rw [offset?_startBlock, code_startBlock]
    exact places.offsets

/-- A label is given its offset. -/
theorem settle (assembler : Assembler) {node : Node}
    (known : assembler.graph.node? label = some node) (unplaced : node.isPlaced = false)
    {code : Buffer} (size : code.size = assembler.code.size) (rewritten : Bool) :
    assembler.Places (.place label) (assembler.settle label node code rewritten) label where
  unplaced := by simpa [FlowGraph.offset?, known, Node.isPlaced] using unplaced
  asked := .inl rfl
  offsets := by
    funext other
    simp only [Assembler.settle, FlowGraph.offset?, FlowGraph.node?_update, placing, size]
    by_cases same : label = other
    · subst same
      simp [known, Node.offset?, Buffer.cursor]
    · simp [same, Ne.symm same]

/-- A label is placed. -/
theorem placed (assembler : Assembler) {node : Node}
    (known : assembler.graph.node? label = some node) (unplaced : node.isPlaced = false)
    {code : Buffer} (size : code.size = assembler.code.size) (rewritten : Bool) :
    assembler.Places (.place label) (assembler.placed label node code rewritten) label := by
  have settled := settle assembler known unplaced size rewritten
  unfold Assembler.placed
  simp only
  split
  · exact settled
  · exact settled.startBlock label

/-- A block at a label of its own starts. -/
theorem goesOn (assembler : Assembler) (operation : Operation) (flags : Flags) :
    assembler.Places operation (assembler.goesOn flags) assembler.graph.nextLabel := by
  have known : (assembler.graph.create flags).node? assembler.graph.nextLabel
      = some { label := assembler.graph.nextLabel, flags } := by
    simp [FlowGraph.node?_create]
  have settled :=
    settle { assembler with graph := assembler.graph.create flags } known rfl rfl false
  refine startBlock ⟨?_, .inr ⟨?_, ?_⟩, ?_⟩ assembler.graph.nextLabel
  · simp [FlowGraph.offset?]
  · exact assembler.graph.node?_nextLabel
  · simp [Assembler.settle]
  · rw [settled.offsets, FlowGraph.offset?_create]

end Places

/-- Nothing is placed, or one label is. -/
def PlacesAtMost (before : Assembler) (operation : Operation) (after : Assembler) : Prop :=
  before.PlacesNothing after ∨ ∃ label, before.Places operation after label

/-- A jump places a label at most if control can go on behind it. -/
theorem placesAtMost_jumps (assembler : Assembler) (operation : Operation) (opcode : Opcode)
    (form : JumpForm) (target : Label) :
    assembler.PlacesAtMost operation (assembler.jumps opcode form target) := by
  have written := PlacesNothing.emits assembler target form
  unfold jumps
  simp only
  split
  · exact .inl written
  · rename_i block _
    split
    · exact .inr ⟨_, (written.trans (.calls _ block target)).places (.goesOn _ operation {})⟩
    · unfold branches
      have linked := (written.trans (.adjust _ opcode.base.jumpDelta)).trans (.addEdge _ target)
      simp only
      split
      · exact .inl (linked.trans (.closeBlock _))
      · exact .inr ⟨_, linked.places (.goesOn _ operation _)⟩

/-- Each operation places at most one label, whether it fails or not. -/
theorem places_after (assembler : Assembler) (operation : Operation) :
    assembler.PlacesAtMost operation (assembler.after operation) := by
  rcases performs_or_lingers assembler operation with performs | lingers
  · generalize assembler.after operation = after at performs
    cases performs with
    | freshLabel => exact .inl (.create assembler {})
    | freshDebugLabel => exact .inl (.create assembler { debugOnly := true })
    | @place label node code rewritten known unplaced size =>
      exact .inr ⟨label, .placed assembler known unplaced size rewritten⟩
    | nothing => exact .inl (.refl assembler)
    | @instruction opcode rest delta => exact .inl (.writesPlain assembler opcode rest delta)
    | @localInstruction request => exact .inl (.writesLocal assembler request)
    | @jump opcode target node form =>
      have mark := PlacesNothing.marked assembler target
      rcases placesAtMost_jumps (assembler.update target Node.marked)
        (.jump opcode target) opcode form
        target with nothing | ⟨placed, places⟩
      · exact .inl (mark.trans nothing)
      · exact .inr ⟨placed, mark.places places⟩
    | @tableSwitch low high fallback targets =>
      exact .inl
        ((PlacesNothing.emitsTable assembler low high fallback targets).trans (.switches _ _))
    | @lookupSwitch fallback cases =>
      exact .inl ((PlacesNothing.emitsLookup assembler fallback _).trans (.switches _ _))
    | @addLine label line =>
      have attached : assembler.PlacesNothing (assembler.update label (·.addLine line)) :=
        .update assembler label fun _ => rfl
      exact .inl (attached.trans (.of_graph rfl rfl))
    | @addHandler handler => exact .inl (.protects assembler handler)
    | declare => exact .inl (.of_graph rfl rfl)
  · exact .inl (.of_lingers lingers)

section History

variable {operations : List Operation} {moment : Moment} {offset : Nat}

/-- A run without operations leaves everything as it is. -/
theorem afterAll_nil (assembler : Assembler) : assembler.afterAll [] = assembler := rfl

/-- A run begins with its first operation. -/
theorem afterAll_cons (assembler : Assembler) (operation : Operation) (rest : List Operation) :
    assembler.afterAll (operation :: rest) = (assembler.after operation).afterAll rest := rfl

/-- Two runs in a row are one run. -/
theorem afterAll_append (assembler : Assembler) (first second : List Operation) :
    assembler.afterAll (first ++ second) = (assembler.afterAll first).afterAll second :=
  List.foldl_append

/-- A label that an operation places lies at the end of the code then. -/
theorem eq_size_of_placed {operation : Operation}
    (unplaced : assembler.graph.offset? label = none)
    (found : (assembler.after operation).graph.offset? label = some offset) :
    offset = (assembler.after operation).code.size := by
  rcases places_after assembler operation with nothing | ⟨placed, places⟩
  · rw [nothing.offsets, unplaced] at found
    simp at found
  · rw [places.offsets, placing] at found
    by_cases same : label = placed
    · rw [if_pos same] at found
      exact (Option.some.inj found).symm
    · rw [if_neg same, unplaced] at found
      simp at found

/-- A label without an offset that has one at the end of a run lies behind what is written so
far. -/
theorem size_le_of_unplaced (unplaced : assembler.graph.offset? label = none)
    (found : (assembler.afterAll operations).graph.offset? label = some offset) :
    assembler.code.size ≤ offset := by
  induction operations generalizing assembler with
  | nil =>
    have same : assembler.graph.offset? label = some offset := found
    simp [unplaced] at same
  | cons operation rest ih =>
    have longer := (grows_perform operation assembler).1
    refine Nat.le_trans longer ?_
    cases next : (assembler.after operation).graph.offset? label with
    | none => exact ih next found
    | some place =>
      have kept := (Keeps.afterAll (assembler.after operation) rest).offsets label place next
      obtain rfl : place = offset := Option.some.inj (kept.symm.trans found)
      exact Nat.le_of_eq (eq_size_of_placed unplaced next).symm

/-- What is known before a moment of a run about blocks and offsets is so at the end. -/
theorem keeps_of_mem_history (member : moment ∈ assembler.history operations) :
    moment.before.Keeps (assembler.afterAll operations) := by
  obtain ⟨_, later, _, after⟩ := exists_of_mem_history member
  rw [after]
  exact (Keeps.of_moves (moves_after moment.before moment.operation)).trans (.afterAll _ later)

/-- The code is no longer after a moment of a run than at the end. -/
theorem size_le_of_mem_history (member : moment ∈ assembler.history operations) :
    moment.after.code.size ≤ (assembler.afterAll operations).code.size := by
  obtain ⟨_, later, _, after⟩ := exists_of_mem_history member
  rw [after]
  exact size_le_afterAll moment.after later

/-- A label without an offset at some moment that has one at the end lies behind what is written at
that moment. -/
theorem size_le_of_mem_history_of_unplaced (member : moment ∈ assembler.history operations)
    (unplaced : moment.before.graph.offset? label = none)
    (found : (assembler.afterAll operations).graph.offset? label = some offset) :
    moment.after.code.size ≤ offset := by
  obtain ⟨_, later, _, after⟩ := exists_of_mem_history member
  rw [after] at found
  cases next : moment.after.graph.offset? label with
  | none => exact size_le_of_unplaced next found
  | some place =>
    have kept := (Keeps.afterAll moment.after later).offsets label place next
    obtain rfl : place = offset := Option.some.inj (kept.symm.trans found)
    exact Nat.le_of_eq (eq_size_of_placed unplaced next).symm

/-- Each byte that a run writes is written at some moment. -/
theorem exists_writes (behind : assembler.code.size ≤ offset)
    (inside : offset < (assembler.afterAll operations).code.size) :
    ∃ moment ∈ assembler.history operations, moment.Writes offset := by
  induction operations generalizing assembler with
  | nil => exact absurd inside (Nat.not_lt_of_le behind)
  | cons operation rest ih =>
    by_cases first : offset < (assembler.after operation).code.size
    · exact ⟨⟨assembler, operation⟩, List.mem_cons_self, behind, first⟩
    · obtain ⟨moment, member, writes⟩ := ih (Nat.le_of_not_lt first) inside
      exact ⟨moment, List.mem_cons_of_mem _ member, writes⟩

variable {settings : Settings} {slots : UInt16}

/-- A label that has its place at some moment of a run lies no further back than what is written
then, and it keeps its place. -/
theorem of_placed_at (member : moment ∈ (start settings slots).history operations)
    (placed : moment.before.graph.offset? label = some offset) :
    offset ≤ moment.before.code.size ∧
      ((start settings slots).afterAll operations).graph.offset? label = some offset := by
  obtain ⟨earlier, _, before, _⟩ := exists_of_mem_history member
  have kept := (keeps_of_mem_history member).offsets label offset placed
  rw [before] at placed ⊢
  exact ⟨(Ascends.afterAll settings slots earlier).behind label offset placed, kept⟩

/-- The label before a byte has its place when the byte is written. -/
theorem isSome_offset?_of_writes (member : moment ∈ (start settings slots).history operations)
    (found : ((start settings slots).afterAll operations).graph.offset? label = some offset)
    (writes : moment.Writes offset) : moment.WritesBehind label := by
  refine ⟨by have := writes.1; have := writes.2; omega, ?_⟩
  by_contra missing
  have unplaced : moment.before.graph.offset? label = none := by simpa using missing
  have behind := size_le_of_mem_history_of_unplaced member unplaced found
  have before := writes.2
  omega

/-- A label lies before the end of the code exactly if something is written after it was placed. -/
theorem lt_size_iff
    (found : ((start settings slots).afterAll operations).graph.offset? label = some offset) :
    offset < ((start settings slots).afterAll operations).code.size ↔
      ∃ moment ∈ (start settings slots).history operations, moment.WritesBehind label := by
  constructor
  · intro inside
    obtain ⟨moment, member, writes⟩ := exists_writes (Nat.zero_le offset) inside
    exact ⟨moment, member, isSome_offset?_of_writes member found writes⟩
  · rintro ⟨moment, member, longer, placed⟩
    obtain ⟨place, at_⟩ := Option.isSome_iff_exists.mp placed
    obtain ⟨behind, kept⟩ := of_placed_at member at_
    obtain rfl : offset = place := Option.some.inj (found.symm.trans kept)
    have size := size_le_of_mem_history member
    omega

/-- A label lies before another one exactly if something is written after the one was placed and
before the other is. -/
theorem lt_iff {other : Label} {place : Nat}
    (found : ((start settings slots).afterAll operations).graph.offset? label = some offset)
    (foundOther : ((start settings slots).afterAll operations).graph.offset? other = some place) :
    offset < place ↔ ∃ moment ∈ (start settings slots).history operations,
      moment.WritesBehind label ∧ moment.before.graph.offset? other = none := by
  constructor
  · intro ordered
    have inside := (Ascends.afterAll settings slots operations).behind other place foundOther
    obtain ⟨moment, member, writes⟩ := exists_writes (Nat.zero_le offset)
      (Nat.lt_of_lt_of_le ordered inside)
    refine ⟨moment, member, isSome_offset?_of_writes member found writes, ?_⟩
    by_contra placed
    obtain ⟨early, at_⟩ := Option.ne_none_iff_exists'.mp placed
    obtain ⟨behind, kept⟩ := of_placed_at member at_
    obtain rfl : place = early := Option.some.inj (foundOther.symm.trans kept)
    have after := writes.1
    omega
  · rintro ⟨moment, member, ⟨longer, placed⟩, unplaced⟩
    obtain ⟨early, at_⟩ := Option.isSome_iff_exists.mp placed
    obtain ⟨behind, kept⟩ := of_placed_at member at_
    obtain rfl : offset = early := Option.some.inj (found.symm.trans kept)
    have later := size_le_of_mem_history_of_unplaced member unplaced foundOther
    omega

end History

end Assembler

end MethodBody
