import MethodBody.Proofs.Widening

/-!
# Blocks that end with a return from a subroutine

An instruction on a local variable that returns from a subroutine ends its block and marks it. A
plain instruction is refused if its opcode is a return, but a widened return has another opcode in
front. So a block is marked exactly if the last operation that wrote into it asked for a return of a
local variable, and every return that was written ends a marked block exactly if no widened one was
written as a plain instruction while a block was open (`marksReturns_iff`).
-/

namespace MethodBody

/-- A return from a subroutine stands at the offset, widened or not. -/
def Buffer.HoldsReturn (code : Buffer) (offset : Nat) : Prop :=
  code.byte? offset = some Opcode.ret ∨
    code.byte? offset = some Opcode.wide ∧ code.byte? (offset + 1) = some Opcode.ret

/-- Whether a return stands at an offset can be read from the bytes. -/
instance Buffer.decidableHoldsReturn (code : Buffer) (offset : Nat) :
    Decidable (code.HoldsReturn offset) :=
  inferInstanceAs (Decidable (_ ∨ _))

namespace Moment

/-- The operation asks for the return from a subroutine to the address in a local variable. -/
def AsksForReturn (moment : Moment) : Prop :=
  ∃ slot, moment.operation = .localInstruction (.ret slot)

/-- The operation writes an instruction that is a return from a subroutine, widened or not. -/
def WritesReturn (moment : Moment) : Prop :=
  moment.after.code.HoldsReturn moment.before.code.size

/-- The operation writes an instruction into the block, which is open. -/
structure WritesInto (moment : Moment) (block : Label) : Prop where
  /-- The block is open. -/
  open_ : moment.before.IsOpen block
  /-- Something is written. -/
  longer : moment.before.code.size < moment.after.code.size

/-- The operation writes the last instruction of the block. -/
structure IsLastIn (moment : Moment) (history : List Moment) (block : Label) : Prop where
  /-- An instruction is written into the block. -/
  writes : moment.WritesInto block
  /-- No instruction is written into the block later. -/
  last : ∀ other ∈ history, other.WritesInto block →
    other.before.code.size ≤ moment.before.code.size

/-- The operation writes a widened return as a plain instruction into an open block. -/
def hidesReturn (moment : Moment) : Bool :=
  match moment.operation with
  | .instruction bytes _ =>
    moment.before.openBlock.isSome && bytes.take 2 == [Opcode.wide, Opcode.ret]
  | _ => false

end Moment

/-- The returns from subroutines end their blocks, and the blocks that they end are the ones that
are marked. -/
structure FlowGraph.MarksReturns (graph : FlowGraph) (history : List Moment) : Prop where
  /-- A return in a block is the last instruction of the block. -/
  last : ∀ moment ∈ history, ∀ block, moment.WritesInto block → moment.WritesReturn →
    moment.IsLastIn history block
  /-- A block is marked exactly if its last instruction is a return. -/
  marked : ∀ block, (graph.dutyOf block).2 = true ↔
    ∃ moment ∈ history, moment.IsLastIn history block ∧ moment.WritesReturn

namespace Buffer

variable {code : Buffer}

/-- Bytes that were appended are a return if they say so. -/
theorem holdsReturn_append {bytes : List UInt8} :
    (code.append bytes).HoldsReturn code.size ↔ Opcode.isReturn bytes = true := by
  have first := code.byte?_append bytes 0
  have second := code.byte?_append bytes 1
  rw [Nat.add_zero] at first
  rw [HoldsReturn, first, second, Opcode.isReturn]
  -- The prefix of a widened instruction and the opcode behind it are two bytes.
  rcases bytes with _ | ⟨opcode, _ | ⟨next, rest⟩⟩ <;> simp

/-- No return stands behind the end. -/
theorem not_holdsReturn_of_le {offset : Nat} (behind : code.size ≤ offset) :
    ¬ code.HoldsReturn offset := by
  have none : code.byte? offset = none := by
    rw [byte?_eq_toList, List.getElem?_eq_none (by rwa [length_toList])]
  simp [HoldsReturn, none]

/-- Code that goes on with another opcode holds no return there. -/
theorem not_holdsReturn_of_prefix {after : Buffer} {opcode : Opcode}
    (begins : (code.append [opcode]).toList <+: after.toList) (other : opcode ≠ Opcode.ret)
    (plain : opcode ≠ Opcode.wide) : ¬ after.HoldsReturn code.size := by
  obtain ⟨rest, same⟩ := begins
  rw [toList_append, List.append_assoc] at same
  have first := byte?_of_split same.symm
  rw [length_toList] at first
  simp [HoldsReturn, first, other, plain]

end Buffer

/-- Of the instructions on local variables, exactly the returns are read as returns. -/
theorem LocalInstruction.isReturn_encode (request : LocalInstruction) :
    Opcode.isReturn request.encode = true ↔ ∃ slot, request = .ret slot := by
  have goes := request.isComplete_encode.2
  rw [Opcode.goesOn] at goes
  cases request with
  | ret slot =>
    refine iff_of_true ?_ ⟨slot, rfl⟩
    simp only [encode, encodeSlot]
    split
    · rfl
    · rfl
  | load kind slot => simp_all [Instruction.continues]
  | store kind slot => simp_all [Instruction.continues]
  | increment slot amount => simp_all [Instruction.continues]

/-- No jump starts with a return or with the prefix of a widened instruction. -/
theorem Opcode.jumpForm?_ne {opcode : Opcode} {far : Bool} {form : JumpForm}
    (isJump : opcode.isJump = true) (chosen : opcode.jumpForm? far = some form) :
    form.opcode ≠ ret ∧ form.opcode ≠ wide := by
  have all : ∀ opcode : Opcode, opcode.isJump = true → (opcode.jumpForm? far).all
      (fun form => form.opcode ≠ ret ∧ form.opcode ≠ wide) = true := by
    cases far <;> decide +kernel
  have found := all opcode isJump
  simpa [chosen] using found

namespace Assembler

variable {assembler after : Assembler} {operation : Operation}

/-- Bytes are written behind the code. -/
theorem prefix_append (assembler : Assembler) (bytes : List UInt8) :
    assembler.code.toList <+: (assembler.append bytes).code.toList := by
  simp [append]

/-- A reference is written behind the code. -/
theorem prefix_refers (assembler : Assembler) (target : Label) (source : Nat) (width : Width) :
    assembler.code.toList <+: (assembler.refers target source width).code.toList := by
  simp [refers, update, append]

/-- References are written behind the code. -/
theorem prefix_refersAll (assembler : Assembler) (targets : List Label) (source : Nat) :
    assembler.code.toList <+: (assembler.refersAll targets source).code.toList := by
  induction targets generalizing assembler with
  | nil => exact List.prefix_refl _
  | cons target rest ih => exact (prefix_refers assembler target source .wide).trans (ih _)

/-- The cases of a switch are written behind the code. -/
theorem prefix_emitsCases (assembler : Assembler) (cases : List Case) (source : Nat) :
    assembler.code.toList
      <+: (cases.foldl (fun after one => after.emitsCase source one) assembler).code.toList := by
  induction cases generalizing assembler with
  | nil => exact List.prefix_refl _
  | cons one rest ih =>
    exact ((prefix_append assembler _).trans (prefix_refers _ one.target source .wide)).trans (ih _)

/-- A switch begins with its opcode. -/
theorem prefix_beginsSwitch (assembler : Assembler) (opcode : Opcode) (fallback : Label) :
    (assembler.code.append [opcode]).toList
      <+: (assembler.beginsSwitch opcode fallback).code.toList := by
  have padded : (assembler.code.append [opcode]).toList
      <+: (assembler.append [opcode]).aligned.code.toList := by
    simp [aligned, append, Buffer.align]
  exact padded.trans (prefix_refers _ fallback _ .wide)

/-- A switch over consecutive keys begins with its opcode. -/
theorem prefix_emitsTable (assembler : Assembler) (low high : Int32) (fallback : Label)
    (targets : List Label) : (assembler.code.append [Opcode.tableSwitch]).toList
      <+: (assembler.emitsTable low high fallback targets).code.toList :=
  ((prefix_beginsSwitch assembler _ fallback).trans (prefix_append _ _)).trans
    ((prefix_append _ _).trans (prefix_refersAll _ targets _))

/-- A switch over any keys begins with its opcode. -/
theorem prefix_emitsLookup (assembler : Assembler) (fallback : Label) (cases : List Case) :
    (assembler.code.append [Opcode.lookupSwitch]).toList
      <+: (assembler.emitsLookup fallback cases).code.toList :=
  ((prefix_beginsSwitch assembler _ fallback).trans (prefix_append _ _)).trans
    (prefix_emitsCases _ cases _)

/-- A jump begins with the opcode of its form. -/
theorem prefix_emits (assembler : Assembler) (form : JumpForm) (target : Label) :
    (assembler.code.append [form.opcode]).toList <+: (assembler.emits target form).code.toList := by
  cases form with
  | plain opcode width => exact prefix_refers (assembler.append [opcode]) target _ width
  | inverted inverse =>
    have begins : (assembler.code.append [inverse]).toList
        <+: ((assembler.append (inverse :: Width.narrow.operand 8)).append
          [Opcode.gotoWide]).code.toList := by
      simp [append]
    exact begins.trans (prefix_refers _ target _ .wide)

/-- A plain instruction is written behind the code. -/
theorem code_writesPlain (assembler : Assembler) (opcode : Opcode)
    (rest : List UInt8) (delta : Int32) :
    (assembler.writesPlain opcode rest delta).code = assembler.code.append (opcode :: rest) := by
  unfold writesPlain
  simp only
  split
  · rw [code_closeBlock]
    rfl
  · rfl

/-- An instruction on a local variable is written behind the code. -/
theorem code_writesLocal (assembler : Assembler) (request : LocalInstruction) :
    (assembler.writesLocal request).code = assembler.code.append request.encode := by
  cases request with
  | ret slot => exact code_endSubroutine _
  | _ => rfl

/-- An operation that does not fail writes a return exactly if it asks for one of a local variable,
or for a widened one among the plain instructions. -/
theorem Performs.holdsReturn_iff (performs : assembler.Performs operation after) :
    after.code.HoldsReturn assembler.code.size ↔
      (∃ slot, operation = .localInstruction (.ret slot)) ∨
        ∃ bytes delta, operation = .instruction bytes delta ∧
          bytes.take 2 = [Opcode.wide, Opcode.ret] := by
  cases performs with
  | @place label node code rewritten known unplaced size =>
    rw [code_placed]
    exact iff_of_false (Buffer.not_holdsReturn_of_le (Nat.le_of_eq size)) (by simp)
  | @instruction opcode rest delta allowed =>
    have other : opcode ≠ Opcode.ret := by
      rintro rfl
      simp [needsOwnOperation] at allowed
    rw [code_writesPlain, Buffer.holdsReturn_append, Opcode.isReturn]
    simp [other]
  | @localInstruction request =>
    rw [code_writesLocal, Buffer.holdsReturn_append, LocalInstruction.isReturn_encode]
    simp
  | @jump opcode target node form isJump known allowed chosen holds =>
    obtain ⟨other, plain⟩ := Opcode.jumpForm?_ne isJump chosen
    have begins := prefix_emits (assembler.update target Node.marked) form target
    rw [code_jumps]
    exact iff_of_false (Buffer.not_holdsReturn_of_prefix begins other plain) (by simp)
  | @tableSwitch low high fallback targets accepts =>
    have begins := prefix_emitsTable assembler low high fallback targets
    rw [code_switches]
    exact iff_of_false (Buffer.not_holdsReturn_of_prefix begins (by decide) (by decide)) (by simp)
  | @lookupSwitch fallback cases accepts =>
    have begins := prefix_emitsLookup assembler fallback (sortCases cases)
    rw [code_switches]
    exact iff_of_false (Buffer.not_holdsReturn_of_prefix begins (by decide) (by decide)) (by simp)
  | _ => exact iff_of_false (Buffer.not_holdsReturn_of_le (Nat.le_refl _)) (by simp)

end Assembler

/-- Whatever writes a return makes the code longer. -/
theorem Moment.WritesReturn.longer {moment : Moment} (isReturn : moment.WritesReturn) :
    moment.before.code.size < moment.after.code.size :=
  Nat.lt_of_not_le fun short => Buffer.not_holdsReturn_of_le short isReturn

/-- The blocks of a finished method have the duties they had. -/
theorem FlowGraph.ChangesTo.dutyOf_eq {handlers : List Label} {before after : FlowGraph}
    (changes : ChangesTo handlers before after) : after.dutyOf = before.dutyOf := by
  induction changes with
  | refl => rfl
  | @tail middle last _ change ih =>
    obtain ⟨_, unknown, known⟩ := change.amends
    refine Eq.trans (funext fun label => ?_) ih
    cases found : middle.node? label with
    | none => simp [dutyOf, found, unknown label found]
    | some node =>
      obtain ⟨revised, is, amends⟩ := known label node found
      simp [dutyOf, found, is, amends.calls, amends.ends]

/-- A change that keeps the mark of a return. -/
theorem FlowGraph.snd_dutyOf_update {change : Node → Node}
    (same : ∀ node, (change node).flags.endsSubroutine = node.flags.endsSubroutine)
    (graph : FlowGraph) (changed label : Label) :
    ((graph.update changed change).dutyOf label).2 = (graph.dutyOf label).2 := by
  simp only [dutyOf, node?_update]
  split
  · cases graph.node? label <;> simp [same]
  · rfl

namespace Assembler

/-- The same blocks are marked as ending with a return. -/
def SameReturns (before after : Assembler) : Prop :=
  ∀ label, (after.graph.dutyOf label).2 = (before.graph.dutyOf label).2

namespace SameReturns

variable {first second third before after : Assembler}

/-- The same blocks are marked after two steps. -/
theorem trans (one : first.SameReturns second) (two : second.SameReturns third) :
    first.SameReturns third :=
  fun label => (two label).trans (one label)

/-- No block gets another duty. -/
theorem of_duties (same : after.graph.dutyOf = before.graph.dutyOf) : before.SameReturns after :=
  fun label => by rw [same]

/-- Going on with a block at a label of its own marks nothing. -/
theorem goesOn (assembler : Assembler) {flags : Flags} (calls : flags.callsSubroutine = false)
    (ends : flags.endsSubroutine = false) : assembler.SameReturns (assembler.goesOn flags) := by
  obtain ⟨settled, stays, _, _, _, same⟩ := assembler.exists_of_goesOn calls ends
  rw [same]
  exact (of_duties stays.duties).trans (of_duties (dutyOf_startBlock settled _))

/-- A block that ends with a call gets no mark. -/
theorem leavesTo (assembler : Assembler) (block : OpenBlock) (entry : Label) :
    assembler.SameReturns (assembler.leavesTo block entry) := by
  intro label
  unfold Assembler.leavesTo
  simp only
  refine (FlowGraph.snd_dutyOf_update ?_ _ block.label label).trans
    (FlowGraph.snd_dutyOf_update ?_ _ block.label label)
  · exact fun _ => rfl
  · exact fun _ => rfl

/-- A jump marks no return. -/
theorem jumps (assembler : Assembler) (opcode : Opcode) (form : JumpForm) (target : Label) :
    assembler.SameReturns (assembler.jumps opcode form target) := by
  have written := of_duties (Stays.emits assembler target form).duties
  unfold Assembler.jumps
  simp only
  split
  · exact written
  · rename_i block _
    split
    · rw [calls_eq]
      have entered := written.trans (of_duties (Stays.enters _ target).duties)
      exact (entered.trans (leavesTo _ block target)).trans (goesOn _ rfl rfl)
    · unfold branches
      have linked : assembler.SameReturns
          (((assembler.emits target form).adjust opcode.base.jumpDelta).addEdge target) :=
        written.trans (of_duties (dutyOf_addEdge _ target))
      simp only
      split
      · exact linked.trans (of_duties (dutyOf_closeBlock _))
      · exact linked.trans (goesOn _ rfl rfl)

/-- Leading control to labels marks no return. -/
theorem leadsTo (assembler : Assembler) (targets : List Label) :
    assembler.SameReturns (assembler.leadsTo targets) := by
  induction targets generalizing assembler with
  | nil => exact fun _ => rfl
  | cons target rest ih =>
    have marked := of_duties (Stays.marked assembler target).duties
    exact (marked.trans (of_duties (dutyOf_addEdge _ target))).trans (ih _)

/-- A switch marks no return. -/
theorem switches (assembler : Assembler) (targets : List Label) :
    assembler.SameReturns (assembler.switches targets) := by
  have adjusted := of_duties (Stays.adjust assembler (-1)).duties
  exact (adjusted.trans (leadsTo _ targets)).trans (of_duties (dutyOf_closeBlock _))

/-- A plain instruction marks no return. -/
theorem writesPlain (assembler : Assembler) (opcode : Opcode) (rest : List UInt8) (delta : Int32) :
    assembler.SameReturns (assembler.writesPlain opcode rest delta) := by
  unfold Assembler.writesPlain
  simp only
  split
  · exact of_duties (dutyOf_closeBlock _)
  · exact fun _ => rfl

end SameReturns

variable {assembler after : Assembler} {operation : Operation}

/-- Only a return of a local variable marks a block. -/
theorem Performs.sameReturns (performs : assembler.Performs operation after)
    (other : ∀ slot, operation ≠ .localInstruction (.ret slot)) : assembler.SameReturns after := by
  cases performs with
  | freshLabel => exact .of_duties (Stays.create assembler rfl rfl).duties
  | freshDebugLabel => exact .of_duties (Stays.create assembler rfl rfl).duties
  | @place label node code rewritten known unplaced size =>
    have settled : assembler.SameReturns (assembler.settle label node code rewritten) :=
      .of_duties (Stays.settle assembler known unplaced size rewritten).duties
    unfold placed
    simp only
    split
    · exact settled
    · exact settled.trans (.of_duties (dutyOf_startBlock _ label))
  | nothing => exact fun _ => rfl
  | instruction allowed => exact .writesPlain assembler _ _ _
  | @localInstruction request =>
    cases request with
    | ret slot => exact absurd rfl (other slot)
    | _ => exact fun _ => rfl
  | @jump opcode target node form isJump known allowed chosen holds =>
    have marked : assembler.SameReturns (assembler.update target Node.marked) :=
      .of_duties (Stays.marked assembler target).duties
    exact marked.trans (.jumps _ opcode form target)
  | @tableSwitch low high fallback targets accepts =>
    have written : assembler.SameReturns (assembler.emitsTable low high fallback targets) :=
      .of_duties (Stays.emitsTable assembler low high fallback targets).duties
    exact written.trans (.switches _ _)
  | @lookupSwitch fallback cases accepts =>
    have written : assembler.SameReturns (assembler.emitsLookup fallback (sortCases cases)) :=
      .of_duties (Stays.emitsLookup assembler fallback _).duties
    exact written.trans (.switches _ _)
  | @addLine label line =>
    have attached : assembler.SameReturns (assembler.update label (·.addLine line)) := by
      refine FlowGraph.snd_dutyOf_update ?_ assembler.graph label
      exact fun _ => rfl
    exact attached
  | @addHandler handler =>
    have noted : assembler.Stays (assembler.bounds handler) :=
      (Stays.bounded assembler handler.start).trans (.bounded _ handler.stop)
    exact .of_duties (noted.trans (.marked _ handler.handler)).duties
  | declare => exact fun _ => rfl

/-- No block is open after a return from a subroutine. -/
theorem openBlock_endSubroutine (assembler : Assembler) :
    assembler.endSubroutine.openBlock = none := by
  have closed := openLabel?_closeBlock assembler
  unfold endSubroutine
  split
  · assumption
  · simpa [openLabel?, update] using closed

/-- A return from a subroutine marks the open block. -/
theorem ends_endSubroutine (known : ∀ label, assembler.IsOpen label →
      (assembler.graph.node? label).isSome) (label : Label) :
    (assembler.endSubroutine.graph.dutyOf label).2 = true ↔
      (assembler.graph.dutyOf label).2 = true ∨ assembler.IsOpen label := by
  cases opened : assembler.openBlock with
  | none => simp [endSubroutine, opened, IsOpen, openLabel?]
  | some block =>
    obtain ⟨node, found⟩ := Option.isSome_iff_exists.mp (known _ (isOpen_of_openBlock opened))
    by_cases here : block.label = label
    · subst here
      simp [endSubroutine, closeBlock, opened, update, FlowGraph.dutyOf, FlowGraph.node?_update,
        found, isOpen_of_openBlock opened]
    · simp [endSubroutine, closeBlock, opened, update, FlowGraph.dutyOf, FlowGraph.node?_update,
        here, IsOpen, openLabel?]

/-- A return of a local variable leaves no block open. -/
theorem Performs.openBlock_eq_none {slot : UInt16}
    (performs : assembler.Performs (.localInstruction (.ret slot)) after) :
    after.openBlock = none := by
  cases performs with
  | localInstruction => exact openBlock_endSubroutine _

/-- A return of a local variable is the only operation that marks a block, and it marks the open
one. -/
theorem Performs.ends_iff (performs : assembler.Performs operation after)
    (known : ∀ label, assembler.IsOpen label → (assembler.graph.node? label).isSome)
    (label : Label) : (after.graph.dutyOf label).2 = true ↔
      (assembler.graph.dutyOf label).2 = true ∨
        (∃ slot, operation = .localInstruction (.ret slot)) ∧ assembler.IsOpen label := by
  by_cases asks : ∃ slot, operation = .localInstruction (.ret slot)
  · obtain ⟨slot, rfl⟩ := asks
    cases performs with
    | localInstruction =>
      let written := ((assembler.append (LocalInstruction.ret slot).encode).adjust
        (LocalInstruction.ret slot).delta).needLocals (LocalInstruction.ret slot).localsNeeded
      have same : assembler.Stays written :=
        ((Stays.append assembler _).trans (.adjust _ _)).trans (.of_graph rfl rfl (Nat.le_refl _))
      have stillKnown (other : Label) (isOpen : written.IsOpen other) :
          (written.graph.node? other).isSome := known other (same.isOpen_iff.mp isOpen)
      have ends := ends_endSubroutine stillKnown label
      rw [same.duties, same.isOpen_iff] at ends
      exact ends.trans (or_congr_right (iff_and_self.mpr fun _ => ⟨slot, rfl⟩))
  · have other : ∀ slot, operation ≠ .localInstruction (.ret slot) :=
      fun slot same => asks ⟨slot, same⟩
    rw [performs.sameReturns other label]
    simp [asks]

/-- A block that is not open does not open again, whatever an operation does. -/
theorem not_isOpen_of_moves {label : Label} {offset : Nat} (moves : assembler.Moves operation after)
    (placed : assembler.graph.offset? label = some offset) (closed : ¬ assembler.IsOpen label) :
    ¬ after.IsOpen label := by
  have notFresh {other : Label} (fresh : assembler.graph.offset? other = none) : label ≠ other := by
    rintro rfl
    simp [fresh] at placed
  cases moves with
  | stays same =>
    rw [same.isOpen_iff]
    exact closed
  | ends same opened leaves longer ended =>
    have none : after.openBlock = none := by
      rcases ended with rfl | rfl
      · exact Option.map_eq_none_iff.mp (openLabel?_closeBlock _)
      · exact openBlock_endSubroutine _
    simp [IsOpen, openLabel?, none]
  | @starts middle other same fresh settled started =>
    rw [← started]
    exact fun isOpen => notFresh fresh (isOpen.eq (openLabel?_startBlock middle other))
  | @calls middle block opcode entry same opened kept jumps isCall target called =>
    have left : ((middle.enters entry).leavesTo block entry).graph.offset? label = some offset := by
      rw [offset?_leavesTo]
      exact (Stays.enters middle entry).offsets _ _ (same.offsets _ _ placed)
    obtain ⟨settled, _, _, fresh, _, goes⟩ :=
      ((middle.enters entry).leavesTo block entry).exists_of_goesOn
        (show ({} : Flags).callsSubroutine = false from rfl) rfl
    rw [← called, calls_eq, goes]
    intro isOpen
    rw [isOpen.eq (openLabel?_startBlock settled _), fresh] at left
    simp at left

/-- A block that is not open does not open again during a run. -/
theorem not_isOpen_afterAll {label : Label} {offset : Nat}
    (placed : assembler.graph.offset? label = some offset) (closed : ¬ assembler.IsOpen label)
    (operations : List Operation) : ¬ (assembler.afterAll operations).IsOpen label := by
  induction operations generalizing assembler with
  | nil => exact closed
  | cons operation rest ih =>
    have moves := moves_after assembler operation
    exact ih ((Keeps.of_moves moves).offsets label offset placed)
      (not_isOpen_of_moves moves placed closed)

section History

variable {operations : List Operation} {moment first second : Moment} {block : Label}

/-- No moment of a run in which no operation fails is one of a failure. -/
theorem performs_of_mem_history (succeeds : assembler.Succeeds operations)
    (member : moment ∈ assembler.history operations) :
    moment.before.Performs moment.operation moment.after := by
  induction operations generalizing assembler with
  | nil => simp [history] at member
  | cons operation rest ih =>
    rcases List.mem_cons.mp member with rfl | later
    · obtain ⟨answer, yields⟩ := exists_yields succeeds.1
      exact performs_of_yields yields
    · exact ih succeeds.2 later

/-- Of two moments of a run, one comes before the other if they are not the same. -/
theorem eq_or_follows (one : first ∈ assembler.history operations)
    (two : second ∈ assembler.history operations) : first = second ∨
      (∃ between, second.before = first.after.afterAll between) ∨
        ∃ between, first.before = second.after.afterAll between := by
  induction operations generalizing assembler with
  | nil => simp [history] at one
  | cons operation rest ih =>
    rcases List.mem_cons.mp one with rfl | oneLater
    · rcases List.mem_cons.mp two with rfl | twoLater
      · exact .inl rfl
      · obtain ⟨between, _, before, _⟩ := exists_of_mem_history twoLater
        exact .inr (.inl ⟨between, before⟩)
    · rcases List.mem_cons.mp two with rfl | twoLater
      · obtain ⟨between, _, before, _⟩ := exists_of_mem_history oneLater
        exact .inr (.inr ⟨between, before⟩)
      · exact ih oneLater twoLater

/-- A block has one last instruction. -/
theorem eq_of_isLastIn (one : first ∈ assembler.history operations)
    (two : second ∈ assembler.history operations)
    (firstLast : first.IsLastIn (assembler.history operations) block)
    (secondLast : second.IsLastIn (assembler.history operations) block) : first = second := by
  have forth := firstLast.last second two secondLast.writes
  have back := secondLast.last first one firstLast.writes
  rcases eq_or_follows one two with same | ⟨between, follows⟩ | ⟨between, follows⟩
  · exact same
  · have longer := size_le_afterAll first.after between
    have written := firstLast.writes.longer
    rw [follows] at forth
    omega
  · have longer := size_le_afterAll second.after between
    have written := secondLast.writes.longer
    rw [follows] at back
    omega

/-- During a run exactly the blocks are marked in which a return of a local variable was asked
for. -/
theorem ends_afterAll (succeeds : assembler.Succeeds operations)
    (known : ∀ moment ∈ assembler.history operations, ∀ label, moment.before.IsOpen label →
      (moment.before.graph.node? label).isSome) :
    ((assembler.afterAll operations).graph.dutyOf block).2 = true ↔
      (assembler.graph.dutyOf block).2 = true ∨ ∃ moment ∈ assembler.history operations,
        moment.AsksForReturn ∧ moment.before.IsOpen block := by
  induction operations generalizing assembler with
  | nil => simp [history, afterAll_nil]
  | cons operation rest ih =>
    have now : (⟨assembler, operation⟩ : Moment) ∈ assembler.history (operation :: rest) :=
      List.mem_cons_self
    have later := ih succeeds.2 fun moment member => known moment (List.mem_cons_of_mem _ member)
    have performs : assembler.Performs operation (assembler.after operation) :=
      performs_of_mem_history succeeds now
    have step := performs.ends_iff (known _ now) block
    rw [afterAll_cons, later, or_congr_left step, or_assoc, history]
    simp [Moment.AsksForReturn]

variable {settings : Settings} {slots : UInt16}

/-- The open block is known at each moment of a run from the start. -/
theorem isSome_node?_of_mem_history (member : moment ∈ (start settings slots).history operations)
    {label : Label} (isOpen : moment.before.IsOpen label) :
    (moment.before.graph.node? label).isSome := by
  obtain ⟨earlier, _, before, _⟩ := exists_of_mem_history member
  rw [before] at isOpen ⊢
  exact (wired_afterAll settings slots earlier).1.isSome_node? isOpen

/-- A return of a local variable is the last instruction of its block. -/
theorem isLastIn_of_asksForReturn (succeeds : (start settings slots).Succeeds operations)
    (member : moment ∈ (start settings slots).history operations) (asks : moment.AsksForReturn)
    (isOpen : moment.before.IsOpen block) :
    moment.IsLastIn ((start settings slots).history operations) block := by
  have performs := performs_of_mem_history succeeds member
  obtain ⟨slot, isReturn⟩ := asks
  have emitted : moment.operation.emitted? moment.before = some (.onLocal (.ret slot)) := by
    rw [isReturn]
    rfl
  have closed : moment.after.openBlock = none := by
    rw [isReturn] at performs
    exact performs.openBlock_eq_none
  refine ⟨⟨isOpen, size_lt_of_performs performs emitted⟩, fun other happens writes => ?_⟩
  rcases eq_or_follows member happens with rfl | ⟨between, follows⟩ | ⟨between, follows⟩
  · exact Nat.le_refl _
  · -- The block was closed for good, so nothing can be written into it any more.
    obtain ⟨earlier, _, before, _⟩ := exists_of_mem_history member
    have wired := (wired_afterAll settings slots earlier).1
    rw [← before] at wired
    obtain ⟨offset, placed, _⟩ := wired.placed block (wired.mem_blocks isOpen)
    have kept := (Keeps.of_moves (moves_after moment.before moment.operation)).offsets _ _ placed
    have gone : ¬ moment.after.IsOpen block := by simp [IsOpen, openLabel?, closed]
    have stillOpen := writes.open_
    rw [follows] at stillOpen
    exact absurd stillOpen (not_isOpen_afterAll kept gone between)
  · have longer := size_le_afterAll other.after between
    have written := writes.longer
    rw [follows]
    omega

/-- A return that is hidden is written into some block. -/
theorem exists_isOpen_of_hidesReturn (hides : moment.hidesReturn = true) :
    ∃ block, moment.before.IsOpen block := by
  unfold Moment.hidesReturn at hides
  split at hides
  · obtain ⟨opened, _⟩ := Bool.and_eq_true_iff.mp hides
    obtain ⟨block, found⟩ := Option.isSome_iff_exists.mp opened
    exact ⟨block.label, isOpen_of_openBlock found⟩
  · simp at hides

/-- An open block into which a return is written gets it from a local variable, or from a plain
instruction that hides it. -/
theorem writesReturn_iff (performs : moment.before.Performs moment.operation moment.after)
    (isOpen : moment.before.IsOpen block) :
    moment.WritesReturn ↔ moment.AsksForReturn ∨ moment.hidesReturn = true := by
  obtain ⟨opened, found, _⟩ := isOpen.exists_openBlock
  have hides : moment.hidesReturn = true ↔ ∃ bytes delta,
      moment.operation = .instruction bytes delta ∧ bytes.take 2 = [Opcode.wide, Opcode.ret] := by
    unfold Moment.hidesReturn
    cases moment.operation <;> simp [found]
  rw [hides]
  exact performs.holdsReturn_iff

/-- A block is marked as ending with a return exactly if its last instruction was asked for as a
return of a local variable. So the returns end the blocks that are marked, and no others are marked,
exactly if no plain instruction hides one. -/
theorem marksReturns_iff {code : MethodCode}
    (succeeds : (start settings slots).Succeeds operations)
    (finished : (finish.run ((start settings slots).afterAll operations)).answer = .ok code) :
    let history := (start settings slots).history operations
    (∀ block, (code.graph.dutyOf block).2 = true ↔
      ∃ moment ∈ history, moment.IsLastIn history block ∧ moment.AsksForReturn) ∧
    (code.graph.MarksReturns history ↔ ∀ moment ∈ history, moment.hidesReturn = false) := by
  intro history
  obtain ⟨handled, returned, finishes⟩ := exists_finishes finished
  have performs {moment : Moment} (member : moment ∈ history) :
      moment.before.Performs moment.operation moment.after :=
        performs_of_mem_history succeeds member
  have marked (block : Label) : (code.graph.dutyOf block).2 = true ↔
      ∃ moment ∈ history, moment.IsLastIn history block ∧ moment.AsksForReturn := by
    have ends : ((start settings slots).afterAll operations).graph.dutyOf block
        = code.graph.dutyOf block := (congrFun finishes.changesTo.dutyOf_eq block).symm
    rw [← ends, ends_afterAll succeeds fun moment member label =>
      isSome_node?_of_mem_history member]
    constructor
    · rintro (first | ⟨moment, member, asks, isOpen⟩)
      · rw [dutyOf_start] at first
        simp at first
      · exact ⟨moment, member, isLastIn_of_asksForReturn succeeds member asks isOpen, asks⟩
    · rintro ⟨moment, member, isLast, asks⟩
      exact .inr ⟨moment, member, asks, isLast.writes.open_⟩
  refine ⟨marked, fun marks moment member => ?_, fun hides => ⟨?_, fun block => ?_⟩⟩
  · -- A hidden return marks nothing, so its block would have another last instruction.
    by_contra hidden
    have hides : moment.hidesReturn = true := by simpa using hidden
    obtain ⟨block, isOpen⟩ := exists_isOpen_of_hidesReturn hides
    have isReturn := (writesReturn_iff (performs member) isOpen).mpr (.inr hides)
    have isLast := marks.last moment member block ⟨isOpen, isReturn.longer⟩ isReturn
    obtain ⟨other, happens, otherLast, slot, asks⟩ :=
      (marked block).mp ((marks.marked block).mpr ⟨moment, member, isLast, isReturn⟩)
    obtain rfl := eq_of_isLastIn member happens isLast otherLast
    simp [Moment.hidesReturn, asks] at hides
  · intro moment member block writes isReturn
    rcases (writesReturn_iff (performs member) writes.open_).mp isReturn with asks | hidden
    · exact isLastIn_of_asksForReturn succeeds member asks writes.open_
    · simp [hides moment member] at hidden
  · rw [marked]
    refine exists_congr fun moment => and_congr_right fun member => and_congr_right fun isLast => ?_
    rw [writesReturn_iff (performs member) isLast.writes.open_, hides moment member]
    simp

/-- A subroutine that keeps its return address in a variable so far back that the return is
widened. -/
def widenedReturn : List Operation :=
  [.freshLabel, .jump Opcode.jsr ⟨1⟩, .instruction [0xb1] 0, .place ⟨1⟩,
    .localInstruction (.store .reference 300), .localInstruction (.ret 300)]

/-- The widened return ends the block of the subroutine, which is the only one that is marked. -/
theorem marksReturns_iff_widenedReturn :
    (start { computeMaxima := false } 0).Succeeds widenedReturn ∧
      ∃ code, (finish.run ((start { computeMaxima := false } 0).afterAll widenedReturn)).answer
          = .ok code ∧
        code.graph.MarksReturns ((start { computeMaxima := false } 0).history widenedReturn) ∧
        (∀ index < 3, (code.graph.dutyOf ⟨index⟩).2 = decide (index = 1)) ∧
        ∃ moment ∈ (start { computeMaxima := false } 0).history widenedReturn,
          moment.before.code.size = 8 ∧ moment.WritesReturn := by
  have succeeds : (start { computeMaxima := false } 0).Succeeds widenedReturn := by decide +kernel
  obtain ⟨code, found, duties⟩ : ∃ code ∈ (finish.run
        ((start { computeMaxima := false } 0).afterAll widenedReturn)).answer.toOption,
      ∀ index < 3, (code.graph.dutyOf ⟨index⟩).2 = decide (index = 1) := by
    decide +kernel
  have finished := eq_ok_of_mem_toOption found
  have marks := (marksReturns_iff succeeds finished).2.mpr (by decide +kernel)
  have wide : ∃ moment ∈ (start { computeMaxima := false } 0).history widenedReturn,
      moment.before.code.size = 8 ∧ moment.after.code.HoldsReturn moment.before.code.size := by
    decide +kernel
  exact ⟨succeeds, code, finished, marks, duties, wide⟩

/-- A widened return that is pushed as a plain instruction, and a return from the method behind
it. -/
def hiddenReturn : List Operation :=
  [.instruction [0xc4, 0xa9, 0x01, 0x2c] 0, .instruction [0xb1] 0]

/-- A method is finished though a return from a subroutine stands in the middle of a block, which is
not marked. All its plain instructions are complete. -/
theorem not_marksReturns_hiddenReturn :
    (start {} 0).Succeeds hiddenReturn ∧
      (∀ bytes delta, .instruction bytes delta ∈ hiddenReturn → Opcode.isComplete bytes = true) ∧
      ∃ code, (finish.run ((start {} 0).afterAll hiddenReturn)).answer = .ok code ∧
        ¬ code.graph.MarksReturns ((start {} 0).history hiddenReturn) := by
  obtain ⟨code, found, _⟩ :
      ∃ code ∈ (finish.run ((start {} 0).afterAll hiddenReturn)).answer.toOption,
      (code.graph.dutyOf .start).2 = false := by
    decide +kernel
  refine ⟨by decide +kernel, ?_, code, eq_ok_of_mem_toOption found, fun marks => ?_⟩
  · intro bytes delta member
    simp only [hiddenReturn, List.mem_cons, Operation.instruction.injEq, List.not_mem_nil,
      or_false] at member
    rcases member with ⟨rfl, _⟩ | ⟨rfl, _⟩ <;> decide +kernel
  let wide : Moment := ⟨start {} 0, .instruction [0xc4, 0xa9, 0x01, 0x2c] 0⟩
  let behind : Moment := ⟨wide.after, .instruction [0xb1] 0⟩
  have isReturn : wide.WritesReturn := by
    have held : wide.after.code.HoldsReturn wide.before.code.size := by decide +kernel
    exact held
  have writes : wide.WritesInto .start := ⟨⟨false, rfl⟩, by decide +kernel⟩
  have writesBehind : behind.WritesInto .start := ⟨⟨false, rfl⟩, by decide +kernel⟩
  have isLast := marks.last wide List.mem_cons_self .start writes isReturn
  have before : behind.before.code.size ≤ wide.before.code.size :=
    isLast.last behind (List.mem_cons_of_mem _ List.mem_cons_self) writesBehind
  revert before
  decide +kernel

end History

end Assembler

end MethodBody
