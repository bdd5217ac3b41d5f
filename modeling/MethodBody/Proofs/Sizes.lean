import MethodBody.Proofs.Passage
import MethodBody.Proofs.Performance

/-!
# Sizes of instructions

The code grows by exactly the bytes of the instruction that an operation lists (`Performs.size`). So
the instructions of a run in which no operation fails follow each other without a gap and make up
all of the code (`contiguous_of_succeeds`), however long it is.
-/

namespace MethodBody

/-- An instruction on a local variable has bytes. -/
theorem LocalInstruction.length_encode_pos (request : LocalInstruction) :
    0 < request.encode.length := by
  have slotted (opcode : Opcode) (slot : UInt16) : 0 < (encodeSlot opcode slot).length := by
    unfold encodeSlot
    split <;> exact Nat.succ_pos _
  cases request with
  | load kind slot =>
    simp only [encode]
    split
    · exact Nat.succ_pos _
    · exact slotted _ slot
  | store kind slot =>
    simp only [encode]
    split
    · exact Nat.succ_pos _
    · exact slotted _ slot
  | increment slot amount =>
    simp only [encode]
    split <;> exact Nat.succ_pos _
  | ret slot => exact slotted _ slot

/-- An instruction that does not jump has bytes, if it is written at all. -/
theorem Instruction.ne_nil_of_emitted? {assembler : Assembler} {operation : Operation}
    {bytes : List UInt8} {delta : Int32}
    (emitted : operation.emitted? assembler = some (.plain bytes delta)) : bytes ≠ [] := by
  rintro rfl
  cases operation with
  | instruction bytes delta =>
    cases bytes with
    | nil => simp [Operation.emitted?] at emitted
    | cons opcode rest =>
      simp only [Operation.emitted?] at emitted
      split at emitted <;> simp at emitted
  | jump opcode target =>
    cases known : assembler.graph.node? target with
    | none => simp [Operation.emitted?, known] at emitted
    | some node =>
      simp only [Operation.emitted?, known, Option.bind_eq_bind, Option.bind_some] at emitted
      split at emitted
      · obtain ⟨form, _, same⟩ := Option.bind_eq_some_iff.mp emitted
        simp at same
      · simp at emitted
  | _ => simp [Operation.emitted?] at emitted

namespace Listed

/-- An instruction lies within the code of all instructions. -/
theorem stop_le {start : Nat} {listing : List Listed} {listed : Listed}
    (contiguous : Assembler.Contiguous start listing) (member : listed ∈ listing) :
    start ≤ listed.offset ∧
      listed.stop ≤ start + Piece.totalSize (listing.flatMap pieces) := by
  induction listing generalizing start with
  | nil => simp at member
  | cons first rest ih =>
    obtain ⟨rfl, others⟩ := contiguous
    have stop : first.stop = first.offset + Piece.totalSize first.pieces := rfl
    rw [List.flatMap_cons, Piece.totalSize_append]
    rcases List.mem_cons.mp member with rfl | later
    · omega
    · have behind := ih others later
      omega

end Listed

namespace Assembler

variable {assembler after : Assembler}

/-- A reference adds its operand. -/
@[simp]
theorem size_refers (assembler : Assembler) (target : Label) (source : Nat) (width : Width) :
    (assembler.refers target source width).code.size = assembler.code.size + width.size := by
  have operand : (assembler.operand target source width).length = width.size := by
    unfold Assembler.operand
    split
    · simp
    · unfold Node.operand
      split <;> simp
  simp [refers, append, update, operand]

/-- References add their operands. -/
theorem size_refersAll (assembler : Assembler) (targets : List Label) (source : Nat) :
    (assembler.refersAll targets source).code.size
      = assembler.code.size + Piece.totalSize (targets.map (.distance source)) := by
  induction targets generalizing assembler with
  | nil => rfl
  | cons target rest ih =>
    have others := ih (assembler.refers target source .wide)
    rw [size_refers] at others
    simp only [List.map_cons, Piece.totalSize, Piece.size, ← Nat.add_assoc]
    exact others

/-- The head of a switch adds its bytes. -/
theorem size_beginsSwitch (assembler : Assembler) (opcode : Opcode) (fallback : Label) :
    (assembler.beginsSwitch opcode fallback).code.size = assembler.code.size
      + (Instruction.switchHead opcode assembler.code.cursor).length + Width.wide.size := by
  have head : (assembler.append [opcode]).aligned.code.size
      = assembler.code.size + (Instruction.switchHead opcode assembler.code.cursor).length := by
    simp [append, aligned, Buffer.align, Instruction.switchHead, Buffer.cursor]
    omega
  rw [beginsSwitch, size_refers, head]

/-- A jump adds its bytes. -/
theorem size_emits (assembler : Assembler) (opcode : Opcode) (form : JumpForm) (target : Label) :
    (assembler.emits target form).code.size
      = (Listed.mk assembler.code.cursor (.jump opcode form target)).stop := by
  cases form with
  | plain written width =>
    cases width <;> simp [emits, append, Listed.stop, Listed.pieces, Instruction.pieces,
      Piece.totalSize, Piece.size, Buffer.cursor, Nat.add_assoc]
  | inverted inverse =>
    simp only [emits, append, size_refers, Buffer.size_append, Listed.stop, Listed.pieces,
      Instruction.pieces, Piece.totalSize, Piece.size, Buffer.cursor, List.length_cons,
      List.length_nil]
    omega

/-- A switch over consecutive keys adds its bytes. -/
theorem size_emitsTable (assembler : Assembler) (low high : Int32) (fallback : Label)
    (targets : List Label) : (assembler.emitsTable low high fallback targets).code.size
      = (Listed.mk assembler.code.cursor (.tableSwitch low high fallback targets)).stop := by
  have head := assembler.size_beginsSwitch Opcode.tableSwitch fallback
  rw [emitsTable, size_refersAll]
  simp only [append, Buffer.size_append, BigEndian.length_encodeSigned, head, Listed.stop,
    Listed.pieces, Instruction.pieces, Piece.totalSize, Piece.size, Buffer.cursor]
  omega

/-- A switch over any keys adds its bytes. -/
theorem size_emitsLookup (assembler : Assembler) (fallback : Label) (cases : List Case) :
    (assembler.emitsLookup fallback cases).code.size
      = (Listed.mk assembler.code.cursor (.lookupSwitch fallback cases)).stop := by
  have inCases (before : Assembler) (rest : List Case) (source : Nat) :
      (rest.foldl (fun after one => after.emitsCase source one) before).code.size
        = before.code.size + Piece.totalSize (rest.flatMap fun one =>
          [.literal (BigEndian.encodeSigned 4 one.key.toInt), .distance source one.target]) := by
    induction rest generalizing before with
    | nil => rfl
    | cons one rest ih =>
      rw [List.foldl_cons, ih, emitsCase, size_refers]
      simp only [append, Buffer.size_append, BigEndian.length_encodeSigned, List.flatMap_cons,
        List.cons_append, List.nil_append, Piece.totalSize, Piece.size]
      omega
  have head := assembler.size_beginsSwitch Opcode.lookupSwitch fallback
  rw [emitsLookup, inCases]
  simp only [append, Buffer.size_append, BigEndian.length_encodeSigned, head, Listed.stop,
    Listed.pieces, Instruction.pieces, Piece.totalSize, Piece.size, Buffer.cursor]
  omega

/-- Going on with a block at a label of its own writes nothing. -/
@[simp]
theorem code_goesOn (assembler : Assembler) (flags : Flags) :
    (assembler.goesOn flags).code = assembler.code :=
  code_startBlock _ _

/-- Ending a block with a jump writes nothing. -/
theorem code_jumps (assembler : Assembler) (opcode : Opcode) (form : JumpForm) (target : Label) :
    (assembler.jumps opcode form target).code = (assembler.emits target form).code := by
  unfold jumps
  simp only
  split
  · rfl
  · split
    · exact code_goesOn _ _
    · unfold branches
      simp only
      split
      · rw [code_closeBlock, code_addEdge]
        rfl
      · rw [code_goesOn, code_addEdge]
        rfl

/-- Leading control to labels writes nothing. -/
@[simp]
theorem code_leadsTo (assembler : Assembler) (targets : List Label) :
    (assembler.leadsTo targets).code = assembler.code := by
  induction targets generalizing assembler with
  | nil => rfl
  | cons target rest ih =>
    have first := ih ((assembler.update target Node.marked).addEdge target)
    rw [code_addEdge] at first
    exact first

/-- Ending a block with a switch writes nothing. -/
theorem code_switches (assembler : Assembler) (targets : List Label) :
    (assembler.switches targets).code = assembler.code := by
  rw [switches, code_closeBlock, code_leadsTo]
  rfl

/-- Placing a label writes nothing but what is filled in. -/
theorem code_placed (assembler : Assembler) (label : Label) (node : Node) (code : Buffer)
    (rewritten : Bool) : (assembler.placed label node code rewritten).code = code := by
  unfold placed
  simp only
  split
  · rfl
  · exact code_startBlock _ _

/-- An instruction on a local variable adds its bytes. -/
theorem size_writesLocal (assembler : Assembler) (request : LocalInstruction) :
    (assembler.writesLocal request).code.size
      = (Listed.mk assembler.code.cursor (.onLocal request)).stop := by
  have size : (assembler.writesLocal request).code = assembler.code.append request.encode := by
    cases request with
    | ret slot => exact code_endSubroutine _
    | _ => rfl
  simp [size, Listed.stop, Listed.pieces, Instruction.pieces, Piece.size, Buffer.cursor]

/-- A successful operation adds the bytes of the instruction that it lists, if it lists one. -/
theorem Performs.size {operation : Operation} (performs : assembler.Performs operation after) :
    after.code.size = (assembler.listed? operation).elim assembler.code.size Listed.stop := by
  cases performs with
  | freshLabel => rfl
  | freshDebugLabel => rfl
  | addLine => rfl
  | addHandler => rfl
  | declare => rfl
  | nothing => rfl
  | place _ _ size => exact (congrArg Buffer.size (code_placed _ _ _ _ _)).trans size
  | @instruction opcode rest delta allowed =>
    rw [listed?, emitted?_instruction allowed]
    have code : (assembler.writesPlain opcode rest delta).code
        = assembler.code.append (opcode :: rest) := by
      unfold writesPlain
      simp only
      split
      · exact code_closeBlock _
      · rfl
    simp [code, Listed.stop, Listed.pieces, Instruction.pieces, Piece.size, Buffer.cursor]
  | localInstruction => exact size_writesLocal _ _
  | @jump opcode target node form isJump known allowed chosen holds =>
    rw [listed?, emitted?_jump isJump known allowed chosen, code_jumps]
    exact size_emits (assembler.update target Node.marked) opcode form target
  | tableSwitch =>
    exact (congrArg Buffer.size (code_switches _ _)).trans (size_emitsTable _ _ _ _ _)
  | lookupSwitch => exact (congrArg Buffer.size (code_switches _ _)).trans (size_emitsLookup _ _ _)

/-- An instruction that is listed lies at the cursor, and has bytes. -/
theorem of_listed? {operation : Operation} {listed : Listed}
    (lists : assembler.listed? operation = some listed) :
    listed.offset = assembler.code.size ∧ listed.offset < listed.stop := by
  obtain ⟨instruction, emitted, rfl⟩ := Option.map_eq_some_iff.mp lists
  refine ⟨rfl, ?_⟩
  have positive : 0 < Piece.totalSize (instruction.pieces assembler.code.cursor) := by
    cases instruction with
    | plain bytes delta =>
      have written := Instruction.ne_nil_of_emitted? emitted
      have length := List.length_pos_iff.mpr written
      simp only [Instruction.pieces, Piece.totalSize_cons, Piece.size]
      omega
    | onLocal request =>
      have length := request.length_encode_pos
      simp only [Instruction.pieces, Piece.totalSize_cons, Piece.size]
      omega
    | jump opcode form target =>
      cases form with
      | plain written width =>
        cases width <;> simp only [Instruction.pieces, Piece.totalSize_cons, Piece.size,
          List.length_cons] <;> omega
      | inverted inverse =>
        simp only [Instruction.pieces, Piece.totalSize_cons, Piece.size, List.length_cons]
        omega
    | tableSwitch low high fallback targets =>
      simp only [Instruction.pieces, Piece.totalSize_cons, Piece.size, Instruction.switchHead,
        List.length_cons]
      omega
    | lookupSwitch fallback cases =>
      simp only [Instruction.pieces, Piece.totalSize_cons, Piece.size, Instruction.switchHead,
        List.length_cons]
      omega
  exact Nat.lt_add_of_pos_right positive

/-- The instructions of a run in which no operation fails make up all that it adds to the code. -/
theorem contiguous_of_succeeds {operations : List Operation}
    (succeeds : assembler.Succeeds operations) :
    Contiguous assembler.code.size (assembler.listing operations) ∧
      (assembler.afterAll operations).code.size
        = assembler.code.size + Listed.size (assembler.listing operations) := by
  induction operations generalizing assembler with
  | nil => exact ⟨trivial, rfl⟩
  | cons operation rest ih =>
    obtain ⟨answer, yields⟩ := exists_yields succeeds.1
    have size := (performs_of_yields yields).size
    obtain ⟨others, total⟩ := ih succeeds.2
    cases lists : assembler.listed? operation with
    | none =>
      rw [lists, Option.elim_none] at size
      rw [size] at others total
      simp only [listing, lists, Option.toList_none, List.nil_append]
      exact ⟨others, total⟩
    | some listed =>
      have here := (of_listed? lists).1
      have added := listed.offset_add_size
      rw [lists, Option.elim_some] at size
      rw [size] at others total
      simp only [listing, lists, Option.toList_some, Listed.size_append]
      refine ⟨⟨here, others⟩, ?_⟩
      have last : ((assembler.afterAll (operation :: rest)).code.size : Nat)
          = ((assembler.after operation).afterAll rest).code.size := rfl
      omega

/-- Every instruction of a run has bytes. -/
theorem offset_lt_stop_of_mem_listing {operations : List Operation} {listed : Listed}
    (member : listed ∈ assembler.listing operations) : listed.offset < listed.stop := by
  induction operations generalizing assembler with
  | nil => simp [listing] at member
  | cons operation rest ih =>
    rcases List.mem_append.mp member with first | later
    · exact (of_listed? (Option.mem_toList.mp first)).2
    · exact ih later

end Assembler

end MethodBody
