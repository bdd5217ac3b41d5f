import MethodBody.Proofs.Completion
import MethodBody.Proofs.Decoding
import Mathlib.Data.List.Nodup

/-!
# Agreement of flow graphs and bytes

The edges of a block were added when its last instruction was written; the bytes of that instruction
may have been filled in, or given another form, much later. Still, decoding the bytes from the start
of a block leads to an instruction whose successors are those of the edges
(`finish_agrees`), and what is written while no block is open adds no edge
(`Performs.edgesOf_of_closed`).
-/

namespace MethodBody

/-- Control passes from a block to an offset with the stack as it is. -/
def FlowGraph.JumpsTo (graph : FlowGraph) (block : Label) (address : Int) : Prop :=
  ∃ edge ∈ graph.edgesOf block, edge.transfer ≠ .exception ∧
    ∃ offset : Nat, graph.offset? edge.successor = some offset ∧ (offset : Int) = address

/-- The offset of the block that is placed behind the one at an index, or else the end of the
code. -/
def MethodCode.limit (code : MethodCode) (index : Nat) : Nat :=
  (code.graph.blocks[index + 1]?.bind code.graph.offset?).getD code.code.size

/-- The edges of each block lead where the bytes of its last instruction do, and to the block that
is placed behind it exactly if that instruction lets control go on. -/
structure MethodCode.Agrees (code : MethodCode) : Prop where
  /-- The edges of a block that holds an instruction lead where its last instruction does. -/
  successors : ∀ (index : Nat) (block : Label) (offset : Nat),
    code.graph.blocks[index]? = some block → code.graph.offset? block = some offset →
    offset < code.limit index →
    ∃ decoded, code.code.lastDecoded? (code.limit index) offset = some decoded ∧
      (decoded.continues = true → index + 1 < code.graph.blocks.size) ∧
      ∀ address, code.graph.JumpsTo block address ↔
        address ∈ decoded.targets ∨ decoded.continues = true ∧ address = code.limit index
  /-- The edges lead to labels that have an offset. -/
  placed : ∀ block, ∀ edge ∈ code.graph.edgesOf block, edge.transfer ≠ .exception →
    (code.graph.offset? edge.successor).isSome
  /-- Only blocks have such edges. -/
  blocks : ∀ block, ∀ edge ∈ code.graph.edgesOf block, edge.transfer ≠ .exception →
    block ∈ code.graph.blocks

namespace Assembler

/-- While no block is open, an operation adds no edge and removes none. -/
theorem Performs.edgesOf_of_closed {assembler after : Assembler} {operation : Operation}
    (performs : assembler.Performs operation after) (closed : assembler.openBlock = none) :
    after.graph.edgesOf = assembler.graph.edgesOf := by
  cases performs with
  | freshLabel => exact (FlowGraph.quiet_create _ _).edges
  | freshDebugLabel => exact (FlowGraph.quiet_create _ _).edges
  | declare => rfl
  | nothing => rfl
  | @addLine label line => exact (quiet_addLine assembler label line).1.edges
  | @addHandler handler _ =>
    exact (((quiet_bounded assembler handler.start).trans (quiet_bounded _ handler.stop)).trans
      (quiet_marked _ handler.handler)).1.edges
  | @place label node code rewritten known unplaced size =>
    have settled := (quiet_settle assembler known unplaced code rewritten).edges
    have alone : (assembler.settle label node code rewritten).openBlock = none := closed
    unfold placed
    simp only
    split
    · exact settled
    · unfold startBlock
      rw [alone]
      exact settled
  | @instruction opcode rest delta allowed =>
    unfold writesPlain
    simp only
    split
    · rw [edgesOf_closeBlock]
      rfl
    · rfl
  | @localInstruction request =>
    cases request with
    | ret slot =>
      have ended := (quiet_endSubroutine ((((assembler.append
        (LocalInstruction.ret slot).encode).adjust (LocalInstruction.ret slot).delta).needLocals
        (LocalInstruction.ret slot).localsNeeded))).1.edges
      rw [edgesOf_closeBlock] at ended
      exact ended
    | _ => rfl
  | @jump opcode target node form isJump known allowed chosen holds =>
    have written := (assembler.quiet_marked target).trans (quiet_emits _ target form)
    have alone := written.2.trans closed
    unfold jumps
    simp only [alone]
    exact written.1.edges
  | @tableSwitch low high fallback targets accepts =>
    have written := quiet_emitsTable assembler low high fallback targets
    have alone :
        ((assembler.emitsTable low high fallback targets).adjust (-1)).openBlock = none := by
      simp only [adjust, written.2, closed, Option.map_none]
    have led := quiet_leadsTo alone (fallback :: targets)
    rw [switches, edgesOf_closeBlock]
    exact led.1.edges.trans written.1.edges
  | @lookupSwitch fallback cases accepts =>
    have written := quiet_emitsLookup assembler fallback (sortCases cases)
    have alone : ((assembler.emitsLookup fallback (sortCases cases)).adjust (-1)).openBlock
        = none := by
      simp only [adjust, written.2, closed, Option.map_none]
    have led := quiet_leadsTo alone (fallback :: (sortCases cases).map (·.target))
    rw [switches, edgesOf_closeBlock]
    exact led.1.edges.trans written.1.edges

variable {code : MethodCode} {listing : List Listed} {ended : List Passage}
  {last? : Option Passage} {passage : Passage} {index : Nat}

namespace Completes

/-- Passages with the same label are the same. -/
theorem eq_of_label_eq (completes : Completes code listing ended last?) {other : Passage}
    (one : passage ∈ ended) (two : other ∈ ended) (same : other.label = passage.label) :
    other = passage :=
  List.inj_on_of_nodup_map completes.distinct (List.mem_append_left _ two)
    (List.mem_append_left _ one) same

/-- A block has its passage at the same place. -/
theorem exists_passage (completes : Completes code listing ended last?) {block : Label}
    (found : code.graph.blocks[index]? = some block) :
    ∃ passage, (ended ++ last?.toList)[index]? = some passage ∧ passage.label = block := by
  rw [← Array.getElem?_toList, completes.blocks, List.getElem?_map] at found
  exact Option.map_eq_some_iff.mp found

/-- The limit of a block that another one follows is where that one starts. -/
theorem limit_of_next (completes : Completes code listing ended last?) {next : Passage}
    (follows : (ended ++ last?.toList)[index + 1]? = some next) :
    code.limit index = next.offset := by
  have block : code.graph.blocks[index + 1]? = some next.label := by
    rw [← Array.getElem?_toList, completes.blocks, List.getElem?_map, follows]
    rfl
  have offset := completes.offsets next (List.mem_of_getElem? follows)
  rw [MethodCode.limit, block, Option.bind_some, offset, Option.getD_some]

/-- The limit of the last block is the end of the code. -/
theorem limit_of_last (completes : Completes code listing ended last?)
    (none : (ended ++ last?.toList)[index + 1]? = none) : code.limit index = code.code.size := by
  have block : code.graph.blocks[index + 1]? = Option.none := by
    rw [← Array.getElem?_toList, completes.blocks, List.getElem?_map, none]
    rfl
  rw [MethodCode.limit, block]
  rfl

/-- Two blocks in a row are placed one right after the other. -/
theorem before_of_next (completes : Completes code listing ended last?) {next : Passage}
    (here : (ended ++ last?.toList)[index]? = some passage)
    (follows : (ended ++ last?.toList)[index + 1]? = some next) : passage.Before next := by
  obtain ⟨inside, rfl⟩ := List.getElem?_eq_some_iff.mp here
  obtain ⟨insideNext, rfl⟩ := List.getElem?_eq_some_iff.mp follows
  exact List.isChain_iff_getElem.mp completes.chain index insideNext

/-- A block ends in front of its limit. -/
theorem stop_le_limit (completes : Completes code listing ended last?)
    (whole : IsWhole code listing)
    (here : (ended ++ last?.toList)[index]? = some passage) {listed : Listed}
    (written : listed ∈ passage.instructions) (stop : listed.stop = passage.stop) :
    passage.stop ≤ code.limit index := by
  cases follows : (ended ++ last?.toList)[index + 1]? with
  | none =>
    have fits := completes.fits passage (List.mem_of_getElem? here)
    have inside := whole.stop_le (fits.listed listed written)
    rw [completes.limit_of_last follows, ← stop]
    exact inside
  | some next =>
    rw [completes.limit_of_next follows]
    exact (completes.before_of_next here follows).1

/-- Control that falls out of a block goes on at its limit, with the block that follows. -/
theorem of_next? (completes : Completes code listing ended last?)
    (here : (ended ++ last?.toList)[index]? = some passage) (block : passage ∈ ended)
    {label : Label} (goes : passage.next? = some label) :
    index + 1 < code.graph.blocks.size ∧ code.graph.offset? label = some (code.limit index) ∧
      passage.stop = code.limit index := by
  have size : code.graph.blocks.size = (ended ++ last?.toList).length := by
    rw [← Array.length_toList, completes.blocks, List.length_map]
  cases follows : (ended ++ last?.toList)[index + 1]? with
  | some next =>
    obtain ⟨inside, _⟩ := List.getElem?_eq_some_iff.mp follows
    obtain ⟨rfl, offset⟩ := (completes.before_of_next here follows).2 label goes
    have limit := completes.limit_of_next follows
    refine ⟨by omega, ?_, by omega⟩
    rw [limit]
    exact completes.offsets next (List.mem_of_getElem? follows)
  | none =>
    -- No block follows, so control cannot fall out of this one.
    obtain ⟨inside, found⟩ := List.getElem?_eq_some_iff.mp here
    have outside := List.getElem?_eq_none_iff.mp follows
    have final : (ended ++ last?.toList).getLast? = some passage := by
      rw [List.getLast?_eq_getElem?, ← here]
      congr 1
      omega
    simp [completes.next?_of_getLast? block final] at goes

/-- A block that holds an instruction has a last one. Control goes straight through the others, the
edges lead where the last one does, and control falls out of the block if that one lets it. -/
theorem exists_final (completes : Completes code listing ended last?) (block : passage ∈ ended)
    (written : passage.instructions ≠ []) :
    ∃ front final, passage.instructions = front ++ [final] ∧
      (∀ listed ∈ front, listed.instruction.isStraight = true) ∧ final.stop = passage.stop ∧
      passage.targets = final.instruction.targets ∧
      passage.next?.isSome = final.instruction.continues := by
  have fits := completes.fits passage (List.mem_append_left _ block)
  have next := (completes.ends passage block).next
  have stop {front : List Listed} {final : Listed}
      (split : passage.instructions = front ++ [final]) : final.stop = passage.stop := by
    have contiguous := fits.contiguous
    rw [split, Listed.contiguous_append] at contiguous
    have offset : final.offset = passage.offset + Listed.size front := contiguous.2.1
    have size := final.offset_add_size
    rw [Passage.stop, split, Listed.size_append]
    omega
  cases last : passage.last? with
  | some final =>
    have split : passage.instructions = passage.body ++ [final] := by
      rw [Passage.instructions, last]
      rfl
    refine ⟨passage.body, final, split, fits.straight, stop split, ?_, ?_⟩
    · simp [Passage.targets, last]
    · simpa [last] using next
  | none =>
    have body : passage.instructions = passage.body := by
      rw [Passage.instructions, last]
      exact List.append_nil _
    rcases List.eq_nil_or_concat' passage.instructions with empty | ⟨front, final, split⟩
    · exact absurd empty written
    · have inside : ∀ listed ∈ front ++ [final], listed.instruction.isStraight = true := by
        rw [← split, body]
        exact fits.straight
      have straight := inside final (by simp)
      simp only [Instruction.isStraight, Bool.and_eq_true, List.isEmpty_iff] at straight
      refine ⟨front, final, split,
        fun listed member => inside listed (List.mem_append_left _ member), stop split, ?_, ?_⟩
      · simp [Passage.targets, last, straight.1]
      · simpa [last, straight.2] using next

/-- The edges of a block lead to the labels that control can go to. -/
theorem jumpsTo_iff (completes : Completes code listing ended last?) (block : passage ∈ ended)
    {address : Int} : code.graph.JumpsTo passage.label address ↔
      ∃ label ∈ passage.leads, ∃ offset : Nat, code.graph.offset? label = some offset ∧
        (offset : Int) = address := by
  have ends := completes.ends passage block
  constructor
  · rintro ⟨edge, leaves, jumps, offset, placed, same⟩
    rcases completes.others _ edge leaves with handles | ⟨other, inside, named, member⟩
    · exact absurd handles jumps
    · obtain rfl := completes.eq_of_label_eq block inside named
      obtain ⟨label, goes, rfl⟩ := (ends.edges edge).mp member
      exact ⟨label, goes, offset, placed, same⟩
  · rintro ⟨label, goes, offset, placed, same⟩
    have member := (ends.edges ⟨.jump passage.height, label⟩).mpr ⟨label, goes, rfl⟩
    exact ⟨_, completes.edges passage block _ member, by simp, offset, placed, same⟩

/-- The labels that control can go to have offsets. -/
theorem exists_offset_of_leads (completes : Completes code listing ended last?)
    (block : passage ∈ ended) {label : Label} (goes : label ∈ passage.leads) :
    ∃ offset, code.graph.offset? label = some offset := by
  rcases List.mem_append.mp goes with named | falls
  · obtain ⟨other, inside, rfl⟩ := completes.targets passage block label named
    exact ⟨other.offset, completes.offsets other inside⟩
  · obtain ⟨index, here⟩ := List.mem_iff_getElem?.mp (List.mem_append_left last?.toList block)
    have follows := completes.of_next? here block (Option.mem_toList.mp falls)
    exact ⟨_, follows.2.1⟩

/-- No block has a limit behind the end of the code. -/
theorem limit_le_size
    (behind : ∀ label offset, code.graph.offset? label = some offset → offset ≤ code.code.size) :
    code.limit index ≤ code.code.size := by
  cases follows : code.graph.blocks[index + 1]?.bind code.graph.offset? with
  | none => simp [MethodCode.limit, follows]
  | some other =>
    obtain ⟨label, _, has⟩ := Option.bind_eq_some_iff.mp follows
    simpa [MethodCode.limit, follows] using behind label other has

/-- A block that starts in front of its limit has ended and holds an instruction. -/
theorem of_lt_limit (completes : Completes code listing ended last?)
    (behind : ∀ label offset, code.graph.offset? label = some offset → offset ≤ code.code.size)
    (here : (ended ++ last?.toList)[index]? = some passage)
    (before : passage.offset < code.limit index) :
    passage ∈ ended ∧ passage.instructions ≠ [] := by
  have block : passage ∈ ended := by
    refine mem_ended (List.mem_of_getElem? here) fun last => ?_
    have atEnd := (completes.last passage last).2
    have atLimit : code.limit index ≤ code.code.size := limit_le_size behind
    omega
  refine ⟨block, fun empty => ?_⟩
  obtain ⟨label, goes⟩ := Option.isSome_iff_exists.mp (completes.isSome_next? block empty)
  have atLimit := (completes.of_next? here block goes).2.2
  rw [Passage.stop, empty, Listed.size_nil] at atLimit
  omega

/-- An instruction of a block is read back as it was listed. -/
theorem decode?_of_mem (completes : Completes code listing ended last?)
    (whole : IsWhole code listing)
    (stand : Piece.StandAt code.graph.offset? code.code 0 (listing.flatMap Listed.pieces))
    (readable : ∀ listed ∈ listing, listed.instruction.IsReadable)
    (short : code.code.size ≤ 65535)
    (behind : ∀ label offset, code.graph.offset? label = some offset → offset ≤ code.code.size)
    (block : passage ∈ ended) {listed : Listed} (written : listed ∈ passage.instructions)
    (inside : listed.stop ≤ code.limit index)
    (ends : listed.instruction.isStraight = false → listed.instruction.continues = true →
      listed.stop = code.limit index) :
    code.code.decode? (code.limit index) listed.offset
      = some (listed.decoded code.graph.offset?) := by
  have member := List.mem_append_left last?.toList block
  have listedHere := (completes.fits passage member).listed listed written
  have near := whole.stop_le listedHere
  refine Listed.decode?_of_standAt (stand.of_mem whole.contiguous listedHere)
    (readable listed listedHere) (fun label named => ?_) inside (by omega) ends
  obtain ⟨before, back, around⟩ := List.append_of_mem written
  have last := (completes.last?_of_targets member around named).1
  have goes : label ∈ passage.leads := by
    simp [Passage.leads, Passage.targets, last, named]
  obtain ⟨place, has⟩ := completes.exists_offset_of_leads block goes
  have close := behind label place has
  exact ⟨place, has, by omega⟩

/-- The edges of a block lead where its last instruction does, as it is read back. -/
theorem jumpsTo_iff_of_final (completes : Completes code listing ended last?)
    (here : (ended ++ last?.toList)[index]? = some passage)
    (block : passage ∈ ended) {final : Listed}
    (targets : passage.targets = final.instruction.targets)
    (next : passage.next?.isSome = final.instruction.continues) {address : Int} :
    code.graph.JumpsTo passage.label address ↔
      address ∈ (final.decoded code.graph.offset?).targets ∨
        (final.decoded code.graph.offset?).continues = true ∧ address = code.limit index := by
  rw [completes.jumpsTo_iff block, Listed.decoded, ← targets, ← next]
  simp only [Passage.leads, List.mem_append, List.mem_map, Option.mem_toList]
  constructor
  · rintro ⟨label, named | falls, place, has, rfl⟩
    · exact .inl ⟨label, named, by rw [Buffer.address, has, Option.getD_some]⟩
    · have follows := completes.of_next? here block falls
      rw [follows.2.1] at has
      exact .inr ⟨by simp [falls], by rw [Option.some.inj has]⟩
  · rintro (⟨label, named, rfl⟩ | ⟨goes, rfl⟩)
    · obtain ⟨place, has⟩ := completes.exists_offset_of_leads block (List.mem_append_left _ named)
      exact ⟨label, .inl named, place, has, by rw [Buffer.address, has, Option.getD_some]⟩
    · obtain ⟨label, falls⟩ := Option.isSome_iff_exists.mp goes
      exact ⟨label, .inr falls, _, (completes.of_next? here block falls).2.1, rfl⟩

/-- The edges of a block that holds an instruction lead where decoding its last instruction does. -/
theorem successors (completes : Completes code listing ended last?) (whole : IsWhole code listing)
    (stand : Piece.StandAt code.graph.offset? code.code 0 (listing.flatMap Listed.pieces))
    (readable : ∀ listed ∈ listing, listed.instruction.IsReadable)
    (short : code.code.size ≤ 65535)
    (behind : ∀ label offset, code.graph.offset? label = some offset → offset ≤ code.code.size)
    {block : Label} {offset : Nat} (found : code.graph.blocks[index]? = some block)
    (placed : code.graph.offset? block = some offset) (before : offset < code.limit index) :
    ∃ decoded, code.code.lastDecoded? (code.limit index) offset = some decoded ∧
      (decoded.continues = true → index + 1 < code.graph.blocks.size) ∧
      ∀ address, code.graph.JumpsTo block address ↔
        address ∈ decoded.targets ∨ decoded.continues = true ∧ address = code.limit index := by
  obtain ⟨passage, here, rfl⟩ := completes.exists_passage found
  have member := List.mem_of_getElem? here
  obtain rfl : passage.offset = offset :=
    Option.some.inj ((completes.offsets passage member).symm.trans placed)
  obtain ⟨block, written⟩ := completes.of_lt_limit behind here before
  obtain ⟨front, final, split, straight, stop, targets, next⟩ :=
    completes.exists_final block written
  have inside : ∀ listed ∈ front ++ [final], listed ∈ passage.instructions := by
    intro listed within
    rw [split]
    exact within
  have limited := completes.stop_le_limit whole here (inside final (by simp)) stop
  have continues : final.instruction.continues = true →
      final.stop = code.limit index ∧ index + 1 < code.graph.blocks.size := by
    intro goes
    obtain ⟨label, is⟩ := Option.isSome_iff_exists.mp (next.trans goes)
    have follows := completes.of_next? here block is
    exact ⟨stop.trans follows.2.2, follows.1⟩
  have contiguous := (completes.fits passage member).contiguous
  rw [split] at contiguous
  refine ⟨final.decoded code.graph.offset?, ?_, fun goes => (continues goes).2,
    fun address => completes.jumpsTo_iff_of_final here block targets next⟩
  refine Listed.lastDecoded?_of_contiguous contiguous ?_ straight ?_ (by omega) ?_
  · exact fun listed within =>
      whole.bytes listed ((completes.fits passage member).listed listed (inside listed within))
  · intro listed within
    have stopped : listed.stop ≤ passage.stop := by
      rw [Passage.stop, split]
      exact (Listed.stop_le contiguous within).2
    refine completes.decode?_of_mem whole stand readable short behind block (inside listed within)
      (by omega) fun bent goes => ?_
    -- Only the last instruction is not straight.
    have last : listed = final := by
      rcases List.mem_append.mp within with first | only
      · simp [straight listed first] at bent
      · simpa using only
    subst last
    exact (continues goes).1
  · intro goes
    simp only [Instruction.isStraight, Bool.and_eq_true] at goes
    exact (continues goes.2).1

end Completes

/-- The flow graph of a method whose instructions can be read back agrees with the bytes. -/
theorem Completes.agrees (completes : Completes code listing ended last?)
    (whole : IsWhole code listing)
    (stand : Piece.StandAt code.graph.offset? code.code 0 (listing.flatMap Listed.pieces))
    (readable : ∀ listed ∈ listing, listed.instruction.IsReadable)
    (short : code.code.size ≤ 65535)
    (behind : ∀ label offset, code.graph.offset? label = some offset → offset ≤ code.code.size) :
    code.Agrees where
  successors _ _ _ found placed before :=
    completes.successors whole stand readable short behind found placed before
  placed block edge leaves jumps := by
    rcases completes.others block edge leaves with handles | ⟨passage, inside, _, member⟩
    · exact absurd handles jumps
    · obtain ⟨label, goes, rfl⟩ := ((completes.ends passage inside).edges edge).mp member
      obtain ⟨offset, has⟩ := completes.exists_offset_of_leads inside goes
      simp [has]
  blocks block edge leaves jumps := by
    rcases completes.others block edge leaves with handles | ⟨passage, inside, rfl, _⟩
    · exact absurd handles jumps
    · rw [← Array.mem_toList_iff, completes.blocks]
      exact List.mem_map_of_mem (List.mem_append_left _ inside)

/-- An operation in the middle of a run does not fail if none does. -/
theorem Succeeds.performs {assembler : Assembler} {front back : List Operation}
    {operation : Operation} (succeeds : assembler.Succeeds (front ++ operation :: back)) :
    (assembler.afterAll front).Performs operation
      (assembler.afterAll (front ++ [operation])) := by
  induction front generalizing assembler with
  | nil =>
    obtain ⟨answer, yields⟩ := exists_yields succeeds.1
    exact performs_of_yields yields
  | cons first rest ih => exact ih succeeds.2

variable {settings : Settings} {parameterSlots : UInt16} {operations : List Operation}

/-- The flow graph of a finished method without calls agrees with its bytes, however its references
were filled in, if each switch over consecutive keys was given a label for each key. What was
written while no block was open added no edge. -/
theorem finish_agrees (succeeds : (start settings parameterSlots).Succeeds operations)
    (noCall : ∀ operation ∈ operations, operation.isCall = false)
    (whole : ∀ operation ∈ operations, operation.writesWhole = true)
    (fills : ∀ operation ∈ operations, operation.fillsTable = true)
    (short : settings.maxCodeLength ≤ 65535)
    (finished :
      (finish.run ((start settings parameterSlots).afterAll operations)).answer = .ok code) :
    code.Agrees ∧ ∀ front operation back, operations = front ++ operation :: back →
      ((start settings parameterSlots).afterAll front).openBlock = none →
      ((start settings parameterSlots).afterAll (front ++ [operation])).graph.edgesOf
        = ((start settings parameterSlots).afterAll front).graph.edgesOf := by
  obtain ⟨handled, returned, finishes⟩ := exists_finishes finished
  obtain ⟨wholeCode, ended, last?, completes, -⟩ := exists_completes succeeds noCall finishes
  have known := namesKnown_of_succeeds succeeds
  obtain ⟨text, _⟩ := isText_of_finishes known short finishes
  have size := size_le_of_finishes finishes (by rw [settings_afterAll]; exact short)
  have stand : Piece.StandAt code.graph.offset? code.code 0
      (((start settings parameterSlots).listing operations).flatMap Listed.pieces) := by
    rw [finishes.offset?_eq, finishes.code_eq]
    exact ⟨⟨[], [], by simpa using text.code, rfl⟩, text.holds⟩
  have behind (label : Label) (offset : Nat) (has : code.graph.offset? label = some offset) :
      offset ≤ code.code.size := by
    rw [finishes.offset?_eq] at has
    rw [finishes.code_eq]
    exact text.behind label offset has
  have readable : ∀ listed ∈ (start settings parameterSlots).listing operations,
      listed.instruction.IsReadable := isReadable_of_mem_listing whole fills noCall
  refine ⟨completes.agrees wholeCode stand readable (by rw [finishes.code_eq]; exact size) behind,
    ?_⟩
  rintro front operation back rfl closed
  exact succeeds.performs.edgesOf_of_closed closed

/-- A branch forward over a switch, which is followed by an instruction that is never reached. -/
def branchOverSwitch : List Operation :=
  [.freshLabel, .instruction [0x03] 1, .jump Opcode.ifEq ⟨1⟩, .instruction [0x04] 1,
    .tableSwitch 0 1 ⟨1⟩ [⟨1⟩, ⟨0⟩], .instruction [0x00] 0, .place ⟨1⟩, .instruction [0xb1] 0]

/-- The branch and the switch are read back with the successors that the edges lead to, and the
instruction behind the switch adds no edge. -/
theorem finish_agrees_branchOverSwitch :
    ∃ code, (finish.run ((start { computeMaxima := false } 0).afterAll branchOverSwitch)).answer
        = .ok code ∧ code.Agrees ∧
      code.code.lastDecoded? (code.limit 0) 0 = some ⟨2, [29], true⟩ ∧
      code.code.lastDecoded? (code.limit 1) 4 = some ⟨22, [29, 29, 0], false⟩ ∧
      ((start { computeMaxima := false } 0).afterAll (branchOverSwitch.take 6)).graph.edgesOf
        = ((start { computeMaxima := false } 0).afterAll
            (branchOverSwitch.take 5)).graph.edgesOf := by
  obtain ⟨code, found, first, second⟩ :
      ∃ code ∈ (finish.run ((start { computeMaxima := false } 0).afterAll
          branchOverSwitch)).answer.toOption,
        code.code.lastDecoded? (code.limit 0) 0 = some ⟨2, [29], true⟩ ∧
        code.code.lastDecoded? (code.limit 1) 4 = some ⟨22, [29, 29, 0], false⟩ := by
    decide +kernel
  have finished := eq_ok_of_mem_toOption found
  have succeeds : (start { computeMaxima := false } 0).Succeeds branchOverSwitch := by
    decide +kernel
  have agrees := finish_agrees succeeds (by decide) (by decide) (by decide) (by decide) finished
  exact ⟨code, finished, agrees.1, first, second,
    agrees.2 (branchOverSwitch.take 5) (.instruction [0x00] 0) (branchOverSwitch.drop 6) rfl
      (by decide +kernel)⟩

/-- A switch over one key with two labels. -/
def overfullSwitch : List Operation :=
  [.freshLabel, .freshLabel, .instruction [0x03] 1, .tableSwitch 0 0 ⟨1⟩ [⟨1⟩, ⟨2⟩], .place ⟨1⟩,
    .instruction [0xb1] 0, .place ⟨2⟩, .instruction [0xb1] 0]

/-- An edge leads to the second label of the switch, which a machine that decodes the switch takes
for no label: it stands behind the table. -/
theorem not_agrees_overfullSwitch :
    (start { computeMaxima := false } 0).Succeeds overfullSwitch ∧
      (∀ operation ∈ overfullSwitch, operation.isCall = false) ∧
      (∀ operation ∈ overfullSwitch, operation.writesWhole = true) ∧
      ∃ code, (finish.run ((start { computeMaxima := false } 0).afterAll overfullSwitch)).answer
        = .ok code ∧ ¬code.Agrees := by
  obtain ⟨code, found, first, offset, before, decodes, edge, leaves, jumps, placed⟩ :
      ∃ code ∈ (finish.run ((start { computeMaxima := false } 0).afterAll
          overfullSwitch)).answer.toOption,
        code.graph.blocks[0]? = some ⟨0⟩ ∧ code.graph.offset? ⟨0⟩ = some 0 ∧ 0 < code.limit 0 ∧
        code.code.lastDecoded? (code.limit 0) 0 = some ⟨18, [24, 24], false⟩ ∧
        ∃ edge ∈ code.graph.edgesOf ⟨0⟩, edge.transfer ≠ .exception ∧
          code.graph.offset? edge.successor = some 25 := by
    decide +kernel
  have finished := eq_ok_of_mem_toOption found
  refine ⟨by decide +kernel, by decide, by decide, code, finished, fun agrees => ?_⟩
  obtain ⟨decoded, read, _, same⟩ := agrees.successors 0 ⟨0⟩ 0 first offset before
  obtain rfl := Option.some.inj (decodes.symm.trans read)
  have leads : code.graph.JumpsTo ⟨0⟩ 25 := ⟨edge, leaves, jumps, 25, placed, rfl⟩
  rcases (same 25).mp leads with named | ⟨goes, _⟩
  · exact absurd named (by decide)
  · exact absurd goes (by decide)

end Assembler

end MethodBody
