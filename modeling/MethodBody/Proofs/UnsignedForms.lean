import MethodBody.Proofs.Contract
import MethodBody.Proofs.Widening

/-!
# Which bytes change once they are written

Labels fill in the references to them long after the instructions were written. What a moment of a
run writes stands in the code right afterwards and in the end, for the labels placed at each of the
two times (`standAt_of_mem_history`). So the opcodes of exactly those jumps have been given their
unsigned form that lead too far ahead, and all other bytes but those of operands are as they were
written (`tracks_widening`).
-/

namespace MethodBody

namespace Assembler

variable {settings : Settings} {slots : UInt16} {operations : List Operation} {moment : Moment}
  {listed : Listed} {mention : Mention}

/-- At a moment of a run the pieces of what is listed are written behind those of the earlier
instructions. -/
theorem exists_isText_after (known : (start settings slots).NamesKnown operations)
    (small : ((start settings slots).afterAll operations).code.size < 0x80000000)
    (member : moment ∈ (start settings slots).history operations) :
    ∃ earlier, Piece.totalSize earlier = moment.before.code.size ∧ moment.after.IsText
      (earlier ++ (moment.before.listed? moment.operation).toList.flatMap Listed.pieces) := by
  obtain ⟨⟨earlier, before⟩, names⟩ :=
    exists_isText_of_mem_history (IsText.start settings slots) known small member
  have size := size_le_of_mem_history member
  exact ⟨earlier, before.size_eq.symm, before.after names (Nat.lt_of_le_of_lt size small)⟩

/-- The pieces that a moment of a run writes stand in the code right afterwards and in the end. -/
theorem standAt_of_mem_history (known : (start settings slots).NamesKnown operations)
    (small : ((start settings slots).afterAll operations).code.size < 0x80000000)
    (member : moment ∈ (start settings slots).history operations)
    (emits : moment.before.listed? moment.operation = some listed) :
    Piece.StandAt moment.after.graph.offset? moment.after.code listed.offset listed.pieces ∧
      Piece.StandAt ((start settings slots).afterAll operations).graph.offset?
        ((start settings slots).afterAll operations).code listed.offset listed.pieces := by
  have text := IsText.start settings slots
  have contiguous : Contiguous 0 ((start settings slots).listing operations) :=
    contiguous_listing text known small
  obtain ⟨earlier, size, written⟩ := exists_isText_after known small member
  rw [emits, Option.toList_some, List.flatMap_singleton] at written
  have here : listed.offset = 0 + Piece.totalSize earlier := by
    obtain ⟨instruction, _, rfl⟩ := Option.map_eq_some_iff.mp emits
    rw [Nat.zero_add, size]
    rfl
  have stands {assembler : Assembler} {pieces : List Piece} (text : assembler.IsText pieces) :
      Piece.StandAt assembler.graph.offset? assembler.code 0 pieces :=
    ⟨⟨[], [], by simpa using text.code, rfl⟩, text.holds⟩
  constructor
  · rw [here]
    exact (stands written).append.2
  · exact Piece.StandAt.of_mem contiguous (stands (text.afterAll known small))
      (mem_listing_iff.mpr ⟨moment, member, emits⟩)

/-- A byte keeps the value that it was written with, unless it belongs to an operand that holds a
distance, or it is the opcode of a branch that leads too far ahead. -/
theorem byte?_afterAll (known : (start settings slots).NamesKnown operations)
    (small : ((start settings slots).afterAll operations).code.size < 0x80000000)
    (member : moment ∈ (start settings slots).history operations) {index : Nat}
    (writes : moment.Writes index)
    (uncovered : ∀ listed, moment.before.listed? moment.operation = some listed →
      ∀ mention ∈ listed.mentions, ¬ mention.Covers index)
    (unchanged : index = moment.before.code.cursor →
      ¬ moment.Overshoots ((start settings slots).afterAll operations).graph) :
    ((start settings slots).afterAll operations).code.byte? index
      = moment.after.code.byte? index := by
  obtain ⟨earlier, size, written⟩ := exists_isText_after known small member
  have longer := written.size_eq
  rw [Piece.totalSize_append, size] at longer
  obtain ⟨behind, inside⟩ := writes
  cases emits : moment.before.listed? moment.operation with
  | none =>
    simp only [emits, Option.toList_none, List.flatMap_nil, Piece.totalSize_nil] at longer
    omega
  | some listed =>
    rw [emits, Option.toList_some, List.flatMap_singleton] at longer
    have here : listed.offset = moment.before.code.size := by
      obtain ⟨instruction, _, rfl⟩ := Option.map_eq_some_iff.mp emits
      rfl
    obtain ⟨now, finally_⟩ := standAt_of_mem_history known small member emits
    refine (now.byte?_eq finally_ (by omega) (by omega) (uncovered listed emits) ?_).symm
    intro mention mentioned source
    have near :
        ¬ mention.Overshoots ((start settings slots).afterAll operations).graph.offset? := by
      intro far
      obtain ⟨overshoots, opcode⟩ := overshoots_of_mem_mentions member small emits mentioned far
      exact unchanged (source.symm.trans opcode) overshoots
    refine iff_of_false (fun ⟨narrow, offset, placed, far⟩ => near ⟨narrow, offset, ?_, far⟩) near
    obtain ⟨_, later, _, after⟩ := exists_of_mem_history member
    rw [after]
    exact (Keeps.afterAll moment.after later).offsets _ offset placed

end Assembler

/-- No jump starts with the unsigned form of a branch when it is written. -/
theorem Opcode.signedForm?_jumpForm {opcode : Opcode} {far : Bool} {form : JumpForm}
    (isJump : opcode.isJump = true) (chosen : opcode.jumpForm? far = some form) :
    form.opcode.signedForm? = none := by
  have all : ∀ opcode : Opcode, opcode.isJump = true →
      (opcode.jumpForm? far).all (fun form => form.opcode.signedForm?.isNone) = true := by
    cases far <;> decide +kernel
  have found := all opcode isJump
  simpa [chosen] using found

namespace Assembler

variable {settings : Settings} {slots : UInt16} {operations : List Operation} {moment : Moment}

/-- A jump starts with the unsigned form of its branch in the end exactly if it leads too far
ahead. -/
theorem exists_byte?_jump (known : (start settings slots).NamesKnown operations)
    (small : ((start settings slots).afterAll operations).code.size < 0x80000000)
    (member : moment ∈ (start settings slots).history operations) {opcode : Opcode} {target : Label}
    (asks : moment.operation = .jump opcode target)
    (longer : moment.before.code.size < moment.after.code.size) :
    ∃ byte, ((start settings slots).afterAll operations).code.byte? moment.before.code.cursor
        = some byte ∧
      (moment.Overshoots ((start settings slots).afterAll operations).graph →
        Opcode.signedForm? byte = some opcode) ∧
      (¬ moment.Overshoots ((start settings slots).afterAll operations).graph →
        Opcode.signedForm? byte = none) := by
  by_cases far : moment.Overshoots ((start settings slots).afterAll operations).graph
  · obtain ⟨own, label, same, emits, overshoots⟩ := exists_of_overshoots known small member far
    obtain ⟨rfl, rfl⟩ := Operation.jump.inj (asks.symm.trans same)
    have stands := (standAt_of_mem_history known small member emits).2
    obtain ⟨unsigned, form, _⟩ := Opcode.exists_unsignedForm? stands.holds.1.1
    refine ⟨unsigned, (stands.byte?_branch.1 overshoots).trans form, fun _ => ?_, absurd far⟩
    exact Opcode.signedForm?_of_unsignedForm? form
  · obtain ⟨earlier, size, written⟩ := exists_isText_after known small member
    have added := written.size_eq
    rw [Piece.totalSize_append, size] at added
    cases emits : moment.before.listed? moment.operation with
    | none =>
      simp only [emits, Option.toList_none, List.flatMap_nil, Piece.totalSize_nil] at added
      omega
    | some listed =>
      obtain ⟨instruction, emitted, rfl⟩ := Option.map_eq_some_iff.mp emits
      rw [asks] at emitted
      obtain ⟨isJump, node, form, rfl, _, chosen⟩ := exists_form_of_emitted? emitted
      have stands := (standAt_of_mem_history known small member emits).2
      refine ⟨form.opcode, ?_, (absurd · far), fun _ => Opcode.signedForm?_jumpForm isJump chosen⟩
      cases form with
      | plain written width =>
        cases width with
        | narrow =>
          refine stands.byte?_branch.2 fun overshoots => far ?_
          exact (overshoots_of_mem_mentions member small emits (List.mem_singleton.mpr rfl)
            overshoots).1
        | wide => exact stands.first?
      | inverted inverse => exact stands.first?

end Assembler

/-- What a finished method says of its long branches, and what it keeps of the bytes that the
moments of its run have written. -/
structure MethodCode.TracksWidening (code : MethodCode) (history : List Moment) : Prop where
  /-- The method has to be widened exactly if some branch leads too far ahead. -/
  flag : code.needsWidening = true ↔ ∃ moment ∈ history, moment.Overshoots code.graph
  /-- Exactly the branches that lead too far ahead are in their unsigned form. -/
  opcodes : ∀ moment ∈ history, ∀ opcode target, moment.operation = .jump opcode target →
    moment.before.code.size < moment.after.code.size →
    ∃ byte, code.code.byte? moment.before.code.cursor = some byte ∧
      (moment.Overshoots code.graph → Opcode.signedForm? byte = some opcode) ∧
      (¬ moment.Overshoots code.graph → Opcode.signedForm? byte = none)
  /-- Each byte was written at some moment. -/
  written : ∀ index < code.code.size, ∃ moment ∈ history, moment.Writes index
  /-- All other bytes are those that were written, but for the operands that hold distances. -/
  stable : ∀ moment ∈ history, ∀ index, moment.Writes index →
    (∀ listed, moment.before.listed? moment.operation = some listed →
      ∀ mention ∈ listed.mentions, ¬ mention.Covers index) →
    (index = moment.before.code.cursor → ¬ moment.Overshoots code.graph) →
    code.code.byte? index = moment.after.code.byte? index

namespace Assembler

variable {settings : Settings} {slots : UInt16} {operations : List Operation} {code : MethodCode}

/-- A finished method has to be widened exactly if a branch to a label that was placed later leads
too far ahead, exactly these branches are in their unsigned form, and all other bytes outside of
operands are as they were written. -/
theorem tracks_widening (known : (start settings slots).NamesKnown operations)
    (short : settings.maxCodeLength ≤ 65535)
    (finished : (finish.run ((start settings slots).afterAll operations)).answer = .ok code) :
    code.TracksWidening ((start settings slots).history operations) := by
  obtain ⟨handled, returned, finishes⟩ := exists_finishes finished
  have size := size_le_of_finishes finishes (by rw [settings_afterAll]; exact short)
  have small : ((start settings slots).afterAll operations).code.size < 0x80000000 := by omega
  have final (moment : Moment) : moment.Overshoots code.graph
      ↔ moment.Overshoots ((start settings slots).afterAll operations).graph := by
    simp only [Moment.Overshoots, finishes.offset?_eq]
  constructor
  · simp only [final]
    rw [finishes.needsWidening_eq, needsWidening_afterAll known small]
  · intro moment member opcode target asks longer
    rw [final, finishes.code_eq]
    exact exists_byte?_jump known small member asks longer
  · intro index inside
    rw [finishes.code_eq] at inside
    exact exists_writes (Nat.zero_le index) inside
  · intro moment member index writes uncovered unchanged
    rw [final] at unchanged
    rw [finishes.code_eq]
    exact byte?_afterAll known small member writes uncovered unchanged

/-- A jump ahead over a number of bytes. -/
def jumpAhead (count : Nat) : List Operation :=
  [.freshLabel, .jump Opcode.goto ⟨1⟩, .instruction (0x00 :: List.replicate count 0) 0]

/-- The state in which the label of the jump waits to be placed. -/
def awaiting (count : Nat) : Assembler :=
  (start { computeMaxima := false } 0).afterAll (jumpAhead count)

/-- The label of the jump. -/
def awaited : Node :=
  { label := ⟨1⟩, flags := { jumpTarget := true }, placement := .pending ⟨[⟨0, .narrow, 1⟩]⟩ }

/-- The bytes of the jump and those that it leads over. -/
theorem toList_awaiting (count : Nat) :
    (awaiting count).code.toList = [0xa7, 0xff, 0xff, 0x00] ++ List.replicate count 0 := by
  have code : (awaiting count).code
      = ((Buffer.empty.append [0xa7]).append [0xff, 0xff]).append
          (0x00 :: List.replicate count 0) := rfl
  rw [code, Buffer.toList_append]
  rfl

/-- The number of these bytes. -/
theorem size_awaiting (count : Nat) : (awaiting count).code.size = count + 4 := by
  rw [← Buffer.length_toList, toList_awaiting, List.length_append, List.length_replicate]
  exact Nat.add_comm 4 count

/-- The label is placed as long as an unsigned operand can hold the distance. -/
theorem exists_after_place_awaiting {count : Nat} (far : 32764 ≤ count) (close : count ≤ 65531) :
    ∃ code : Buffer, code.size = count + 4 ∧
      (awaiting count).after (.place ⟨1⟩) = (awaiting count).placed ⟨1⟩ awaited code true := by
  have size := size_awaiting count
  have byte : (awaiting count).code.byte? 0 = some Opcode.goto := by
    rw [Buffer.byte?_eq_toList, toList_awaiting]
    rfl
  have apart : ¬ Width.narrow.Fits (Offset.distance (count + 4) 0) :=
    (Offset.not_fits_narrow_iff (Nat.zero_le _) (by omega)).mpr (by omega)
  have holds : BigEndian.FitsUnsigned 2 (Offset.distance (count + 4) 0) := by
    have range : BigEndian.modulus 2 = 65536 := rfl
    rw [Offset.distance_eq_sub (by omega) (by omega)]
    simp only [BigEndian.FitsUnsigned, range]
    omega
  have form : Opcode.goto.unsignedForm? = some 0xd8 := by decide
  have plans : (Ledger.mk [⟨0, .narrow, 1⟩]).plan (awaiting count).code (awaiting count).code.cursor
      = .ok [(⟨0, .narrow, 1⟩, .unsigned 0xd8 (Offset.distance (count + 4) 0))] := by
    simp [Ledger.plan, Ledger.toList, Reference.plan, Reference.planUnsigned, Buffer.cursor, size,
      byte, apart, holds, form]
    rfl
  obtain ⟨events, resolved⟩ := Ledger.run_resolve_of_planned plans (by
    simp [Ledger.toList, Reference.Inside, Width.size, size])
  refine ⟨overwriteAll (awaiting count).code
    [(⟨0, .narrow, 1⟩, .unsigned 0xd8 (Offset.distance (count + 4) 0))], ?_, ?_⟩
  · simp [overwriteAll, Reference.overwrite, size]
  · have known : (awaiting count).graph.node? ⟨1⟩ = some awaited := rfl
    rw [after, Operation.perform, IsText.state_withoutLabel, run_place_of_ok known rfl resolved]
    rfl

/-- A jump ahead over a number of bytes, and a return behind them. -/
def longJump (count : Nat) : List Operation :=
  jumpAhead count ++ [.place ⟨1⟩, .instruction [0xb1] 0]

/-- The label of the jump is placed, and then the return is written. -/
theorem afterAll_longJump (count : Nat) :
    (start { computeMaxima := false } 0).afterAll (longJump count)
    = ((awaiting count).after (.place ⟨1⟩)).after (.instruction [0xb1] 0) := by
  rw [longJump, awaiting, afterAll_append, afterAll_cons, afterAll_cons, afterAll_nil]

/-- The label of the jump is created first. -/
theorem namesKnown_longJump (count : Nat) :
    (start { computeMaxima := false } 0).NamesKnown (longJump count) := by
  have created (label : Label) (member : label ∈ [⟨1⟩]) :
      (((start { computeMaxima := false } 0).after .freshLabel).graph.node? label).isSome := by
    obtain rfl := List.mem_singleton.mp member
    rfl
  have waits (label : Label) (member : label ∈ [⟨1⟩]) :
      ((awaiting count).graph.node? label).isSome := by
    obtain rfl := List.mem_singleton.mp member
    rfl
  exact ⟨List.forall_mem_nil _, created, List.forall_mem_nil _, waits,
    List.forall_mem_nil _, trivial⟩

/-- The method is finished, and the label of the jump lies behind the bytes that it leads over. -/
theorem exists_finished_longJump {count : Nat} (far : 32764 ≤ count) (close : count ≤ 65530) :
    ∃ code, (finish.run ((start { computeMaxima := false } 0).afterAll (longJump count))).answer
        = .ok code ∧ code.graph.offset? ⟨1⟩ = some (count + 4) := by
  obtain ⟨written, size, placed⟩ := exists_after_place_awaiting far (by omega)
  rw [afterAll_longJump, placed]
  let returned := ((awaiting count).placed ⟨1⟩ awaited written true).after (.instruction [0xb1] 0)
  have cursor : returned.code.cursor = count + 5 := by
    change (written.append [0xb1]).size = count + 5
    simp [size]
  have complete : returned.unfinished? = none := by
    have fits : ¬ 65535 < count + 5 := by omega
    unfold unfinished?
    simp only [cursor]
    exact if_neg fits
  obtain ⟨code, finished, -⟩ := exists_finished complete rfl rfl rfl rfl
  obtain ⟨_, _, finishes⟩ := exists_finishes finished
  refine ⟨code, finished, ?_⟩
  rw [finishes.offset?_eq]
  exact congrArg some (size_awaiting count)

/-- The moment of the jump. -/
def longJumpMoment : Moment :=
  ⟨(start { computeMaxima := false } 0).after .freshLabel, .jump Opcode.goto ⟨1⟩⟩

/-- The jump comes right behind the creation of its label. -/
theorem mem_history_longJump (count : Nat) :
    longJumpMoment ∈ (start { computeMaxima := false } 0).history (longJump count) :=
  List.mem_cons_of_mem _ List.mem_cons_self

/-- The jump of the method leads one byte too far ahead, so the method has to be widened and the
jump is in its unsigned form. -/
theorem tracks_widening_longJump :
    ∃ code, (finish.run ((start { computeMaxima := false } 0).afterAll (longJump 32764))).answer
        = .ok code ∧
      code.TracksWidening ((start { computeMaxima := false } 0).history (longJump 32764)) ∧
      code.needsWidening = true ∧
      ∃ byte, code.code.byte? 0 = some byte ∧ Opcode.signedForm? byte = some Opcode.goto := by
  obtain ⟨code, finished, place⟩ := exists_finished_longJump (Nat.le_refl 32764) (by decide)
  have tracks := tracks_widening (namesKnown_longJump 32764) (by decide) finished
  have member := mem_history_longJump 32764
  have overshoots : longJumpMoment.Overshoots code.graph :=
    ⟨Opcode.goto, ⟨1⟩, 32768, rfl, rfl, rfl, place, Nat.le_refl _⟩
  obtain ⟨byte, found, unsigned, -⟩ :=
    tracks.opcodes longJumpMoment member Opcode.goto ⟨1⟩ rfl (by decide +kernel)
  exact ⟨code, finished, tracks, tracks.flag.mpr ⟨longJumpMoment, member, overshoots⟩, byte, found,
    unsigned overshoots⟩

end Assembler

end MethodBody
