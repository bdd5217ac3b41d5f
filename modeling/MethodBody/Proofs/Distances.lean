import MethodBody.Proofs.Finishing
import MethodBody.Proofs.Sizes

/-!
# Distances in finished methods

The code of a finished method is the text of its listing for the final offsets of the labels
(`isText_of_finishes`). So each distance in it can be read back: it leads from the instruction that
holds it to the label that was asked for (`finish_distances`).
-/

namespace MethodBody

/-- The unsigned form of a narrow branch is another opcode. -/
theorem Opcode.exists_unsignedForm? {opcode : Opcode} (branch : opcode.isNarrowBranch = true) :
    ∃ unsigned, opcode.unsignedForm? = some unsigned ∧ unsigned ≠ opcode := by
  have all : ∀ opcode : Opcode, opcode.isNarrowBranch = true →
      opcode.unsignedForm?.any (· ≠ opcode) = true := by
    decide +kernel
  obtain ⟨unsigned, form, other⟩ := (Option.any_eq_true _ _).mp (all opcode branch)
  exact ⟨unsigned, form, by simpa using other⟩

/-- The bytes of a branch that has its text: the opcode and a signed distance, or the unsigned form
of the opcode and an unsigned distance. -/
theorem Piece.reads_branch {code : Buffer} {front back : List UInt8}
    {opcode : Opcode} {offset : Nat} (branch : opcode.isNarrowBranch = true)
    (split : code.toList = front ++ branchText opcode front.length offset ++ back)
    (holds : Width.narrow.Fits (Offset.distance offset front.length) ∨
      BigEndian.FitsUnsigned 2 (Offset.distance offset front.length)) :
    (code.byte? front.length = some opcode ∧
      code.readSigned (front.length + 1) 2 = .ok (Offset.distance offset front.length)) ∨
    ∃ unsigned, opcode.unsignedForm? = some unsigned ∧ unsigned ≠ opcode ∧
      code.byte? front.length = some unsigned ∧ ∃ distance : Nat,
        Offset.distance offset front.length = distance ∧
        code.readUnsigned (front.length + 1) 2 = .ok distance := by
  have site (first : UInt8) : (front ++ [first]).length = front.length + 1 := by simp
  unfold branchText at split
  simp only at split
  by_cases fits : Width.narrow.Fits (Offset.distance offset front.length)
  · rw [if_pos fits, List.append_assoc, List.cons_append] at split
    have behind : code.toList = (front ++ [opcode])
        ++ BigEndian.encodeSigned 2 (Offset.distance offset front.length) ++ back := by
      rw [split]
      simp [Width.operand, Width.size]
    have read := Buffer.readSigned_of_split behind fits
    rw [site] at read
    exact .inl ⟨Buffer.byte?_of_split split, read⟩
  · have fitsUnsigned := holds.resolve_left fits
    obtain ⟨unsigned, form, other⟩ := Opcode.exists_unsignedForm? branch
    rw [if_neg fits, form, Option.getD_some, List.append_assoc, List.cons_append] at split
    have behind : code.toList = (front ++ [unsigned])
        ++ BigEndian.encodeSigned 2 (Offset.distance offset front.length) ++ back := by
      rw [split]
      simp
    have read := Buffer.readUnsigned_of_split behind fitsUnsigned
    rw [site] at read
    have positive := Int.toNat_of_nonneg fitsUnsigned.1
    exact .inr ⟨unsigned, form, other, Buffer.byte?_of_split split, _, positive.symm, read⟩

namespace Mention

variable {code : Buffer} {front back : List UInt8} {opcode : Opcode} {target : Label}

/-- The distance behind a branch that has its text. -/
theorem distance?_branch {offset : Nat} (branch : opcode.isNarrowBranch = true)
    (split : code.toList = front ++ Piece.branchText opcode front.length offset ++ back)
    (holds : Width.narrow.Fits (Offset.distance offset front.length) ∨
      BigEndian.FitsUnsigned 2 (Offset.distance offset front.length)) :
    (Mention.mk target front.length (front.length + 1) (some opcode)).distance? code
      = some (Offset.distance offset front.length) := by
  unfold distance?
  simp only
  rcases Piece.reads_branch branch split holds with
    ⟨first, read⟩ | ⟨unsigned, form, other, first, distance, same, read⟩
  · rw [if_pos first, Width.size, read]
    rfl
  · have different : code.byte? front.length ≠ some opcode := by
      rw [first]
      simpa using other
    rw [if_neg different, form, if_pos first, Width.size, read, same]
    rfl

/-- The distance in a wide operand that has its text. -/
theorem distance?_wide {source offset : Nat}
    (split : code.toList
      = front ++ Width.wide.operand (Offset.distance offset source) ++ back)
    (fits : Width.wide.Fits (Offset.distance offset source)) :
    (Mention.mk target source front.length none).distance? code
      = some (Offset.distance offset source) := by
  have read := Buffer.readSigned_of_split split fits
  simp only [distance?]
  rw [read]
  rfl

end Mention

namespace Piece

variable {offset? : Label → Option Nat} {code : Buffer} {mention : Mention} {offset : Nat}

/-- The distance in a piece that has its text. -/
theorem distance?_of_mention? {front back : List UInt8} {piece : Piece}
    (split : code.toList = front ++ piece.text offset? front.length ++ back)
    (holds : piece.Holds offset? front.length)
    (mentioned : piece.mention? front.length = some mention)
    (placed : offset? mention.target = some offset) :
    mention.distance? code = some (Offset.distance offset mention.source) := by
  cases piece with
  | literal bytes => simp [mention?] at mentioned
  | branch opcode target =>
    obtain rfl := Option.some.inj mentioned
    simp only at placed
    rw [text, placed] at split
    exact Mention.distance?_branch holds.1 split (holds.2 offset placed)
  | distance source target =>
    obtain rfl := Option.some.inj mentioned
    simp only at placed
    rw [text, placed] at split
    exact Mention.distance?_wide split (holds offset placed)

/-- The distances in pieces that have their text. -/
theorem distance?_of_mem_mentions {start : Nat} {front back : List UInt8} {pieces : List Piece}
    (split : code.toList = front ++ textAll offset? start pieces ++ back)
    (here : front.length = start) (holds : HoldAll offset? start pieces)
    (mentioned : mention ∈ mentions start pieces) (placed : offset? mention.target = some offset) :
    mention.distance? code = some (Offset.distance offset mention.source) := by
  induction pieces generalizing start front with
  | nil => simp [mentions] at mentioned
  | cons piece rest ih =>
    subst here
    rw [textAll] at split
    rw [mentions, List.mem_append] at mentioned
    rcases mentioned with first | later
    · have around : code.toList = front ++ piece.text offset? front.length
          ++ (textAll offset? (front.length + piece.size) rest ++ back) := by
        rw [split]
        simp
      exact distance?_of_mention? around holds.1 (Option.mem_toList.mp first) placed
    · have around : code.toList = (front ++ piece.text offset? front.length)
          ++ textAll offset? (front.length + piece.size) rest ++ back := by
        rw [split]
        simp
      exact ih around (by simp) holds.2 later

/-- A label that is mentioned is referred to. -/
theorem references_ne_nil {start : Nat} {pieces : List Piece}
    (mentioned : mention ∈ mentions start pieces) :
    references mention.target start pieces ≠ [] := by
  induction pieces generalizing start with
  | nil => simp [mentions] at mentioned
  | cons piece rest ih =>
    rw [mentions, List.mem_append] at mentioned
    rw [references]
    rcases mentioned with first | later
    · have found := Option.mem_toList.mp first
      cases piece with
      | literal bytes => simp [mention?] at found
      | branch opcode target =>
        obtain rfl := Option.some.inj found
        simp [reference?]
      | distance source target =>
        obtain rfl := Option.some.inj found
        simp [reference?]
    · exact List.append_ne_nil_of_right_ne_nil _ (ih later)

/-- A distance is counted from its own branch, or from the source in its piece. -/
theorem source_of_mem_mentions {start : Nat} {pieces : List Piece}
    (mentioned : mention ∈ mentions start pieces) :
    mention.source < start + totalSize pieces ∨
      .distance mention.source mention.target ∈ pieces := by
  induction pieces generalizing start with
  | nil => simp [mentions] at mentioned
  | cons piece rest ih =>
    rw [mentions, List.mem_append] at mentioned
    rcases mentioned with first | later
    · have found := Option.mem_toList.mp first
      cases piece with
      | literal bytes => simp [mention?] at found
      | branch opcode target =>
        obtain rfl := Option.some.inj found
        left
        simp only [totalSize_cons, size]
        omega
      | distance source target =>
        obtain rfl := Option.some.inj found
        exact .inr List.mem_cons_self
    · rcases ih later with inside | listed
      · left
        simp only [totalSize_cons]
        omega
      · exact .inr (List.mem_cons_of_mem _ listed)

end Piece

namespace Listed

/-- Every distance is counted from an opcode of its instruction. -/
theorem source_lt_stop {listed : Listed} {mention : Mention}
    (mentioned : mention ∈ listed.mentions) :
    mention.source < listed.stop := by
  rcases Piece.source_of_mem_mentions mentioned with inside | piece
  · exact inside
  · obtain ⟨offset, instruction⟩ := listed
    unfold stop
    simp only [pieces] at piece ⊢
    cases instruction with
    | plain bytes delta => simp [Instruction.pieces] at piece
    | onLocal instruction => simp [Instruction.pieces] at piece
    | jump opcode form target =>
      cases form with
      | plain written width =>
        cases width with
        | narrow => simp [Instruction.pieces] at piece
        | wide =>
          simp only [Instruction.pieces, List.mem_cons, reduceCtorEq, Piece.distance.injEq,
            List.not_mem_nil, or_false, false_or] at piece
          simp [Instruction.pieces, Piece.size, Width.size, piece.1]
      | inverted inverse =>
        simp only [Instruction.pieces, List.mem_cons, reduceCtorEq, Piece.distance.injEq,
          List.not_mem_nil, or_false, false_or] at piece
        simp [Instruction.pieces, Piece.size, Width.size, piece.1]
    | tableSwitch low high fallback targets =>
      have own : mention.source = offset := by
        simp only [Instruction.pieces, List.mem_cons, reduceCtorEq, Piece.distance.injEq,
          List.mem_map, false_or] at piece
        rcases piece with first | ⟨target, _, source, _⟩
        · exact first.1
        · exact source.symm
      simp only [Instruction.pieces, Piece.totalSize_cons, Piece.size, Instruction.switchHead,
        List.length_cons, own]
      omega
    | lookupSwitch fallback cases =>
      have own : mention.source = offset := by
        simp only [Instruction.pieces, List.mem_cons, reduceCtorEq, Piece.distance.injEq,
          List.mem_flatMap, false_or, List.not_mem_nil, or_false] at piece
        rcases piece with first | ⟨one, _, source, _⟩
        · exact first.1
        · exact source
      simp only [Instruction.pieces, Piece.totalSize_cons, Piece.size, Instruction.switchHead,
        List.length_cons, own]
      omega

/-- The distances in instructions that follow each other. -/
theorem mentions_flatMap_pieces {start : Nat} {listing : List Listed}
    (contiguous : Assembler.Contiguous start listing) :
    Piece.mentions start (listing.flatMap pieces) = listing.flatMap mentions := by
  induction listing generalizing start with
  | nil => rfl
  | cons listed rest ih =>
    obtain ⟨rfl, others⟩ := contiguous
    have later := ih others
    rw [stop] at later
    rw [List.flatMap_cons, List.flatMap_cons, Piece.mentions_append, later]
    rfl

end Listed

namespace Assembler

/-- The listing of a run has no gaps. -/
theorem contiguous_listing {assembler : Assembler} {pieces : List Piece}
    {operations : List Operation} (text : assembler.IsText pieces)
    (known : assembler.NamesKnown operations)
    (small : (assembler.afterAll operations).code.size < 0x80000000) :
    Contiguous assembler.code.size (assembler.listing operations) := by
  induction operations generalizing assembler pieces with
  | nil => trivial
  | cons operation rest ih =>
    have shorter : (assembler.after operation).code.size < 0x80000000 :=
      Nat.lt_of_le_of_lt (size_le_afterAll (assembler.after operation) rest) small
    have written := text.after known.1 shorter
    have others := ih written known.2 small
    have size := written.size_eq
    rw [Piece.totalSize_append, ← text.size_eq] at size
    rw [listing]
    cases listed : assembler.listed? operation with
    | none =>
      simp only [listed, Option.toList_none, List.flatMap_nil, Piece.totalSize_nil,
        Nat.add_zero] at size
      rw [size] at others
      exact others
    | some found =>
      have here : found.offset = assembler.code.size := by
        obtain ⟨instruction, _, rfl⟩ := Option.map_eq_some_iff.mp listed
        rfl
      simp only [listed, Option.toList_some, List.flatMap_singleton] at size
      rw [size, ← here] at others
      exact ⟨here, others⟩

variable {settings : Settings} {parameterSlots : UInt16} {operations : List Operation}
  {code : MethodCode}

/-- Code that is short enough for a method file is far from the limit of wide distances. -/
theorem size_le_of_finishes {assembler : Assembler} {handled returned : FlowGraph}
    (finishes : assembler.Finishes handled returned code)
    (short : assembler.settings.maxCodeLength ≤ 65535) : assembler.code.size ≤ 65535 := by
  have bounded := (of_unfinished?_eq_none finishes.complete).2.2
  omega

/-- A label that is referred to has its place when the method is finished. -/
theorem isSome_offset?_of_references {assembler : Assembler} {handled returned : FlowGraph}
    {pieces : List Piece} {label : Label} (text : assembler.IsText pieces)
    (finishes : assembler.Finishes handled returned code)
    (referred : Piece.references label 0 pieces ≠ []) :
    (assembler.graph.offset? label).isSome := by
  cases found : assembler.graph.node? label with
  | none =>
    have unknown : assembler.graph.placement? label = none := by
      simp [FlowGraph.placement?, found]
    exact absurd (text.unknown label unknown) referred
  | some node =>
    cases placement : node.placement with
    | placed offset => simp [FlowGraph.offset?, found, Node.offset?, placement]
    | pending ledger =>
      have waits : assembler.graph.placement? label = some (.pending ledger) := by
        simp [FlowGraph.placement?, found, placement]
      have complete := (of_unfinished?_eq_none finishes.complete).2.1
      have none := (of_unplacedTargets_eq_nil complete found).1
      have listed := text.pending label ledger waits
      simp only [Node.pending, placement] at none
      rw [← Ledger.length_references, listed, List.length_eq_zero_iff] at none
      exact absurd none referred

/-- The code of a run that is finished is the text of its listing. -/
theorem isText_of_finishes {handled returned : FlowGraph}
    (known : (start settings parameterSlots).NamesKnown operations)
    (short : settings.maxCodeLength ≤ 65535)
    (finishes :
      ((start settings parameterSlots).afterAll operations).Finishes handled returned code) :
    ((start settings parameterSlots).afterAll operations).IsText
        (((start settings parameterSlots).listing operations).flatMap Listed.pieces) ∧
      Contiguous 0 ((start settings parameterSlots).listing operations) := by
  have size := size_le_of_finishes finishes (by rw [settings_afterAll]; exact short)
  have small : ((start settings parameterSlots).afterAll operations).code.size
      < 0x80000000 := by omega
  have text := IsText.start settings parameterSlots
  exact ⟨text.afterAll known small, contiguous_listing text known small⟩

/-- Every distance in a finished method leads from the instruction that holds it to the final offset
of the label that was asked for. The instructions make up all of the code, and no reference is left
to be filled in. -/
theorem finish_distances (known : (start settings parameterSlots).NamesKnown operations)
    (short : settings.maxCodeLength ≤ 65535)
    (finished :
      (finish.run ((start settings parameterSlots).afterAll operations)).answer = .ok code) :
    (∀ listed ∈ (start settings parameterSlots).listing operations,
      ∀ mention ∈ listed.mentions, ∃ offset, code.graph.offset? mention.target = some offset ∧
        mention.distance? code.code = some ((offset : Int) - mention.source)) ∧
      Piece.totalSize (((start settings parameterSlots).listing operations).flatMap Listed.pieces)
        = code.code.size ∧
      ∀ label node, code.graph.node? label = some node → node.pending = 0 := by
  obtain ⟨handled, returned, finishes⟩ := exists_finishes finished
  obtain ⟨text, contiguous⟩ := isText_of_finishes known short finishes
  have size := size_le_of_finishes finishes (by rw [settings_afterAll]; exact short)
  refine ⟨?_, ?_, ?_⟩
  · intro listed member mention mentioned
    have everywhere : mention ∈ Piece.mentions 0
        (((start settings parameterSlots).listing operations).flatMap Listed.pieces) := by
      rw [Listed.mentions_flatMap_pieces contiguous]
      exact List.mem_flatMap.mpr ⟨listed, member, mentioned⟩
    obtain ⟨offset, placed⟩ := Option.isSome_iff_exists.mp
      (isSome_offset?_of_references text finishes (Piece.references_ne_nil everywhere))
    have whole : code.code.toList = [] ++ Piece.textAll
        ((start settings parameterSlots).afterAll operations).graph.offset? 0
        (((start settings parameterSlots).listing operations).flatMap Listed.pieces) ++ [] := by
      rw [finishes.code_eq]
      simpa using text.code
    have read := Piece.distance?_of_mem_mentions whole rfl text.holds everywhere placed
    have target := text.behind mention.target offset placed
    have source := Listed.source_lt_stop mentioned
    have inside := (Listed.stop_le contiguous member).2
    rw [← text.size_eq] at inside
    rw [Offset.distance_eq_sub (by omega) (by omega)] at read
    exact ⟨offset, by rw [finishes.offset?_eq, placed], read⟩
  · rw [finishes.code_eq, text.size_eq]
  · intro label node found
    have complete := (of_unfinished?_eq_none finishes.complete).2.1
    have same := congrFun finishes.samePlaces label
    simp only [FlowGraph.placement?, found, Option.map_some] at same
    obtain ⟨before, was, placement⟩ := Option.map_eq_some_iff.mp same.symm
    have none := (of_unplacedTargets_eq_nil complete was).1
    rw [Node.pending, ← placement]
    exact none

/-- A jump forward, a label that is placed twice, and a switch back. -/
def loopingSwitch : List Operation :=
  [.freshLabel, .jump Opcode.goto ⟨1⟩, .place ⟨1⟩, .place ⟨1⟩, .instruction [0x03] 1,
    .tableSwitch 0 0 ⟨1⟩ [⟨1⟩]]

/-- The jump and the switch of a method lead to the label between them, though placing it a second
time fails. -/
theorem finish_distances_loopingSwitch :
    ∃ code, (finish.run ((start { computeMaxima := false } 0).afterAll loopingSwitch)).answer
        = .ok code ∧
      (∀ listed ∈ (start { computeMaxima := false } 0).listing loopingSwitch,
        ∀ mention ∈ listed.mentions, ∃ offset, code.graph.offset? mention.target = some offset ∧
          mention.distance? code.code = some ((offset : Int) - mention.source)) ∧
      ((start { computeMaxima := false } 0).listing loopingSwitch).flatMap Listed.mentions
        = [⟨⟨1⟩, 0, 1, some Opcode.goto⟩, ⟨⟨1⟩, 4, 8, none⟩, ⟨⟨1⟩, 4, 20, none⟩] := by
  obtain ⟨code, finished⟩ : ∃ code, (finish.run
      ((start { computeMaxima := false } 0).afterAll loopingSwitch)).answer = .ok code := ⟨_, rfl⟩
  have known : (start { computeMaxima := false } 0).NamesKnown loopingSwitch := by decide
  exact ⟨code, finished, (finish_distances known (by decide) finished).1, by decide⟩

end Assembler

end MethodBody
