import MethodBody.Proofs.Distances
import MethodBody.Proofs.Refusals

/-!
# Placing labels

A reference to a label that has no offset yet stays as it was written until the label is placed: its
placeholder lies in the code, and a narrow one stands behind the branch that was emitted
(`Reference.Waits`). So a label can always be placed, unless it has been placed before or a branch
to it is too far away even for its unsigned form (`place_answers`).
-/

namespace MethodBody

/-- The references that wait for the offset, in the order in which they were made. -/
def Placement.waiting : Placement → List Reference
  | pending ledger => ledger.toList
  | placed _ => []

namespace Reference

/-- The distance is too long for a narrow operand, signed or not. -/
def TooFar (reference : Reference) (cursor : Nat) : Prop :=
  reference.width = .narrow ∧ 65535 < cursor - reference.source

instance (reference : Reference) (cursor : Nat) : Decidable (reference.TooFar cursor) :=
  inferInstanceAs (Decidable (_ ∧ _))

/-- The reference stands for a distance to the label that was written and not filled in yet. -/
structure Waits (reference : Reference) (label : Label) (code : Buffer) (listing : List Listed) :
    Prop where
  /-- The distance is counted from an opcode in the code. -/
  source : reference.source < code.size
  /-- The placeholder lies in the code. -/
  inside : reference.Inside code
  /-- The placeholder is still the distance -1. -/
  placeholder : code.slice? reference.site reference.width.size
    = some (reference.width.operand (-1))
  /-- The distance is one of an instruction that was written. A narrow one stands behind the branch
  that was emitted, which has not been given its unsigned form. -/
  emitted : ∃ branch? : Option Opcode,
    (∃ listed ∈ listing, ⟨label, reference.source, reference.site, branch?⟩ ∈ listed.mentions) ∧
      (reference.width = .narrow ↔ branch?.isSome) ∧
      ∀ opcode ∈ branch?, opcode.isNarrowBranch = true ∧
        code.byte? reference.source = some opcode

end Reference

namespace Piece

variable {label : Label} {reference : Reference}

/-- A reference belongs to one of the pieces, with some in front of it and some behind it. -/
theorem exists_split_of_mem_references {start : Nat} {pieces : List Piece}
    (member : reference ∈ references label start pieces) :
    ∃ front piece back, pieces = front ++ piece :: back ∧
      piece.reference? label (start + totalSize front) = some reference := by
  induction pieces generalizing start with
  | nil => simp [references] at member
  | cons piece rest ih =>
    rw [references, List.mem_append] at member
    rcases member with here | later
    · exact ⟨[], piece, rest, rfl, Option.mem_toList.mp here⟩
    · obtain ⟨front, other, back, rfl, refers⟩ := ih later
      refine ⟨piece :: front, other, back, rfl, ?_⟩
      rw [totalSize_cons, ← Nat.add_assoc]
      exact refers

/-- The branch that a narrow reference belongs to. -/
def branch? : Piece → Option Opcode
  | literal _ | distance .. => none
  | branch opcode _ => some opcode

/-- A reference stands for a distance in the pieces. -/
theorem mem_mentions_of_reference? {start : Nat} {front : List Piece} {piece : Piece}
    (refers : piece.reference? label (start + totalSize front) = some reference)
    (back : List Piece) :
    ⟨label, reference.source, reference.site, piece.branch?⟩
      ∈ mentions start (front ++ piece :: back) := by
  rw [mentions_append, mentions]
  refine List.mem_append_right _ (List.mem_append_left _ (Option.mem_toList.mpr ?_))
  cases piece with
  | literal bytes => simp [reference?] at refers
  | branch opcode target =>
    simp only [reference?, Option.ite_none_right_eq_some, Option.some.injEq] at refers
    obtain ⟨rfl, rfl⟩ := refers
    rfl
  | distance source target =>
    simp only [reference?, Option.ite_none_right_eq_some, Option.some.injEq] at refers
    obtain ⟨rfl, rfl⟩ := refers
    rfl

/-- The code holds the placeholder of a reference whose label has no offset, and in front of a
narrow one the branch. -/
theorem reads_placeholder {offset? : Label → Option Nat} (unplaced : offset? label = none)
    {code : Buffer} {front back : List UInt8} {piece : Piece}
    (split : code.toList = front ++ piece.text offset? front.length ++ back)
    (refers : piece.reference? label front.length = some reference) :
    code.slice? reference.site reference.width.size = some (reference.width.operand (-1)) ∧
      (reference.width = .narrow ↔ piece.branch?.isSome) ∧
      ∀ opcode ∈ piece.branch?, code.byte? reference.source = some opcode := by
  cases piece with
  | literal bytes => simp [reference?] at refers
  | branch opcode target =>
    simp only [reference?, Option.ite_none_right_eq_some, Option.some.injEq] at refers
    obtain ⟨rfl, rfl⟩ := refers
    simp only [text, unplaced] at split
    have behind : code.toList = (front ++ [opcode]) ++ Width.narrow.operand (-1) ++ back := by
      simp [split]
    have stretch := Buffer.slice?_of_split behind
    rw [List.append_assoc, List.cons_append] at split
    refine ⟨by simpa using stretch, by simp [branch?], ?_⟩
    intro other is
    obtain rfl : opcode = other := by simpa [branch?] using is
    exact Buffer.byte?_of_split split
  | distance source target =>
    simp only [reference?, Option.ite_none_right_eq_some, Option.some.injEq] at refers
    obtain ⟨rfl, rfl⟩ := refers
    simp only [text, unplaced] at split
    have stretch := Buffer.slice?_of_split split
    exact ⟨by simpa using stretch, by simp [branch?], by simp [branch?]⟩

end Piece

namespace Assembler

variable {assembler : Assembler} {listing : List Listed} {label : Label} {reference : Reference}

/-- Every reference to a label without an offset waits for it. -/
theorem IsText.waits (text : assembler.IsText (listing.flatMap Listed.pieces))
    (contiguous : Contiguous 0 listing) {node : Node}
    (known : assembler.graph.node? label = some node)
    (member : reference ∈ node.placement.waiting) :
    reference.Waits label assembler.code listing := by
  cases placement : node.placement with
  | placed offset => simp [placement, Placement.waiting] at member
  | pending ledger =>
    rw [placement] at member
    have inside := text.inside known placement reference member
    have unplaced : assembler.graph.offset? label = none := by
      simp [FlowGraph.offset?, known, Node.offset?, placement]
    have listed := text.pending label ledger (by simp [FlowGraph.placement?, known, placement])
    rw [Placement.waiting, listed] at member
    obtain ⟨front, piece, back, split, refers⟩ := Piece.exists_split_of_mem_references member
    have mentioned := Piece.mem_mentions_of_reference? refers back
    rw [Nat.zero_add] at refers
    rw [← split, Listed.mentions_flatMap_pieces contiguous] at mentioned
    obtain ⟨instruction, inListing, mentions⟩ := List.mem_flatMap.mp mentioned
    have holds := text.holds
    have whole := text.code
    rw [split, Piece.textAll_append, Piece.textAll, ← List.append_assoc, Nat.zero_add] at whole
    rw [split, Piece.holdAll_append] at holds
    have size : (Piece.textAll assembler.graph.offset? 0 front).length = Piece.totalSize front :=
      Piece.length_textAll _ _ _
    rw [← size] at whole refers
    obtain ⟨placeholder, narrow, byte⟩ := Piece.reads_placeholder unplaced whole refers
    refine ⟨?_, inside, placeholder, piece.branch?, ⟨instruction, inListing, mentions⟩, narrow, ?_⟩
    · have before := Listed.source_lt_stop mentions
      have within := (Listed.stop_le contiguous inListing).2
      rw [← text.size_eq] at within
      simp only at before
      omega
    · intro opcode is
      refine ⟨?_, byte opcode is⟩
      cases piece with
      | literal bytes => simp [Piece.branch?] at is
      | distance source target => simp [Piece.branch?] at is
      | branch other target =>
        obtain rfl : other = opcode := by simpa [Piece.branch?] using is
        exact holds.2.1.1

end Assembler

namespace Reference

variable {reference : Reference} {label : Label} {code : Buffer} {listing : List Listed}

/-- As long as the code is short, a reference that waits can be filled in, unless it is too far
away. -/
theorem Waits.plan_eq (waits : reference.Waits label code listing)
    (short : code.size < 0x80000000) :
    if reference.TooFar code.cursor then
      reference.plan code code.cursor = .error (.codeTooLong code.cursor)
    else ∃ patch, reference.plan code code.cursor = .ok patch := by
  have behind := waits.source
  have cursor : code.cursor = code.size := rfl
  have distance : Offset.distance code.cursor reference.source
      = (code.cursor : Int) - reference.source := Offset.distance_eq_sub (by omega) (by omega)
  obtain ⟨branch?, _, narrow, emitted⟩ := waits.emitted
  cases width : reference.width with
  | wide =>
    have fits : Width.wide.Fits (Offset.distance code.cursor reference.source) := by
      rw [distance]
      constructor <;> simp [Width.size] <;> omega
    rw [if_neg (by simp [TooFar, width])]
    simp [plan, width, fits]
  | narrow =>
    obtain ⟨opcode, rfl⟩ := Option.isSome_iff_exists.mp (narrow.mp width)
    obtain ⟨branch, byte⟩ := emitted opcode rfl
    obtain ⟨unsigned, form, _⟩ := Opcode.exists_unsignedForm? branch
    by_cases fits : Width.narrow.Fits (Offset.distance code.cursor reference.source)
    · have near : ¬ reference.TooFar code.cursor := by
        rw [distance] at fits
        have upper := fits.2
        simp only [Width.size, BigEndian.modulus_two] at upper
        rintro ⟨_, far⟩
        omega
      rw [if_neg near]
      simp [plan, width, fits]
    · have planned : reference.plan code code.cursor
          = if BigEndian.FitsUnsigned 2 (Offset.distance code.cursor reference.source) then
              .ok (.unsigned unsigned (Offset.distance code.cursor reference.source))
            else .error (.codeTooLong code.cursor) := by
        simp only [plan, width, fits, if_false, planUnsigned, byte, form]
        rfl
      have iff : BigEndian.FitsUnsigned 2 (Offset.distance code.cursor reference.source)
          ↔ ¬ reference.TooFar code.cursor := by
        simp only [BigEndian.FitsUnsigned, distance, BigEndian.modulus_two, TooFar, width, true_and]
        omega
      rw [planned]
      by_cases far : reference.TooFar code.cursor
      · rw [if_pos far, if_neg (by rw [iff]; exact not_not.mpr far)]
      · rw [if_neg far, if_pos (iff.mpr far)]
        exact ⟨_, rfl⟩

end Reference

namespace Assembler

variable {assembler : Assembler} {listing : List Listed} {label : Label} {node : Node}

/-- The answer when a label is placed. -/
theorem IsText.answer_place (text : assembler.IsText (listing.flatMap Listed.pieces))
    (contiguous : Contiguous 0 listing) (short : assembler.code.size < 0x80000000)
    (known : assembler.graph.node? label = some node) (named : node.label = label) :
    ((Assembler.place label).run assembler).answer =
      if node.isPlaced then .error (.placedTwice label)
      else if ∃ reference ∈ node.placement.waiting, reference.TooFar assembler.code.cursor then
        .error (.codeTooLong assembler.code.cursor)
      else .ok () := by
  have plan (reference : Reference) (member : reference ∈ node.placement.waiting) :=
    (text.waits contiguous known member).plan_eq short
  cases placement : node.placement with
  | placed offset =>
    have isPlaced : node.isPlaced = true := by simp [Node.isPlaced, Node.offset?, placement]
    rw [run_place_of_placed known placement, if_pos isPlaced, named]
  | pending ledger =>
    have unplaced : node.isPlaced = false := by simp [Node.isPlaced, Node.offset?, placement]
    rw [placement] at plan
    rw [unplaced, if_neg (by simp)]
    split
    · rename_i far
      obtain ⟨reference, member, far⟩ := far
      have refused : ledger.plan assembler.code assembler.code.cursor
          = .error (.codeTooLong assembler.code.cursor) := by
        refine mapM_eq_error ?_ ⟨reference, member, ?_⟩
        · intro other inside cause failure
          have answer := plan other inside
          split at answer
          · rw [answer] at failure
            exact (Except.error.inj failure).symm
          · obtain ⟨patch, planned⟩ := answer
            simp [planned] at failure
        · have answer := plan reference member
          rw [if_pos far] at answer
          simp [answer]
      rw [run_place_of_error known placement (Ledger.run_resolve_of_refused refused)]
    · rename_i near
      obtain ⟨planned, plans⟩ : ∃ planned, ledger.plan assembler.code assembler.code.cursor
          = .ok planned := by
        refine exists_mapM_eq_ok fun reference member => ?_
        have answer := plan reference member
        rw [if_neg fun far => near ⟨reference, member, far⟩] at answer
        obtain ⟨patch, planned⟩ := answer
        exact ⟨_, by rw [planned]; rfl⟩
      obtain ⟨events, resolved⟩ :=
        Ledger.run_resolve_of_planned plans (text.inside known placement)
      rw [run_place_of_ok known placement resolved]

variable {settings : Settings} {parameterSlots : UInt16} {operations : List Operation}

/-- Placing a label fails in two cases only: the label has its place already, or a narrow reference
that waits for it is too far away even for the unsigned form of its branch. Everything that waits
for any label is still as it was written, so nothing is ever read or overwritten outside the code,
and every opcode that has to be given its unsigned form has one. -/
theorem place_answers (known : (start settings parameterSlots).NamesKnown operations)
    (short : ((start settings parameterSlots).afterAll operations).code.size < 0x80000000)
    {label : Label} {node : Node}
    (created : ((start settings parameterSlots).afterAll operations).graph.node? label
      = some node) :
    let assembler := (start settings parameterSlots).afterAll operations
    let answer := ((place label).run assembler).answer
    let tooFar := ∃ reference ∈ node.placement.waiting, reference.TooFar assembler.code.cursor
    (answer = .error (.placedTwice label) ↔ node.isPlaced = true) ∧
      (answer = .error (.codeTooLong assembler.code.cursor) ↔ node.isPlaced = false ∧ tooFar) ∧
      (answer = .ok () ↔ node.isPlaced = false ∧ ¬ tooFar) ∧
      ∀ other found, assembler.graph.node? other = some found →
        ∀ reference ∈ found.placement.waiting, reference.Waits other assembler.code
          ((start settings parameterSlots).listing operations) := by
  intro assembler answer tooFar
  have first := IsText.start settings parameterSlots
  have text := first.afterAll known short
  have contiguous := contiguous_listing first known short
  have named :=
    ((anchored_afterAll settings parameterSlots operations).labels label node created).named
  have answered : answer = _ := IsText.answer_place text contiguous short created named
  have waits : ∀ other found, assembler.graph.node? other = some found →
      ∀ reference ∈ found.placement.waiting, reference.Waits other assembler.code
        ((start settings parameterSlots).listing operations) :=
    fun other found isKnown reference member => text.waits contiguous isKnown member
  cases placed : node.isPlaced with
  | true =>
    rw [placed, if_pos rfl] at answered
    exact ⟨by simp [answered], by simp [answered], by simp [answered], waits⟩
  | false =>
    rw [placed, if_neg (by simp)] at answered
    by_cases far : tooFar
    · rw [if_pos far] at answered
      exact ⟨by simp [answered], by simp [answered, far, assembler], by simp [answered, far], waits⟩
    · rw [if_neg far] at answered
      exact ⟨by simp [answered], by simp [answered, far], by simp [answered, far], waits⟩

/-- A jump to a label that has no offset yet. -/
def waitingJump : List Operation := [.freshLabel, .jump Opcode.goto ⟨1⟩]

/-- The label that a jump waits for can be placed, and the jump still waits for it. -/
theorem place_answers_waitingJump :
    ∃ node, ((start {} 0).afterAll waitingJump).graph.node? ⟨1⟩ = some node ∧
      node.placement.waiting = [⟨0, .narrow, 1⟩] ∧
      ((place ⟨1⟩).run ((start {} 0).afterAll waitingJump)).answer = .ok () ∧
      (Reference.mk 0 .narrow 1).Waits ⟨1⟩ ((start {} 0).afterAll waitingJump).code
        ((start {} 0).listing waitingJump) := by
  obtain ⟨node, created⟩ : ∃ node,
      ((start {} 0).afterAll waitingJump).graph.node? ⟨1⟩ = some node := ⟨_, rfl⟩
  have only : node.placement.waiting = [⟨0, .narrow, 1⟩] := by
    obtain rfl := Option.some.inj created
    rfl
  have unplaced : node.isPlaced = false := by
    obtain rfl := Option.some.inj created
    rfl
  have known : (start {} 0).NamesKnown waitingJump := by decide
  obtain ⟨_, _, succeeds, waits⟩ := place_answers known (by decide) created
  refine ⟨node, created, only, succeeds.mpr ⟨unplaced, ?_⟩,
    waits ⟨1⟩ node created _ (by simp [only])⟩
  rintro ⟨reference, member, far⟩
  obtain rfl : reference = ⟨0, .narrow, 1⟩ := by simpa [only] using member
  exact absurd far (by decide)

end Assembler

end MethodBody
