import MethodBody.Proofs.Positions
import MethodBody.Proofs.Stability

/-!
# Branches that have to be widened

A jump to a label without an offset gets the operand of its opcode, however far away the label is
placed in the end. Whether some branch turned out to be too long is noted when the label is placed.
The note says the same as the offsets of the labels do at any point of a run
(`Assembler.NotesWidening`). So a method needs widening exactly if some jump to a label that was
placed later leads too far ahead (`needsWidening_afterAll`).
-/

namespace MethodBody

/-- A branch is to be given its unsigned form exactly if its operand is narrow and too small. -/
theorem Reference.isUnsigned_iff {reference : Reference} {code : Buffer} {target : Nat}
    {patch : Patch} (planned : reference.plan code target = .ok patch) :
    patch.isUnsigned = true ↔ reference.width = .narrow ∧
      ¬ Width.narrow.Fits (Offset.distance target reference.source) := by
  obtain ⟨source, width, site⟩ := reference
  unfold plan at planned
  simp only at planned ⊢
  by_cases fits : width.Fits (Offset.distance target source)
  · rw [if_pos fits] at planned
    obtain rfl := Except.ok.inj planned
    simp only [Patch.isUnsigned, Bool.false_eq_true, false_iff, not_and, not_not]
    rintro rfl
    exact fits
  · rw [if_neg fits] at planned
    cases width with
    | wide => simp at planned
    | narrow =>
      simp only [planUnsigned] at planned
      -- Only a distance that fits the unsigned form is planned at all.
      have unsigned : patch.isUnsigned = true := by
        split at planned
        · split at planned
          · split at planned
            · obtain rfl := Except.ok.inj planned
              rfl
            · cases planned
          · cases planned
        · cases planned
      simpa [unsigned] using fits

/-- Branches are given their unsigned form exactly if some reference that waits is narrow and too
small. -/
theorem Ledger.rewrites_iff {code : Buffer} {target : Nat} {references : List Reference}
    {planned : List (Reference × Patch)}
    (plans : (references.mapM fun reference => (reference, ·) <$> reference.plan code target)
      = .ok planned) :
    rewrites planned = true ↔ ∃ reference ∈ references, reference.width = .narrow ∧
      ¬ Width.narrow.Fits (Offset.distance target reference.source) := by
  induction references generalizing planned with
  | nil =>
    obtain rfl : [] = planned := Except.ok.inj plans
    simp [rewrites]
  | cons reference rest ih =>
    obtain ⟨first, later, one, others, rfl⟩ := mapM_cons_eq_ok.mp plans
    obtain ⟨patch, plan, rfl⟩ := map_eq_ok.mp one
    have now := Reference.isUnsigned_iff plan
    have after := ih others
    rw [rewrites] at after ⊢
    rw [List.any_cons, Bool.or_eq_true, now, after]
    simp

namespace Mention

/-- The reference that waits for the label. -/
def reference (mention : Mention) : Reference := ⟨mention.source, mention.width, mention.site⟩

/-- A narrow operand is one of a branch. -/
theorem width_eq_narrow {mention : Mention} :
    mention.width = .narrow ↔ mention.branch?.isSome = true := by
  unfold width
  split <;> simp_all

/-- With one more label placed, the branches that are too long are the same as before, and those to
this label that are. -/
theorem overshoots_placing {mention : Mention} {offset? : Label → Option Nat} {label : Label}
    {offset : Nat} (unplaced : offset? label = none) :
    mention.Overshoots (placing offset? label offset) ↔ mention.Overshoots offset? ∨
      mention.target = label ∧ mention.width = .narrow ∧
        ¬ Width.narrow.Fits (Offset.distance offset mention.source) := by
  rw [width_eq_narrow]
  unfold Overshoots
  by_cases same : mention.target = label
  · simp [placing, same, unplaced]
  · simp [placing, same]

end Mention

namespace Piece

variable {mention : Mention} {start : Nat} {pieces : List Piece}

/-- The references to a label are those of the distances to it. -/
theorem mem_references_iff {label : Label} {reference : Reference} :
    reference ∈ references label start pieces ↔
      ∃ mention ∈ mentions start pieces, mention.target = label ∧
        mention.reference = reference := by
  induction pieces generalizing start with
  | nil => simp [references, mentions]
  | cons piece rest ih =>
    have first : piece.reference? label start = some reference ↔
        ∃ mention, piece.mention? start = some mention ∧ mention.target = label ∧
          mention.reference = reference := by
      cases piece with
      | literal bytes => simp [reference?, mention?]
      | branch opcode target => simp [reference?, mention?, Mention.reference, Mention.width]
      | distance source target => simp [reference?, mention?, Mention.reference, Mention.width]
    rw [references, mentions, List.mem_append, ih, Option.mem_toList, first]
    constructor
    · rintro (⟨mention, here, same⟩ | ⟨mention, later, same⟩)
      · exact ⟨mention, List.mem_append_left _ (Option.mem_toList.mpr here), same⟩
      · exact ⟨mention, List.mem_append_right _ later, same⟩
    · rintro ⟨mention, member, same⟩
      rcases List.mem_append.mp member with here | later
      · exact .inl ⟨mention, Option.mem_toList.mp here, same⟩
      · exact .inr ⟨mention, later, same⟩

/-- A narrow operand belongs to a branch among the pieces. -/
theorem branch_mem_of_mem_mentions {opcode : Opcode} (mentioned : mention ∈ mentions start pieces)
    (narrow : mention.branch? = some opcode) : .branch opcode mention.target ∈ pieces := by
  induction pieces generalizing start with
  | nil => simp [mentions] at mentioned
  | cons piece rest ih =>
    rw [mentions, List.mem_append] at mentioned
    rcases mentioned with first | later
    · have found := Option.mem_toList.mp first
      cases piece with
      | literal bytes => simp [mention?] at found
      | branch other target =>
        obtain rfl := Option.some.inj found
        obtain rfl : other = opcode := Option.some.inj narrow
        exact List.mem_cons_self
      | distance source target =>
        obtain rfl := Option.some.inj found
        simp at narrow
    · exact List.mem_cons_of_mem _ (ih later)

end Piece

/-- A narrow operand is too small for a distance ahead from 32768 on. -/
theorem Offset.not_fits_narrow_iff {target source : Nat} (ahead : source ≤ target)
    (small : target < 0x80000000) :
    ¬ Width.narrow.Fits (Offset.distance target source) ↔ source + 32768 ≤ target := by
  rw [Offset.distance_eq_sub (by omega) (by omega)]
  have range : BigEndian.modulus 2 = 65536 := rfl
  simp only [Width.Fits, BigEndian.FitsSigned, Width.size, range]
  omega

/-- The narrow operand of a jump. -/
def narrowMention (source : Nat) (opcode : Opcode) (target : Label) : Mention :=
  ⟨target, source, source + 1, some opcode⟩

/-- A jump has a narrow operand only if it is written with its own opcode, and is not known to be
too far away. -/
theorem Opcode.of_jumpForm?_narrow {opcode written : Opcode} {far : Bool}
    (chosen : opcode.jumpForm? far = some (.plain written .narrow)) :
    written = opcode ∧ far = false := by
  unfold jumpForm? at chosen
  simp only at chosen
  split at chosen
  · rename_i near
    obtain ⟨rfl, _⟩ := JumpForm.plain.inj (Option.some.inj chosen)
    exact ⟨rfl, by simpa using near⟩
  · split at chosen
    · simp at chosen
    · split at chosen
      · simp at chosen
      · simp at chosen

/-- The opcode that a jump of this form starts with. -/
def JumpForm.opcode : JumpForm → Opcode
  | plain opcode _ => opcode
  | inverted inverse => inverse

/-- A narrow branch to a label that is not known to be too far away is written as it is. -/
theorem Opcode.jumpForm?_narrow {opcode : Opcode} (branch : opcode.isNarrowBranch = true) :
    opcode.jumpForm? false = some (.plain opcode .narrow) := by
  have base := (Opcode.of_isNarrowBranch branch).2.1
  simp [jumpForm?, base]

namespace Assembler

variable {assembler later : Assembler} {operation : Operation} {listed : Listed} {mention : Mention}
  {pieces : List Piece}

/-- A jump that is listed has the form that its opcode and its label ask for. -/
theorem exists_form_of_emitted? {opcode : Opcode} {target : Label} {instruction : Instruction}
    (emitted : (Operation.jump opcode target).emitted? assembler = some instruction) :
    opcode.isJump = true ∧ ∃ node form, instruction = .jump opcode form target ∧
      assembler.graph.node? target = some node ∧
        opcode.jumpForm? (node.isFarBefore assembler.code.cursor) = some form := by
  cases known : assembler.graph.node? target with
  | none => simp [Operation.emitted?, known] at emitted
  | some node =>
    simp only [Operation.emitted?, known, Option.bind_eq_bind, Option.bind_some] at emitted
    split at emitted
    · rename_i allowed
      obtain ⟨form, chosen, same⟩ := Option.bind_eq_some_iff.mp emitted
      exact ⟨(Bool.and_eq_true_iff.mp allowed).1, node, form,
        (Option.some.inj same).symm, rfl, chosen⟩
    · simp at emitted

/-- A jump is listed for the operation that asks for it. -/
theorem eq_jump_of_emitted? {opcode : Opcode} {form : JumpForm} {target : Label}
    (emitted : operation.emitted? assembler = some (.jump opcode form target)) :
    operation = .jump opcode target := by
  cases operation with
  | instruction bytes delta =>
    cases bytes with
    | nil => simp [Operation.emitted?] at emitted
    | cons first rest =>
      simp only [Operation.emitted?] at emitted
      split at emitted <;> simp at emitted
  | jump asked label =>
    obtain ⟨_, _, _, same, _⟩ := exists_form_of_emitted? emitted
    obtain ⟨rfl, rfl, rfl⟩ := Instruction.jump.inj same
    rfl
  | _ => simp [Operation.emitted?] at emitted

/-- A narrow operand is written for a branch to a label that is not too far away so far. -/
theorem exists_of_mem_mentions (emits : assembler.listed? operation = some listed)
    (mentioned : mention ∈ listed.mentions) (narrow : mention.branch?.isSome = true) :
    ∃ opcode node, operation = .jump opcode mention.target ∧ opcode.isNarrowBranch = true ∧
      assembler.graph.node? mention.target = some node ∧
      node.isFarBefore assembler.code.cursor = false ∧
      mention = narrowMention assembler.code.cursor opcode mention.target := by
  obtain ⟨instruction, emitted, rfl⟩ := Option.map_eq_some_iff.mp emits
  obtain ⟨written, branches⟩ := Option.isSome_iff_exists.mp narrow
  have piece := Piece.branch_mem_of_mem_mentions mentioned branches
  -- Only a jump that is written as it is has a piece with a narrow operand.
  obtain ⟨opcode, target, rfl⟩ : ∃ opcode target,
      instruction = .jump opcode (.plain written .narrow) target := by
    cases instruction with
    | plain bytes delta => simp [Listed.pieces, Instruction.pieces] at piece
    | onLocal request => simp [Listed.pieces, Instruction.pieces] at piece
    | jump opcode form target =>
      cases form with
      | plain first width =>
        cases width with
        | narrow =>
          simp only [Listed.pieces, Instruction.pieces, List.mem_singleton,
            Piece.branch.injEq] at piece
          exact ⟨opcode, target, by rw [piece.1]⟩
        | wide => simp [Listed.pieces, Instruction.pieces] at piece
      | inverted inverse => simp [Listed.pieces, Instruction.pieces] at piece
    | tableSwitch low high fallback targets => simp [Listed.pieces, Instruction.pieces] at piece
    | lookupSwitch fallback cases => simp [Listed.pieces, Instruction.pieces] at piece
  obtain rfl := eq_jump_of_emitted? emitted
  obtain ⟨isJump, node, form, same, known, chosen⟩ := exists_form_of_emitted? emitted
  obtain ⟨_, rfl, _⟩ := Instruction.jump.inj same
  have branch := Opcode.isNarrowBranch_of_jumpForm? isJump chosen
  obtain ⟨rfl, near⟩ := Opcode.of_jumpForm?_narrow chosen
  obtain rfl : mention = narrowMention assembler.code.cursor written target := by
    simpa [Listed.mentions, Listed.pieces, Instruction.pieces, Piece.mentions, Piece.mention?,
      narrowMention] using mentioned
  exact ⟨written, node, rfl, branch, known, near, rfl⟩

/-- A branch to a label that is placed already is written in a form that holds the distance. -/
theorem fits_of_near {node : Node} {opcode : Opcode} {target : Label} {offset : Nat}
    (known : assembler.graph.node? target = some node)
    (near : node.isFarBefore assembler.code.cursor = false)
    (branch : opcode.isNarrowBranch = true) (placed : assembler.graph.offset? target = some offset)
    (behind : offset ≤ assembler.code.size) (small : assembler.code.size < 0x80000000) :
    Width.narrow.Fits (Offset.distance offset assembler.code.cursor) := by
  have found : node.offset? = some offset := by simpa [FlowGraph.offset?, known] using placed
  have chosen : opcode.jumpForm? (node.isFarBefore assembler.code.cursor)
      = some (.plain opcode .narrow) := by
    rw [near]
    exact Opcode.jumpForm?_narrow branch
  have holds := Opcode.holds_of_jumpForm? chosen small
    fun place at_ => by
      obtain rfl : offset = place := Option.some.inj (found.symm.trans at_)
      exact behind
  exact holds offset found

/-- The method is noted to need widening exactly if some branch among the pieces is too long. -/
def NotesWidening (assembler : Assembler) (pieces : List Piece) : Prop :=
  assembler.needsWidening = true ↔
    ∃ mention ∈ Piece.mentions 0 pieces, mention.Overshoots assembler.graph.offset?

/-- A label that is placed adds to the note what its branches say. -/
theorem needsWidening_placed (assembler : Assembler) (label : Label) (node : Node) (code : Buffer)
    (rewritten : Bool) : (assembler.placed label node code rewritten).needsWidening
      = (assembler.needsWidening || rewritten) := by
  unfold Assembler.placed
  simp only
  split
  · rfl
  · exact (PlacesNothing.startBlock _ label).widening

namespace NotesWidening

/-- A label that is mentioned is known. -/
theorem isSome_node?_of_mention (text : assembler.IsText pieces)
    (mentioned : mention ∈ Piece.mentions 0 pieces) :
    (assembler.graph.node? mention.target).isSome := by
  by_contra unknown
  have missing : assembler.graph.placement? mention.target = none := by
    simpa [FlowGraph.placement?] using unknown
  exact Piece.references_ne_nil mentioned (text.unknown mention.target missing)

/-- A branch that was written just now is not too long, as long as the known labels keep their
offsets. -/
theorem not_overshoots (text : assembler.IsText pieces)
    (small : assembler.code.size < 0x80000000)
    (same : ∀ label, (assembler.graph.node? label).isSome →
      later.graph.offset? label = assembler.graph.offset? label)
    (emits : assembler.listed? operation = some listed) (mentioned : mention ∈ listed.mentions) :
    ¬ mention.Overshoots later.graph.offset? := by
  rintro ⟨narrow, offset, placed, far⟩
  obtain ⟨opcode, node, _, branch, known, near, here⟩ :=
    exists_of_mem_mentions emits mentioned narrow
  have source : mention.source = assembler.code.cursor := by rw [here]; rfl
  rw [same _ (by simp [known])] at placed
  rw [source] at far
  exact far (fits_of_near known near branch placed (text.behind _ offset placed) small)

/-- Nothing is noted as long as the known labels keep their offsets. -/
theorem keeps (notes : assembler.NotesWidening pieces) (text : assembler.IsText pieces)
    (small : assembler.code.size < 0x80000000)
    (same : ∀ label, (assembler.graph.node? label).isSome →
      later.graph.offset? label = assembler.graph.offset? label)
    (widening : later.needsWidening = assembler.needsWidening) :
    later.NotesWidening (pieces ++ (assembler.listed? operation).toList.flatMap Listed.pieces) := by
  have before (mention : Mention) (mentioned : mention ∈ Piece.mentions 0 pieces) :
      mention.Overshoots later.graph.offset? ↔ mention.Overshoots assembler.graph.offset? := by
    rw [Mention.Overshoots, Mention.Overshoots, same _ (isSome_node?_of_mention text mentioned)]
  unfold NotesWidening at notes ⊢
  rw [widening, notes, Piece.mentions_append]
  constructor
  · rintro ⟨mention, mentioned, overshoots⟩
    exact ⟨mention, List.mem_append_left _ mentioned, (before mention mentioned).mpr overshoots⟩
  · rintro ⟨mention, mentioned, overshoots⟩
    rcases List.mem_append.mp mentioned with old | new
    · exact ⟨mention, old, (before mention old).mp overshoots⟩
    · exfalso
      cases emits : assembler.listed? operation with
      | none => simp [emits, Piece.mentions] at new
      | some listed =>
        have here : listed.offset = 0 + Piece.totalSize pieces := by
          obtain ⟨instruction, _, rfl⟩ := Option.map_eq_some_iff.mp emits
          rw [Nat.zero_add, ← text.size_eq]
          rfl
        rw [emits, Option.toList_some, List.flatMap_singleton, ← here] at new
        exact not_overshoots text small same emits new overshoots

/-- A label that is placed notes the branches to it that are too long. -/
theorem placed (notes : assembler.NotesWidening pieces) (text : assembler.IsText pieces)
    {label : Label} {node : Node} {ledger : Ledger} {planned : List (Reference × Patch)}
    (known : assembler.graph.node? label = some node) (pending : node.placement = .pending ledger)
    (plans : ledger.plan assembler.code assembler.code.cursor = .ok planned) :
    (assembler.placed label node (overwriteAll assembler.code planned)
      (Ledger.rewrites planned)).NotesWidening pieces := by
  have unplaced : node.isPlaced = false := by simp [Node.isPlaced, Node.offset?, pending]
  have free : assembler.graph.offset? label = none := by
    simpa [FlowGraph.offset?, known, Node.isPlaced] using unplaced
  have size : (overwriteAll assembler.code planned).size = assembler.code.size :=
    (text.settle known pending plans (Ledger.rewrites planned)).size_eq.trans text.size_eq.symm
  have places := Places.placed assembler known unplaced size (Ledger.rewrites planned)
  rw [Ledger.plan, text.pending label ledger (by simp [FlowGraph.placement?, known, pending])]
    at plans
  unfold NotesWidening at notes ⊢
  rw [places.offsets, code_placed, size, needsWidening_placed, Bool.or_eq_true, notes,
    Ledger.rewrites_iff plans]
  constructor
  · rintro (⟨mention, mentioned, overshoots⟩ | ⟨reference, waits, narrow, far⟩)
    · exact ⟨mention, mentioned, (Mention.overshoots_placing free).mpr (.inl overshoots)⟩
    · obtain ⟨mention, mentioned, target, rfl⟩ := Piece.mem_references_iff.mp waits
      exact ⟨mention, mentioned,
        (Mention.overshoots_placing free).mpr (.inr ⟨target, narrow, far⟩)⟩
  · rintro ⟨mention, mentioned, overshoots⟩
    rcases (Mention.overshoots_placing free).mp overshoots with before | ⟨target, narrow, far⟩
    · exact .inl ⟨mention, mentioned, before⟩
    · exact .inr ⟨mention.reference, Piece.mem_references_iff.mpr ⟨mention, mentioned, target, rfl⟩,
        narrow, far⟩

/-- Placing a label notes the branches to it that are too long, unless it fails. -/
theorem place (notes : assembler.NotesWidening pieces) (text : assembler.IsText pieces)
    {label : Label} (known : (assembler.graph.node? label).isSome) :
    ((Assembler.place label).run assembler).state.NotesWidening pieces := by
  obtain ⟨node, found⟩ := Option.isSome_iff_exists.mp known
  cases placement : node.placement with
  | placed offset =>
    rw [run_place_of_placed found placement]
    exact notes
  | pending ledger =>
    cases plans : ledger.plan assembler.code assembler.code.cursor with
    | error cause =>
      rw [run_place_of_error found placement (Ledger.run_resolve_of_refused plans)]
      exact notes
    | ok planned =>
      obtain ⟨events, resolved⟩ :=
        Ledger.run_resolve_of_planned plans (text.inside found placement)
      rw [run_place_of_ok found placement resolved]
      exact notes.placed text found placement plans

/-- Each operation notes the branches that turn out to be too long. -/
theorem after (notes : assembler.NotesWidening pieces) (text : assembler.IsText pieces)
    {operation : Operation}
    (known : ∀ label ∈ operation.labels, (assembler.graph.node? label).isSome)
    (small : assembler.code.size < 0x80000000) : (assembler.after operation).NotesWidening
      (pieces ++ (assembler.listed? operation).toList.flatMap Listed.pieces) := by
  by_cases asks : ∃ label, operation = .place label
  · obtain ⟨label, rfl⟩ := asks
    have placed := notes.place text (known label List.mem_cons_self)
    rw [Assembler.after, Operation.perform, IsText.state_withoutLabel]
    simpa [listed?, Operation.emitted?] using placed
  · rcases places_after assembler operation with nothing | ⟨placed, places⟩
    · exact notes.keeps text small (fun label _ => congrFun nothing.offsets label) nothing.widening
    · rcases places.asked with asked | ⟨fresh, widening⟩
      · exact absurd ⟨placed, asked⟩ asks
      · refine notes.keeps text small (fun label exists_ => ?_) widening
        have other : label ≠ placed := by
          rintro rfl
          simp [fresh] at exists_
        rw [places.offsets, placing, if_neg other]

/-- A run notes the branches that turn out to be too long. -/
theorem afterAll (notes : assembler.NotesWidening pieces) (text : assembler.IsText pieces)
    {operations : List Operation} (known : assembler.NamesKnown operations)
    (small : (assembler.afterAll operations).code.size < 0x80000000) :
    (assembler.afterAll operations).NotesWidening
      (pieces ++ (assembler.listing operations).flatMap Listed.pieces) := by
  induction operations generalizing assembler pieces with
  | nil => simpa [listing, Assembler.afterAll] using notes
  | cons operation rest ih =>
    have shorter : (assembler.after operation).code.size < 0x80000000 :=
      Nat.lt_of_le_of_lt (size_le_afterAll (assembler.after operation) rest) small
    have before : assembler.code.size < 0x80000000 :=
      Nat.lt_of_le_of_lt (grows_perform operation assembler).1 shorter
    have others := ih (notes.after text known.1 before) (text.after known.1 shorter) known.2 small
    simpa [listing, Assembler.afterAll] using others

end NotesWidening

section History

variable {moment : Moment} {operations : List Operation}

/-- The listing of a run holds what is listed at its moments. -/
theorem listing_eq_filterMap (assembler : Assembler) (operations : List Operation) :
    assembler.listing operations
      = (assembler.history operations).filterMap fun moment =>
          moment.before.listed? moment.operation := by
  induction operations generalizing assembler with
  | nil => rfl
  | cons operation rest ih =>
    rw [listing, ih, history, List.filterMap_cons]
    cases assembler.listed? operation <;> rfl

/-- What is listed at a moment of a run stands in its listing. -/
theorem mem_listing_iff : listed ∈ assembler.listing operations ↔
    ∃ moment ∈ assembler.history operations,
      moment.before.listed? moment.operation = some listed := by
  rw [listing_eq_filterMap, List.mem_filterMap]

/-- At each moment of a run the code is the text of some pieces, and the operation names labels that
exist. -/
theorem exists_isText_of_mem_history (text : assembler.IsText pieces)
    (known : assembler.NamesKnown operations)
    (small : (assembler.afterAll operations).code.size < 0x80000000)
    (member : moment ∈ assembler.history operations) :
    (∃ earlier, moment.before.IsText earlier) ∧
      ∀ label ∈ moment.operation.labels, (moment.before.graph.node? label).isSome := by
  induction operations generalizing assembler pieces with
  | nil => simp [history] at member
  | cons operation rest ih =>
    rcases List.mem_cons.mp member with rfl | later
    · exact ⟨⟨pieces, text⟩, known.1⟩
    · have shorter : (assembler.after operation).code.size < 0x80000000 :=
        Nat.lt_of_le_of_lt (size_le_afterAll (assembler.after operation) rest) small
      exact ih (text.after known.1 shorter) known.2 small later

end History

end Assembler

/-- The operation writes a narrow branch to a label without an offset, and the label lies farther
ahead in the end than the operand can say. -/
def Moment.Overshoots (moment : Moment) (graph : FlowGraph) : Prop :=
  ∃ opcode target offset, moment.operation = .jump opcode target ∧ opcode.isNarrowBranch = true ∧
    moment.before.graph.offset? target = none ∧ graph.offset? target = some offset ∧
    moment.before.code.cursor + 32768 ≤ offset

namespace Assembler

variable {settings : Settings} {slots : UInt16} {operations : List Operation} {moment : Moment}
  {listed : Listed} {mention : Mention}

/-- A narrow operand that is too small in the end belongs to a branch that leads too far ahead. -/
theorem overshoots_of_mem_mentions (member : moment ∈ (start settings slots).history operations)
    (small : ((start settings slots).afterAll operations).code.size < 0x80000000)
    (emits : moment.before.listed? moment.operation = some listed)
    (mentioned : mention ∈ listed.mentions)
    (overshoots : mention.Overshoots ((start settings slots).afterAll operations).graph.offset?) :
    moment.Overshoots ((start settings slots).afterAll operations).graph ∧
      mention.source = moment.before.code.cursor := by
  obtain ⟨narrow, offset, placed, far⟩ := overshoots
  obtain ⟨opcode, node, asks, branch, known, near, here⟩ :=
    exists_of_mem_mentions emits mentioned narrow
  have source : mention.source = moment.before.code.cursor := by rw [here]; rfl
  have longer : moment.before.code.size ≤ moment.after.code.size :=
    (grows_perform moment.operation moment.before).1
  have size := size_le_of_mem_history member
  rw [source] at far
  -- A label that was placed already would have been found to be too far away.
  have unplaced : moment.before.graph.offset? mention.target = none := by
    by_contra early
    obtain ⟨place, at_⟩ := Option.ne_none_iff_exists'.mp early
    obtain ⟨behind, kept⟩ := of_placed_at member at_
    obtain rfl : place = offset := Option.some.inj (kept.symm.trans placed)
    exact far (fits_of_near known near branch at_ behind (by omega))
  have ahead := size_le_of_mem_history_of_unplaced member unplaced placed
  have ends := (Ascends.afterAll settings slots operations).behind _ offset placed
  have apart := (Offset.not_fits_narrow_iff (Nat.le_trans longer ahead) (by omega)).mp far
  exact ⟨⟨opcode, mention.target, offset, asks, branch, unplaced, placed, apart⟩, source⟩

/-- A branch that leads too far ahead has a narrow operand that is too small in the end. -/
theorem exists_of_overshoots (known : (start settings slots).NamesKnown operations)
    (small : ((start settings slots).afterAll operations).code.size < 0x80000000)
    (member : moment ∈ (start settings slots).history operations)
    (overshoots : moment.Overshoots ((start settings slots).afterAll operations).graph) :
    ∃ opcode target, moment.operation = .jump opcode target ∧
      moment.before.listed? moment.operation
        = some ⟨moment.before.code.cursor, .jump opcode (.plain opcode .narrow) target⟩ ∧
      (narrowMention moment.before.code.cursor opcode target).Overshoots
        ((start settings slots).afterAll operations).graph.offset? := by
  obtain ⟨opcode, target, offset, asks, branch, unplaced, placed, apart⟩ := overshoots
  obtain ⟨node, found⟩ := Option.isSome_iff_exists.mp
    ((exists_isText_of_mem_history (IsText.start settings slots) known small member).2 target
      (by rw [asks]; exact List.mem_cons_self))
  have away : node.offset? = none := by simpa [FlowGraph.offset?, found] using unplaced
  have allowed : node.refusesJumps = false := by simp [Node.refusesJumps, Node.isPlaced, away]
  have chosen : opcode.jumpForm? (node.isFarBefore moment.before.code.cursor)
      = some (.plain opcode .narrow) := by
    have near : node.isFarBefore moment.before.code.cursor = false := by
      simp [Node.isFarBefore, away]
    rw [near]
    exact Opcode.jumpForm?_narrow branch
  have isJump : opcode.isJump = true := by simp [Opcode.isJump, branch]
  have ends := (Ascends.afterAll settings slots operations).behind _ offset placed
  refine ⟨opcode, target, asks, ?_, rfl, offset, placed, ?_⟩
  · rw [asks, listed?, emitted?_jump isJump found allowed chosen]
    rfl
  · exact (Offset.not_fits_narrow_iff (Nat.le_of_add_right_le apart) (by omega)).mpr apart

/-- A run notes that branches are to be widened exactly if some branch leads too far ahead. -/
theorem needsWidening_afterAll (known : (start settings slots).NamesKnown operations)
    (small : ((start settings slots).afterAll operations).code.size < 0x80000000) :
    ((start settings slots).afterAll operations).needsWidening = true ↔
      ∃ moment ∈ (start settings slots).history operations,
        moment.Overshoots ((start settings slots).afterAll operations).graph := by
  have text := IsText.start settings slots
  have first : (start settings slots).NotesWidening [] := by
    simp [NotesWidening, start, Piece.mentions]
  have notes := first.afterAll text known small
  have contiguous : Contiguous 0 ((start settings slots).listing operations) :=
    contiguous_listing text known small
  rw [NotesWidening, List.nil_append, Listed.mentions_flatMap_pieces contiguous] at notes
  rw [notes]
  constructor
  · rintro ⟨mention, mentioned, overshoots⟩
    obtain ⟨listed, member, inside⟩ := List.mem_flatMap.mp mentioned
    obtain ⟨moment, happens, emits⟩ := mem_listing_iff.mp member
    exact ⟨moment, happens, (overshoots_of_mem_mentions happens small emits inside overshoots).1⟩
  · rintro ⟨moment, member, overshoots⟩
    obtain ⟨opcode, target, _, emits, far⟩ := exists_of_overshoots known small member overshoots
    exact ⟨_, List.mem_flatMap.mpr ⟨_, mem_listing_iff.mpr ⟨moment, member, emits⟩,
      List.mem_singleton.mpr rfl⟩, far⟩

end Assembler

end MethodBody
