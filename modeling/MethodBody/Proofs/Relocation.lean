import MethodBody.Proofs.Effects
import MethodBody.Proofs.Growth
import MethodBody.Proofs.Text

/-!
# Relocation

At every point of a run the code is the text of the pieces written so far, for the labels that have
been placed so far, and each ledger holds exactly the references to its label (`IsText`). So when a
method is finished and nothing is left to fill in, every distance in the code is the one from its
instruction to the final offset of its label, in whatever order labels were placed and referred to.
-/

namespace MethodBody

namespace Placement

/-- A placement with one more reference, if there is one and it still has to wait. -/
def push (placement : Placement) (reference? : Option Reference) : Placement :=
  match placement, reference? with
  | .pending ledger, some reference => .pending (ledger.push reference)
  | other, _ => other

end Placement

/-- Writing what was planned keeps the number of bytes. -/
@[simp]
theorem size_overwriteAll (code : Buffer) (planned : List (Reference × Patch)) :
    (overwriteAll code planned).size = code.size := by
  induction planned generalizing code with
  | nil => rfl
  | cons one rest ih => exact (ih _).trans (Buffer.size_overwrite one.1 code one.2)

namespace Ledger

/-- Some branch is to be given its unsigned form. -/
def rewrites (planned : List (Reference × Patch)) : Bool :=
  planned.any fun one => one.2.isUnsigned

/-- What was planned for references that lie in the code can be written. -/
theorem run_applyAll (target : Nat) {planned : List (Reference × Patch)} {code : Buffer}
    (inside : ∀ one ∈ planned, one.1.Inside code) :
    ∃ events, (applyAll target planned).run code
      = ⟨.ok (rewrites planned), overwriteAll code planned, events⟩ := by
  unfold applyAll overwriteAll
  rw [← Bool.false_or (rewrites planned)]
  generalize false = rewritten
  induction planned generalizing code rewritten with
  | nil => exact ⟨[], by simp [rewrites]⟩
  | cons one rest ih =>
    obtain ⟨reference, patch⟩ := one
    have here : reference.Inside code := inside _ List.mem_cons_self
    have later (other : Reference × Patch) (member : other ∈ rest) :
        other.1.Inside (reference.overwrite code patch) :=
      Buffer.inside_overwrite.mpr (inside other (List.mem_cons_of_mem _ member))
    obtain ⟨events, others⟩ := ih later (rewritten || patch.isUnsigned)
    have applied : (reference.apply patch).run code
        = ⟨.ok (), reference.overwrite code patch, reference.events code patch⟩ := by
      simp [Reference.apply, here, Outcome.after]
    have step : ((fun rewritten (one : Reference × Patch) => (do
          Action.report (.patching one.1.width one.1.source target)
          one.1.apply one.2
          pure (rewritten || one.2.isUnsigned) : Action Buffer Bool)) rewritten
            (reference, patch)).run code
        = ⟨.ok (rewritten || patch.isUnsigned), reference.overwrite code patch,
            .patching reference.width reference.source target :: reference.events code patch⟩ := by
      simp only [Action.run_bind, Action.run_report, applied, Action.run_pure, Outcome.andThen_ok]
      simp [Outcome.after]
    refine ⟨(.patching reference.width reference.source target ::
      reference.events code patch) ++ events, ?_⟩
    rw [Action.fold_cons, Action.run_bind]
    refine (congrArg (Outcome.andThen · _) step).trans ?_
    rw [Outcome.andThen_ok, rewrites, List.any_cons, ← Bool.or_assoc]
    exact congrArg (Outcome.after · _) others

/-- Resolving a ledger that can be resolved writes what is planned for all references. -/
theorem run_resolve_of_planned {ledger : Ledger} {code : Buffer} {target : Nat}
    {planned : List (Reference × Patch)} (plans : ledger.plan code target = .ok planned)
    (inside : ∀ reference ∈ ledger.toList, reference.Inside code) :
    ∃ events, (ledger.resolve target).run code
      = ⟨.ok (rewrites planned), overwriteAll code planned, events⟩ := by
  have lies : ∀ one ∈ planned, one.1.Inside code := by
    intro one member
    obtain ⟨reference, listed, found⟩ := exists_of_mem_mapM plans member
    obtain ⟨patch, _, rfl⟩ := map_eq_ok.mp found
    exact inside reference listed
  obtain ⟨events, applied⟩ := run_applyAll target lies
  exact ⟨events, by simp [resolve, plans, applied]⟩

/-- Resolving a ledger that cannot be resolved changes nothing. -/
theorem run_resolve_of_refused {ledger : Ledger} {code : Buffer} {target : Nat} {cause : Error}
    (refused : ledger.plan code target = .error cause) :
    (ledger.resolve target).run code = ⟨.error cause, code, []⟩ := by
  simp [resolve, refused]

end Ledger

namespace Piece

/-- A reference lies in its piece. -/
theorem inside_of_reference? {label : Label} {start : Nat} {piece : Piece} {reference : Reference}
    (refers : piece.reference? label start = some reference) :
    reference.site + reference.width.size = start + piece.size := by
  cases piece with
  | literal bytes => simp [reference?] at refers
  | branch opcode target =>
    simp only [reference?, Option.ite_none_right_eq_some, Option.some.injEq] at refers
    obtain ⟨_, rfl⟩ := refers
    simp [size, Width.size]
  | distance source target =>
    simp only [reference?, Option.ite_none_right_eq_some, Option.some.injEq] at refers
    obtain ⟨_, rfl⟩ := refers
    rfl

/-- References lie in their pieces. -/
theorem inside_of_mem_references {label : Label} {start : Nat} {pieces : List Piece}
    {reference : Reference} (member : reference ∈ references label start pieces) :
    reference.site + reference.width.size ≤ start + totalSize pieces := by
  induction pieces generalizing start with
  | nil => simp [references] at member
  | cons piece rest ih =>
    rw [references, List.mem_append] at member
    rcases member with here | later
    · have ends := inside_of_reference? (Option.mem_toList.mp here)
      simp only [totalSize_cons]
      omega
    · have ends := ih later
      simp only [totalSize_cons]
      omega

end Piece

namespace Assembler

/-- The code is the text of the pieces for the labels placed so far, each ledger holds the
references to its label in order, and no label is placed behind the next instruction. -/
structure IsText (assembler : Assembler) (pieces : List Piece) : Prop where
  /-- The bytes are those of the pieces. -/
  code : assembler.code.toList = Piece.textAll assembler.graph.offset? 0 pieces
  /-- Each operand holds the distance to its target. -/
  holds : Piece.HoldAll assembler.graph.offset? 0 pieces
  /-- A ledger holds the references to its label. -/
  pending : ∀ label ledger, assembler.graph.placement? label = some (.pending ledger) →
    ledger.toList = Piece.references label 0 pieces
  /-- A label that does not exist is not referred to. -/
  unknown : ∀ label, assembler.graph.placement? label = none → Piece.references label 0 pieces = []
  /-- No label lies behind the next instruction. -/
  behind : ∀ label offset, assembler.graph.offset? label = some offset →
      offset ≤ assembler.code.size

/-- Closing the open block keeps the placements. -/
@[simp]
theorem placement?_closeBlock (assembler : Assembler) :
    assembler.closeBlock.graph.placement? = assembler.graph.placement? := by
  unfold closeBlock
  split
  · rfl
  · apply FlowGraph.placement?_update
    intro node
    rfl

/-- Adding an edge keeps the placements. -/
@[simp]
theorem placement?_addEdge (assembler : Assembler) (successor : Label) :
    (assembler.addEdge successor).graph.placement? = assembler.graph.placement? := by
  unfold addEdge
  split
  · rfl
  · apply FlowGraph.placement?_update
    intro node
    rfl

/-- Opening a block keeps the placements. -/
@[simp]
theorem placement?_startBlock (assembler : Assembler) (label : Label) :
    (assembler.startBlock label).graph.placement? = assembler.graph.placement? := by
  unfold startBlock
  split
  · rfl
  · exact (placement?_closeBlock _).trans (assembler.placement?_addEdge label)

/-- A label that is settled is placed at the next instruction, and the others stay what they are. -/
theorem placement?_settle {assembler : Assembler} {label : Label} {node : Node}
    (known : assembler.graph.node? label = some node) (code : Buffer) (rewritten : Bool)
    (other : Label) : (assembler.settle label node code rewritten).graph.placement? other
      = if label = other then some (.placed assembler.code.cursor)
        else assembler.graph.placement? other := by
  simp only [FlowGraph.placement?, settle, FlowGraph.node?_update]
  split
  · rename_i same
    simp [← same, known]
  · rfl

/-- A reference is added to the ledger of its label. -/
theorem placement?_refers (assembler : Assembler) (target label : Label) (source : Nat)
    (width : Width) : (assembler.refers target source width).graph.placement? label
      = (assembler.graph.placement? label).map (·.push
          (if target = label then some ⟨source, width, assembler.code.cursor⟩ else none)) := by
  simp only [FlowGraph.placement?, refers, update, FlowGraph.node?_update, graph_append]
  cases assembler.graph.node? label with
  | none => simp
  | some node =>
    split
    · simp only [Option.map_some, Option.some.injEq, Node.referred, Placement.push]
      cases placement : node.placement <;> simp [placement]
    · simp only [Option.map_some, Placement.push]

/-- The operand for the distance to a label depends on the offset of the label. -/
theorem operand_eq (assembler : Assembler) (target : Label) (source : Nat) (width : Width) :
    assembler.operand target source width =
      match assembler.graph.offset? target with
      | none => width.operand (-1)
      | some offset => width.operand (Offset.distance offset source) := by
  unfold operand FlowGraph.offset? Node.operand
  cases assembler.graph.node? target <;> rfl

namespace IsText

variable {assembler after : Assembler} {pieces : List Piece}

/-- The code is as long as its pieces. -/
theorem size_eq (text : assembler.IsText pieces) :
    assembler.code.size = Piece.totalSize pieces := by
  rw [← Buffer.length_toList, text.code, Piece.length_textAll]

/-- What is done to anything but the code and the placements does not matter. -/
theorem congr (text : assembler.IsText pieces) (code : after.code = assembler.code)
    (same : after.graph.placement? = assembler.graph.placement?) : after.IsText pieces := by
  have offsets := FlowGraph.offset?_congr same
  constructor
  case code =>
    rw [code, offsets]
    exact text.code
  case holds =>
    rw [offsets]
    exact text.holds
  case pending =>
    rw [same]
    exact text.pending
  case unknown =>
    rw [same]
    exact text.unknown
  case behind =>
    rw [code, offsets]
    exact text.behind

/-- A method without instructions. -/
theorem start (settings : Settings) (parameterSlots : UInt16) :
    (Assembler.start settings parameterSlots).IsText [] := by
  constructor
  case code => rfl
  case holds => trivial
  case pending =>
    rintro ⟨index⟩ ledger found
    cases index <;>
      simp [FlowGraph.placement?, Assembler.start, FlowGraph.node?] at found
  case unknown =>
    intro label _
    rfl
  case behind =>
    rintro ⟨index⟩ offset found
    cases index with
    | zero =>
      obtain rfl : 0 = offset := by
        simpa [FlowGraph.offset?, Assembler.start, FlowGraph.node?, Node.offset?] using found
      exact Nat.zero_le _
    | succ index => simp [FlowGraph.offset?, Assembler.start, FlowGraph.node?] at found

/-- One more piece at the end. -/
theorem extend (text : assembler.IsText pieces) {piece : Piece}
    (code : after.code.toList
      = assembler.code.toList ++ piece.text assembler.graph.offset? assembler.code.size)
    (placement : ∀ label, after.graph.placement? label
      = (assembler.graph.placement? label).map
        (·.push (piece.reference? label assembler.code.size)))
    (known : ∀ label, assembler.graph.placement? label = none →
      piece.reference? label assembler.code.size = none)
    (holds : piece.Holds assembler.graph.offset? assembler.code.size) :
    after.IsText (pieces ++ [piece]) := by
  have size := text.size_eq
  have references (label : Label) : Piece.references label 0 (pieces ++ [piece])
      = Piece.references label 0 pieces
        ++ (piece.reference? label assembler.code.size).toList := by
    simp [Piece.references_append, Piece.references, size]
  have offsets : after.graph.offset? = assembler.graph.offset? := by
    funext label
    rw [FlowGraph.offset?_eq, FlowGraph.offset?_eq, placement]
    cases assembler.graph.placement? label with
    | none => rfl
    | some before =>
      unfold Placement.push
      cases before <;> cases piece.reference? label assembler.code.size <;> rfl
  constructor
  case code =>
    rw [offsets, code, text.code, Piece.textAll_append]
    simp [Piece.textAll, size]
  case holds =>
    rw [offsets, Piece.holdAll_append]
    exact ⟨text.holds, by simpa [Piece.HoldAll, size] using holds⟩
  case pending =>
    intro label ledger found
    rw [placement, Option.map_eq_some_iff] at found
    obtain ⟨before, was, became⟩ := found
    cases before with
    | placed offset =>
      exfalso
      cases piece.reference? label assembler.code.size <;> simp [Placement.push] at became
    | pending old =>
      have listed := text.pending label old was
      rw [references, ← listed]
      cases refers : piece.reference? label assembler.code.size with
      | none =>
        rw [refers] at became
        obtain rfl : old = ledger := by simpa [Placement.push] using became
        simp
      | some reference =>
        rw [refers] at became
        obtain rfl : old.push reference = ledger := by simpa [Placement.push] using became
        simp
  case unknown =>
    intro label found
    rw [placement, Option.map_eq_none_iff] at found
    rw [references, text.unknown label found, known label found]
    rfl
  case behind =>
    intro label offset found
    rw [offsets] at found
    have before := text.behind label offset found
    rw [← Buffer.length_toList, code, List.length_append, Buffer.length_toList]
    omega

/-- Bytes that do not depend on any label. -/
theorem append (text : assembler.IsText pieces) (bytes : List UInt8) :
    (assembler.append bytes).IsText (pieces ++ [.literal bytes]) := by
  refine text.extend ?_ ?_ (fun _ _ => rfl) trivial
  · simp [Assembler.append, Piece.text]
  · intro label
    have same : (fun placement : Placement => placement.push none) = id := by
      funext placement
      cases placement <;> rfl
    simp [Piece.reference?, same]

/-- A label that exists has a placement. -/
theorem placement?_ne_none {label : Label} (known : (assembler.graph.node? label).isSome) :
    assembler.graph.placement? label ≠ none := by
  intro unknown
  rw [FlowGraph.placement?, Option.map_eq_none_iff] at unknown
  simp [unknown] at known

/-- The distance from an opcode to a label, in a wide operand. -/
theorem refers (text : assembler.IsText pieces) (target : Label) (source : Nat)
    (fits : ∀ offset, assembler.graph.offset? target = some offset →
      Width.wide.Fits (Offset.distance offset source))
    (known : (assembler.graph.node? target).isSome) :
    (assembler.refers target source .wide).IsText (pieces ++ [.distance source target]) := by
  refine text.extend ?_ ?_ ?_ ?_
  · have bytes := operand_eq assembler target source .wide
    simp only [Assembler.refers, update, Assembler.append, Buffer.toList_append, bytes]
    rfl
  · intro label
    exact placement?_refers assembler target label source .wide
  · intro label unknown
    have other : target ≠ label := by
      rintro rfl
      exact placement?_ne_none known unknown
    simp [Piece.reference?, other]
  · exact fits

/-- A branch to a label, with a narrow operand. -/
theorem branch (text : assembler.IsText pieces) {opcode : Opcode} {target : Label} {node : Node}
    (isBranch : opcode.isNarrowBranch = true) (known : assembler.graph.node? target = some node)
    (fits : ∀ offset, node.offset? = some offset →
      Width.narrow.Fits (Offset.distance offset assembler.code.cursor)) :
    ((assembler.append [opcode]).refers target assembler.code.cursor .narrow).IsText
      (pieces ++ [.branch opcode target]) := by
  have offset : assembler.graph.offset? target = node.offset? := by simp [FlowGraph.offset?, known]
  refine text.extend ?_ ?_ ?_ ?_
  · simp only [Assembler.refers, update, Assembler.append, Buffer.toList_append, operand_eq,
      Piece.text, List.append_assoc, List.singleton_append]
    change _ ++ (opcode :: (match assembler.graph.offset? target with
      | none => _
      | some offset => _)) = _
    rw [offset]
    cases found : node.offset? with
    | none => rfl
    | some place =>
      have short : Width.narrow.Fits (Offset.distance place assembler.code.size) := fits place found
      simp [Piece.branchText, short, Buffer.cursor]
  · intro label
    rw [placement?_refers]
    simp [Assembler.append, Buffer.cursor, Piece.reference?]
  · intro label unknown
    have other : target ≠ label := by
      rintro rfl
      exact placement?_ne_none (by simp [known]) unknown
    simp [Piece.reference?, other]
  · refine ⟨isBranch, fun place found => .inl ?_⟩
    rw [offset] at found
    exact fits place found

/-- The distances from one source to several labels. -/
theorem refersAll (text : assembler.IsText pieces) (source : Nat) (targets : List Label)
    (near : assembler.Near source)
    (known : ∀ target ∈ targets, (assembler.graph.node? target).isSome) :
    (assembler.refersAll targets source).IsText (pieces ++ targets.map (.distance source)) := by
  induction targets generalizing assembler pieces with
  | nil => simpa [Assembler.refersAll] using text
  | cons target rest ih =>
    have first := text.refers target source (near target) (known target List.mem_cons_self)
    have others := ih first (by simpa [Near] using near) fun other member => by
      simpa using known other (List.mem_cons_of_mem _ member)
    rw [List.map_cons, List.append_cons]
    exact others

/-- A reference that waits lies in the code. -/
theorem inside (text : assembler.IsText pieces) {label : Label} {node : Node} {ledger : Ledger}
    (known : assembler.graph.node? label = some node) (pending : node.placement = .pending ledger) :
    ∀ reference ∈ ledger.toList, reference.Inside assembler.code := by
  have listed := text.pending label ledger (by simp [FlowGraph.placement?, known, pending])
  intro reference member
  rw [listed] at member
  have ends := Piece.inside_of_mem_references member
  have size := text.size_eq
  unfold Reference.Inside
  omega

/-- A label is given its offset, and the references to it are filled in. -/
theorem settle (text : assembler.IsText pieces) {label : Label} {node : Node} {ledger : Ledger}
    {planned : List (Reference × Patch)} (known : assembler.graph.node? label = some node)
    (pending : node.placement = .pending ledger)
    (plans : ledger.plan assembler.code assembler.code.cursor = .ok planned) (rewritten : Bool) :
    (assembler.settle label node (overwriteAll assembler.code planned) rewritten).IsText
      pieces := by
  have listed := text.pending label ledger (by simp [FlowGraph.placement?, known, pending])
  have unplaced : assembler.graph.offset? label = none := by
    simp [FlowGraph.offset?, known, Node.offset?, pending]
  have whole : assembler.code.toList
      = [] ++ Piece.textAll assembler.graph.offset? 0 pieces ++ [] := by
    simpa using text.code
  rw [Ledger.plan, listed] at plans
  have written := toList_overwriteAll unplaced pieces whole rfl whole rfl plans
  simp only [List.nil_append, List.append_nil] at written
  have placement := placement?_settle known (overwriteAll assembler.code planned) rewritten
  have offsets : (assembler.settle label node (overwriteAll assembler.code planned)
      rewritten).graph.offset? = placing assembler.graph.offset? label assembler.code.cursor := by
    funext other
    rw [FlowGraph.offset?_eq, placement, placing, FlowGraph.offset?_eq]
    by_cases same : label = other
    · simp [same]
    · simp [same, Ne.symm same]
  constructor
  case code =>
    rw [offsets]
    exact written.1
  case holds =>
    rw [offsets]
    exact written.2 text.holds
  case pending =>
    intro other waiting found
    rw [placement] at found
    by_cases same : label = other
    · simp [same] at found
    · rw [if_neg same] at found
      exact text.pending other waiting found
  case unknown =>
    intro other found
    rw [placement] at found
    by_cases same : label = other
    · simp [same] at found
    · rw [if_neg same] at found
      exact text.unknown other found
  case behind =>
    intro other offset found
    have size := size_overwriteAll assembler.code planned
    rw [offsets, placing] at found
    change offset ≤ (overwriteAll assembler.code planned).size
    by_cases same : other = label
    · obtain rfl : assembler.code.cursor = offset := by simpa [same] using found
      exact Nat.le_of_eq size.symm
    · rw [if_neg same] at found
      rw [size]
      exact text.behind other offset found

/-- Opening a block writes nothing. -/
theorem startBlock (text : assembler.IsText pieces) (label : Label) :
    (assembler.startBlock label).IsText pieces :=
  text.congr (code_startBlock _ _) (placement?_startBlock _ _)

/-- A new label is not referred to. -/
theorem create (text : assembler.IsText pieces) (flags : Flags) :
    { assembler with graph := assembler.graph.create flags }.IsText pieces := by
  have fresh : assembler.graph.placement? assembler.graph.nextLabel = none := by
    simp [FlowGraph.placement?]
  have placement (label : Label) : (assembler.graph.create flags).placement? label =
      if label = assembler.graph.nextLabel then some (.pending .empty)
      else assembler.graph.placement? label := by
    simp only [FlowGraph.placement?, FlowGraph.node?_create]
    split <;> rfl
  have offsets : (assembler.graph.create flags).offset? = assembler.graph.offset? := by
    funext label
    rw [FlowGraph.offset?_eq, FlowGraph.offset?_eq, placement]
    split
    · rename_i last
      rw [last, fresh]
      rfl
    · rfl
  constructor
  case code =>
    rw [offsets]
    exact text.code
  case holds =>
    rw [offsets]
    exact text.holds
  case pending =>
    intro label ledger found
    rw [placement] at found
    split at found
    · rename_i last
      obtain rfl : Ledger.empty = ledger := by simpa using found
      rw [last, text.unknown _ fresh]
      rfl
    · exact text.pending label ledger found
  case unknown =>
    intro label found
    rw [placement] at found
    split at found
    · simp at found
    · exact text.unknown label found
  case behind =>
    rw [offsets]
    exact text.behind

/-- Going on with a block at a label of its own writes nothing. -/
theorem goesOn (text : assembler.IsText pieces) (flags : Flags) :
    (assembler.goesOn flags).IsText pieces := by
  have created := text.create flags
  have known : (assembler.graph.create flags).node? assembler.graph.nextLabel
      = some { label := assembler.graph.nextLabel, flags } := by
    simp [FlowGraph.node?_create]
  exact (created.settle known rfl rfl false).startBlock _

/-- Placing a label fills in the references to it, or changes no byte. -/
theorem place (text : assembler.IsText pieces) {label : Label}
    (known : (assembler.graph.node? label).isSome) :
    ((Assembler.place label).run assembler).state.IsText pieces := by
  obtain ⟨node, found⟩ := Option.isSome_iff_exists.mp known
  cases placement : node.placement with
  | placed offset =>
    rw [run_place_of_placed found placement]
    exact text
  | pending ledger =>
    cases plans : ledger.plan assembler.code assembler.code.cursor with
    | error cause =>
      rw [run_place_of_error found placement (Ledger.run_resolve_of_refused plans)]
      exact text
    | ok planned =>
      obtain ⟨events, resolved⟩ :=
        Ledger.run_resolve_of_planned plans (text.inside found placement)
      have settled := text.settle found placement plans (Ledger.rewrites planned)
      rw [run_place_of_ok found placement resolved]
      unfold placed
      split
      · exact settled
      · exact settled.startBlock label

end IsText

end Assembler

end MethodBody
