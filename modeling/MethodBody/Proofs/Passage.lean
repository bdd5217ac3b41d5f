import MethodBody.Proofs.Text
import Mathlib.Order.Lattice

/-!
# Passages

A passage holds the instructions of one block and says where control goes from there. The passages
of a run follow each other in the order in which their blocks were placed; between two of them there
can be instructions that are never reached, and those belong to no passage. `Assembler.LaidOut` ties
the passages to the flow graph: it is what the steps of an operation preserve.
-/

namespace MethodBody

/-- Control goes on with the next instruction and nowhere else. -/
def Instruction.isStraight (instruction : Instruction) : Bool :=
  instruction.targets.isEmpty && instruction.continues

/-- Stack heights are ordered as the numbers that they stand for. -/
instance heightOrder : LinearOrder Int32 where
  le_refl := Int32.le_refl
  le_trans _ _ _ := Int32.le_trans
  lt_iff_le_not_ge _ _ := Std.LawfulOrderLT.lt_iff _ _
  le_antisymm _ _ := Int32.le_antisymm
  le_total := Int32.le_total
  toDecidableLE := inferInstance
  min_def _ _ := rfl
  max_def _ _ := rfl

/-- The sum of two stack heights does not wrap around. -/
def AddsExactly (height delta : Int32) : Prop :=
  (height + delta).toInt = height.toInt + delta.toInt

instance (height delta : Int32) : Decidable (AddsExactly height delta) :=
  inferInstanceAs (Decidable (_ = _))

namespace Listed

/-- What instructions in a row add to the stack height. -/
def height : List Listed → Int32
  | [] => 0
  | listed :: rest => listed.instruction.delta + height rest

/-- The largest stack height before, between and after instructions in a row, given the height at
their start. -/
def peak : (start : Int32) → List Listed → Int32
  | start, [] => start
  | start, listed :: rest => max start (peak (start + listed.instruction.delta) rest)

/-- No stack height wraps around before, between and after instructions in a row, given the height
at their start. -/
def IsExact : (start : Int32) → List Listed → Prop
  | _, [] => True
  | start, listed :: rest => AddsExactly start listed.instruction.delta ∧
    IsExact (start + listed.instruction.delta) rest

/-- Heights add up. -/
theorem height_append (first second : List Listed) :
    height (first ++ second) = height first + height second := by
  induction first with
  | nil => simp [height]
  | cons listed rest ih => simp only [List.cons_append, height, ih, Int32.add_assoc]

/-- One more instruction raises the peak if the height after it is larger. -/
theorem peak_append_singleton (start : Int32) (first : List Listed) (listed : Listed) :
    peak start (first ++ [listed])
      = max (peak start first) (start + height first + listed.instruction.delta) := by
  induction first generalizing start with
  | nil => simp [peak, height]
  | cons other rest ih =>
    simp only [List.cons_append, peak, height, ih, ← Int32.add_assoc, max_assoc]

/-- Heights do not wrap around if they do not in the first instructions, nor in the others from
there on. -/
theorem isExact_append {start : Int32} {first second : List Listed} :
    IsExact start (first ++ second) ↔
      IsExact start first ∧ IsExact (start + height first) second := by
  induction first generalizing start with
  | nil => simp [IsExact, height]
  | cons listed rest ih =>
    simp only [List.cons_append, IsExact, height, ih, and_assoc, Int32.add_assoc]

/-- The number of bytes of instructions. -/
def size (instructions : List Listed) : Nat :=
  Piece.totalSize (instructions.flatMap pieces)

/-- Sizes add up. -/
@[simp]
theorem size_append (first second : List Listed) :
    size (first ++ second) = size first + size second := by
  simp [size]

/-- No instructions have no bytes. -/
@[simp]
theorem size_nil : size [] = 0 := rfl

/-- An instruction ends where its bytes end. -/
theorem offset_add_size (listed : Listed) : listed.offset + size [listed] = listed.stop := by
  simp [size, stop]

/-- Instructions follow each other if the first do, and the others follow them. -/
theorem contiguous_append {start : Nat} {first second : List Listed} :
    Assembler.Contiguous start (first ++ second) ↔
      Assembler.Contiguous start first ∧ Assembler.Contiguous (start + size first) second := by
  induction first generalizing start with
  | nil => simp [Assembler.Contiguous]
  | cons listed rest ih =>
    have stop : listed.offset + size (listed :: rest) = listed.stop + size rest := by
      rw [← offset_add_size, Nat.add_assoc, ← size_append]
      rfl
    simp only [List.cons_append, Assembler.Contiguous, ih]
    constructor
    · rintro ⟨rfl, before, behind⟩
      exact ⟨⟨rfl, before⟩, stop ▸ behind⟩
    · rintro ⟨⟨rfl, before⟩, behind⟩
      exact ⟨rfl, before, stop ▸ behind⟩

end Listed

/-- The instructions of a block. -/
structure Passage where
  /-- The label of the block. -/
  label : Label
  /-- The offset of the first instruction. -/
  offset : Nat
  /-- The instructions that go on with the next one and nowhere else. -/
  body : List Listed := []
  /-- The instruction that ends the block, unless control only falls out of it. -/
  last? : Option Listed := none
  /-- The next block, if control can go on with it. -/
  next? : Option Label := none
  /-- The edges that leave the block. -/
  edges : List Edge := []

namespace Passage

/-- All instructions of the block. -/
def instructions (passage : Passage) : List Listed := passage.body ++ passage.last?.toList

/-- What the block adds to the stack height. -/
def height (passage : Passage) : Int32 := Listed.height passage.instructions

/-- The largest stack height in the block, above its start. -/
def peak (passage : Passage) : Int32 := Listed.peak 0 passage.instructions

/-- No stack height in the block wraps around, above its start. -/
def IsExact (passage : Passage) : Prop := Listed.IsExact 0 passage.instructions

/-- The offset behind the last instruction. -/
def stop (passage : Passage) : Nat := passage.offset + Listed.size passage.instructions

/-- The labels that the last instruction names. -/
def targets (passage : Passage) : List Label :=
  passage.last?.toList.flatMap fun listed => listed.instruction.targets

/-- The labels that control can go to. -/
def leads (passage : Passage) : List Label := passage.targets ++ passage.next?.toList

/-- The instructions follow each other, come from the listing, and only the last may transfer
control. -/
structure Fits (passage : Passage) (listing : List Listed) : Prop where
  /-- There are no gaps. -/
  contiguous : Assembler.Contiguous passage.offset passage.instructions
  /-- The instructions are listed. -/
  listed : ∀ listed ∈ passage.instructions, listed ∈ listing
  /-- Control goes straight through the body. -/
  straight : ∀ listed ∈ passage.body, listed.instruction.isStraight = true
  /-- The last instruction does something else. -/
  last : ∀ listed ∈ passage.last?, listed.instruction.isStraight = false

/-- The block has ended: control goes on with the next block exactly if the last instruction lets
it, and the edges lead wherever control can go. -/
structure Ends (passage : Passage) : Prop where
  /-- There is a next block if control can go on. -/
  next : passage.next?.isSome = passage.last?.all fun listed => listed.instruction.continues
  /-- The edges lead wherever control can go, with the height at the end. -/
  edges : ∀ edge, edge ∈ passage.edges ↔
    ∃ label ∈ passage.leads, edge = ⟨.jump passage.height, label⟩

/-- Nothing has been decided yet about where control goes from the block. -/
structure IsFresh (passage : Passage) : Prop where
  /-- No instruction ends the block. -/
  last : passage.last? = none
  /-- Control does not fall out of it. -/
  next : passage.next? = none
  /-- No edge leaves it. -/
  edges : passage.edges = []

/-- The edges lead to the labels that the last instruction names. -/
def Linked (passage : Passage) : Prop :=
  ∀ edge, edge ∈ passage.edges ↔
    ∃ label ∈ passage.targets, edge = ⟨.jump passage.height, label⟩

/-- One block is placed right after another one. -/
def Before (first second : Passage) : Prop :=
  first.stop ≤ second.offset ∧
    ∀ label, first.next? = some label → label = second.label ∧ second.offset = first.stop

/-- One more instruction, which ends the block unless control goes straight through it. -/
def add (passage : Passage) (listed : Listed) : Passage :=
  if listed.instruction.isStraight then { passage with body := passage.body ++ [listed] }
  else { passage with last? := some listed }

/-- One more edge that leaves the block with its stack as it is. -/
def link (passage : Passage) (successor : Label) : Passage :=
  { passage with edges := ⟨.jump passage.height, successor⟩ :: passage.edges }

/-- The block falls into the next one. -/
def fallInto (passage : Passage) (label : Label) : Passage :=
  { passage.link label with next? := some label }

variable {passage : Passage} {listing : List Listed} {listed : Listed}

/-- The instructions are listed in any longer listing. -/
theorem Fits.mono {longer : List Listed} (fits : passage.Fits listing)
    (more : ∀ listed ∈ listing, listed ∈ longer) : passage.Fits longer :=
  { fits with listed := fun listed member => more listed (fits.listed listed member) }

/-- One more instruction leaves the block where it is. -/
@[simp]
theorem label_add (passage : Passage) (listed : Listed) :
    (passage.add listed).label = passage.label := by
  unfold add
  split <;> rfl

/-- One more instruction leaves the block where it is. -/
@[simp]
theorem offset_add (passage : Passage) (listed : Listed) :
    (passage.add listed).offset = passage.offset := by
  unfold add
  split <;> rfl

/-- One more instruction adds no edge. -/
@[simp]
theorem edges_add (passage : Passage) (listed : Listed) :
    (passage.add listed).edges = passage.edges := by
  unfold add
  split <;> rfl

/-- One more instruction does not say what the next block is. -/
@[simp]
theorem next?_add (passage : Passage) (listed : Listed) :
    (passage.add listed).next? = passage.next? := by
  unfold add
  split <;> rfl

/-- The instructions with one more. -/
theorem instructions_add (unended : passage.last? = none) (listed : Listed) :
    (passage.add listed).instructions = passage.instructions ++ [listed] := by
  unfold add instructions
  split <;> simp [unended]

/-- The height with one more instruction. -/
theorem height_add (unended : passage.last? = none) (listed : Listed) :
    (passage.add listed).height = passage.height + listed.instruction.delta := by
  rw [height, instructions_add unended, Listed.height_append, height]
  simp [Listed.height]

/-- The peak with one more instruction. -/
theorem peak_add (unended : passage.last? = none) (listed : Listed) :
    (passage.add listed).peak
      = max passage.peak (passage.height + listed.instruction.delta) := by
  rw [peak, instructions_add unended, Listed.peak_append_singleton, peak, height, Int32.zero_add]

/-- One more height that does not wrap around. -/
theorem IsExact.add (exactly : passage.IsExact) (unended : passage.last? = none)
    (adds : AddsExactly passage.height listed.instruction.delta) :
    (passage.add listed).IsExact := by
  rw [IsExact, instructions_add unended, Listed.isExact_append, Int32.zero_add]
  exact ⟨exactly, adds, trivial⟩

/-- The end with one more instruction. -/
theorem stop_add (unended : passage.last? = none) (here : listed.offset = passage.stop) :
    (passage.add listed).stop = listed.stop := by
  rw [stop] at here
  rw [stop, offset_add, instructions_add unended, Listed.size_append, ← Nat.add_assoc, ← here,
    Listed.offset_add_size]

/-- One more instruction at the end fits. -/
theorem Fits.add (fits : passage.Fits listing) (unended : passage.last? = none)
    (here : listed.offset = passage.stop) : (passage.add listed).Fits (listing ++ [listed]) where
  contiguous := by
    rw [instructions_add unended, offset_add, Listed.contiguous_append]
    exact ⟨fits.contiguous, here, trivial⟩
  listed other member := by
    rw [instructions_add unended, List.mem_append] at member
    exact List.mem_append.mpr (member.imp (fits.listed other) id)
  straight other member := by
    unfold Passage.add at member
    split at member
    · rename_i straight
      rcases List.mem_append.mp member with before | last
      · exact fits.straight other before
      · obtain rfl : other = listed := by simpa using last
        exact straight
    · exact fits.straight other member
  last other member := by
    unfold Passage.add at member
    split at member
    · simp [unended] at member
    · rename_i ends
      obtain rfl : listed = other := by simpa using member
      simpa using ends

/-- An undecided block has no edges, and its last instruction names no labels. -/
theorem IsFresh.linked (fresh : passage.IsFresh) : passage.Linked := by
  intro edge
  simp [fresh.edges, targets, fresh.last]

/-- A block has ended if its last instruction does not let control go on. -/
theorem Linked.ends (linked : passage.Linked) (next : passage.next? = none)
    (last : passage.last?.all (fun listed => listed.instruction.continues) = false) :
    passage.Ends where
  next := by rw [next, last]; rfl
  edges edge := by
    rw [linked edge]
    simp [leads, next]

/-- A block that falls into the next one has ended. -/
theorem Linked.ends_fallInto (linked : passage.Linked)
    (last : passage.last?.all (fun listed => listed.instruction.continues) = true) (label : Label) :
    (passage.fallInto label).Ends where
  next := last.symm
  edges edge := by
    have old := linked edge
    have height : (passage.fallInto label).height = passage.height := rfl
    have leads : (passage.fallInto label).leads = passage.targets ++ [label] := rfl
    have edges : (passage.fallInto label).edges
        = ⟨.jump passage.height, label⟩ :: passage.edges := rfl
    simp only [height, leads, edges, List.mem_cons, List.mem_append, List.not_mem_nil, or_false]
    rw [old]
    constructor
    · rintro (new | ⟨target, named, same⟩)
      · exact ⟨label, .inr rfl, new⟩
      · exact ⟨target, .inl named, same⟩
    · rintro ⟨target, named | rfl, same⟩
      · exact .inr ⟨target, named, same⟩
      · exact .inl same

/-- Edges to several labels, in order. -/
def linkAll (passage : Passage) (targets : List Label) : Passage :=
  targets.foldl link passage

/-- Edges change nothing but the edges. -/
theorem linkAll_eq (passage : Passage) (targets : List Label) :
    passage.linkAll targets = { passage with edges := (passage.linkAll targets).edges } := by
  unfold linkAll
  induction targets generalizing passage with
  | nil => rfl
  | cons target rest ih =>
    rw [List.foldl_cons]
    exact ih (passage.link target)

/-- The edges are the old ones and one to each of the labels. -/
theorem mem_edges_linkAll {targets : List Label} {edge : Edge} :
    edge ∈ (passage.linkAll targets).edges ↔
      (∃ label ∈ targets, edge = ⟨.jump passage.height, label⟩) ∨ edge ∈ passage.edges := by
  unfold linkAll
  induction targets generalizing passage with
  | nil => simp
  | cons target rest ih =>
    have height : (passage.link target).height = passage.height := rfl
    have edges : (passage.link target).edges
        = ⟨.jump passage.height, target⟩ :: passage.edges := rfl
    rw [List.foldl_cons, ih, height, edges]
    simp only [List.mem_cons, exists_eq_or_imp]
    constructor
    · rintro (new | old | old)
      · exact .inl (.inr new)
      · exact .inl (.inl old)
      · exact .inr old
    · rintro ((new | new) | old)
      · exact .inr (.inl new)
      · exact .inl new
      · exact .inr (.inr old)

/-- A block whose last instruction names labels is linked once it has an edge to each of them. -/
theorem linked_linkAll (fresh : passage.edges = []) {targets : List Label}
    (named : passage.targets = targets) : (passage.linkAll targets).Linked := by
  intro edge
  rw [mem_edges_linkAll, fresh]
  have rest := passage.linkAll_eq targets
  have same : (passage.linkAll targets).targets = targets := by
    rw [rest]
    exact named
  have height : (passage.linkAll targets).height = passage.height := by
    rw [rest]
    rfl
  rw [same, height]
  simp

/-- The last instruction ends the block. -/
theorem last?_add (bent : listed.instruction.isStraight = false) :
    (passage.add listed).last? = some listed := by
  simp [add, bent]

/-- The labels that the last instruction names. -/
theorem targets_add (bent : listed.instruction.isStraight = false) :
    (passage.add listed).targets = listed.instruction.targets := by
  simp [targets, last?_add bent]

/-- An undecided block with its last instruction and an edge to each label that it names. -/
theorem IsFresh.linked_add (fresh : passage.IsFresh)
    (bent : listed.instruction.isStraight = false) :
    ((passage.add listed).linkAll listed.instruction.targets).Linked :=
  linked_linkAll (by rw [edges_add, fresh.edges]) (targets_add bent)

end Passage

end MethodBody
