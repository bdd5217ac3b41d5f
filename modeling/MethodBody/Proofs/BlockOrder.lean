import MethodBody.Proofs.Containment
import MethodBody.Proofs.Evolution

/-!
# The order of the blocks

The blocks are exactly the labels that have a place and are not there for debugging only, in the
order of their offsets (`Assembler.InBlockOrder`). This is so in every state that a run comes to,
whether its operations fail or not (`inBlockOrder_afterAll`): a block only ever starts behind all
that is written, and a label that has its place keeps it.
-/

namespace MethodBody

namespace FlowGraph

/-- Both labels have their places, and the first one lies no further back than the second. -/
def Precedes (graph : FlowGraph) (first second : Label) : Prop :=
  ∃ front back, graph.offset? first = some front ∧ graph.offset? second = some back ∧ front ≤ back

/-- The label has its place and is not there for debugging only. -/
def IsOrdinary (graph : FlowGraph) (label : Label) : Prop :=
  ∃ node, graph.node? label = some node ∧ node.isPlaced = true ∧ node.flags.debugOnly = false

/-- The label has no place yet, but control is transferred to it. -/
def IsAwaited (graph : FlowGraph) (label : Label) : Prop :=
  ∃ node, graph.node? label = some node ∧ node.isPlaced = false ∧ node.flags.jumpTarget = true ∧
    node.flags.debugOnly = false

/-- A change that keeps the offsets. -/
theorem offset?_update_eq {change : Node → Node}
    (same : ∀ node, (change node).offset? = node.offset?)
    (graph : FlowGraph) (changed : Label) :
    (graph.update changed change).offset? = graph.offset? := by
  funext label
  simp only [offset?, node?_update]
  split
  · cases graph.node? label <;> simp [same]
  · rfl

/-- A label that is created has no offset yet. -/
theorem offset?_create (graph : FlowGraph) (flags : Flags) :
    (graph.create flags).offset? = graph.offset? := by
  funext label
  simp only [offset?, node?_create]
  split
  · rename_i last
    simp [last, Node.offset?]
  · rfl

end FlowGraph

namespace Assembler

variable {assembler before after : Assembler} {label : Label}

namespace Alters

/-- All labels keep their offsets, except for one without an offset that may be placed behind all
that is written. -/
theorem offset?_eq (alters : before.Alters after) :
    after.graph.offset? = before.graph.offset? ∨
      ∃ placed, before.graph.offset? placed = none ∧ ∀ label, after.graph.offset? label =
        if placed = label then some before.code.size else before.graph.offset? label := by
  cases alters with
  | writes graph => exact .inl (by rw [graph])
  | creates flags => exact .inl (FlowGraph.offset?_create _ flags)
  | changes changed _ place => exact .inl (FlowGraph.offset?_update_eq place _ changed)
  | links block =>
    refine .inl (FlowGraph.offset?_update_eq ?_ _ block)
    exact fun _ => rfl
  | starts => exact .inl rfl
  | @settles placed node known unplaced =>
    refine .inr ⟨placed, ?_, fun label => ?_⟩
    · simpa [FlowGraph.offset?, known, Node.isPlaced] using unplaced
    · simp only [Assembler.update, FlowGraph.offset?, FlowGraph.node?_update]
      split
      · rename_i same
        simp [← same, known, Node.offset?]
      · rfl

/-- A label keeps its place. -/
theorem keepsOffset (alters : before.Alters after) {offset : Nat}
    (found : before.graph.offset? label = some offset) :
    after.graph.offset? label = some offset := by
  rcases alters.offset?_eq with same | ⟨placed, unplaced, places⟩
  · rw [same]
    exact found
  · have other : placed ≠ label := by
      rintro rfl
      simp [unplaced] at found
    rw [places, if_neg other]
    exact found

/-- No byte is taken away. -/
theorem size_le (alters : before.Alters after) : before.code.size ≤ after.code.size := by
  cases alters with
  | writes _ _ longer => exact longer
  | _ => exact Nat.le_refl _

/-- The blocks stay as they are, or one starts behind all others. -/
theorem blocks_eq (alters : before.Alters after) :
    after.graph.blocks = before.graph.blocks ∨
      ∃ label, before.CanStart label ∧ after.graph.node? label = before.graph.node? label ∧
        after.graph.blocks = before.graph.blocks.push label := by
  cases alters with
  | writes graph => exact .inl (by rw [graph])
  | @starts label canStart => exact .inr ⟨label, canStart, rfl, rfl⟩
  | _ => exact .inl rfl

/-- A label that is not there for debugging only will never be. -/
theorem isOrdinary (alters : before.Alters after) (ordinary : before.graph.IsOrdinary label) :
    after.graph.IsOrdinary label := by
  obtain ⟨node, known, placed, plain⟩ := ordinary
  have updated (changed : Label) (change : Node → Node)
      (keeps : ∀ other, before.graph.node? changed = some other → other.isPlaced = true →
        other.flags.debugOnly = false →
          (change other).isPlaced = true ∧ (change other).flags.debugOnly = false) :
      (before.update changed change).graph.IsOrdinary label := by
    by_cases same : changed = label
    · obtain ⟨stillPlaced, stillPlain⟩ := keeps node (same ▸ known) placed plain
      exact ⟨change node, by simp [Assembler.update, FlowGraph.node?_update, same, known],
        stillPlaced, stillPlain⟩
    · exact ⟨node, by simp [Assembler.update, FlowGraph.node?_update, same, known], placed, plain⟩
  cases alters with
  | writes graph => exact ⟨node, by rw [graph]; exact known, placed, plain⟩
  | starts => exact ⟨node, known, placed, plain⟩
  | creates flags =>
    have other : label ≠ before.graph.nextLabel := by
      rintro rfl
      simp at known
    exact ⟨node, by simp [FlowGraph.node?_create, other, known], placed, plain⟩
  | changes changed _ place ordinary =>
    refine updated changed _ fun other _ has stays => ⟨?_, ordinary other stays⟩
    rw [Node.isPlaced, place]
    exact has
  | @settles changed other found unplaced =>
    exact updated changed _ fun _ _ _ stays => ⟨rfl, stays⟩
  | links block => exact updated block _ fun _ _ has stays => ⟨has, stays⟩

end Alters

/-- The first block is the start of the method, the blocks are ordinary labels in the order of their
offsets, and no label lies behind all that is written. -/
structure Ascends (assembler : Assembler) : Prop where
  /-- The method starts with its first block. -/
  first : assembler.graph.firstBlock? = some .start
  /-- A block has its place and is not there for debugging only. -/
  ordinary : ∀ label ∈ assembler.graph.blocks, assembler.graph.IsOrdinary label
  /-- Blocks that start later do not lie further in front. -/
  ascending : assembler.graph.blocks.toList.Pairwise assembler.graph.Precedes
  /-- No label lies behind the next instruction. -/
  behind : ∀ label offset, assembler.graph.offset? label = some offset →
    offset ≤ assembler.code.size

namespace Ascends

/-- No label lies behind all that is written after a small step. -/
theorem behind_alters (ascends : before.Ascends) (alters : before.Alters after) {offset : Nat}
    (found : after.graph.offset? label = some offset) : offset ≤ after.code.size := by
  refine Nat.le_trans ?_ alters.size_le
  rcases alters.offset?_eq with same | ⟨placed, _, places⟩
  · rw [same] at found
    exact ascends.behind label offset found
  · rw [places] at found
    split at found
    · obtain rfl := Option.some.inj found
      exact Nat.le_refl _
    · exact ascends.behind label offset found

/-- Small steps keep the order of the blocks. -/
theorem alters (ascends : before.Ascends) (alters : before.Alters after) : after.Ascends := by
  have behind (label : Label) (offset : Nat) (found : after.graph.offset? label = some offset) :=
    ascends.behind_alters alters found
  have precedes {one two : Label} (before : before.graph.Precedes one two) :
      after.graph.Precedes one two := by
    obtain ⟨front, back, here, there, ordered⟩ := before
    exact ⟨front, back, alters.keepsOffset here, alters.keepsOffset there, ordered⟩
  rcases alters.blocks_eq with same | ⟨label, ⟨node, known, plain, here⟩, still, pushed⟩
  · refine ⟨?_, ?_, ?_, behind⟩
    · rw [FlowGraph.firstBlock?, same]
      exact ascends.first
    · rw [same]
      exact fun label member => alters.isOrdinary (ascends.ordinary label member)
    · rw [same]
      exact ascends.ascending.imp precedes
  · have placed : before.graph.offset? label = some before.code.size := by
      simp [FlowGraph.offset?, known, here]
    refine ⟨?_, ?_, ?_, behind⟩
    · have some := ascends.first
      have inside := (Array.getElem?_eq_some_iff.mp some).1
      rw [FlowGraph.firstBlock?, pushed, Array.getElem?_push_lt inside]
      exact (Array.getElem?_eq_getElem _).symm.trans some
    · intro other member
      rw [pushed] at member
      rcases Array.mem_push.mp member with old | rfl
      · exact alters.isOrdinary (ascends.ordinary other old)
      · exact ⟨node, still.trans known, by simp [Node.isPlaced, here], plain⟩
    · -- The new block lies behind all that is written, and no other label lies further back.
      rw [pushed, Array.toList_push]
      refine List.pairwise_append.mpr ⟨ascends.ascending.imp precedes,
        List.pairwise_singleton _ _, ?_⟩
      intro one member other last
      obtain rfl : other = label := by simpa using last
      obtain ⟨found, is, has, _⟩ := ascends.ordinary one (Array.mem_toList_iff.mp member)
      obtain ⟨offset, place⟩ := Option.isSome_iff_exists.mp has
      have front : before.graph.offset? one = some offset := by
        simp [FlowGraph.offset?, is, place]
      exact precedes ⟨offset, _, front, placed, ascends.behind one offset front⟩

/-- A protected range that is added keeps the order of the blocks. -/
theorem note (ascends : assembler.Ascends) (handler? : Option Handler) :
    (assembler.note handler?).Ascends := by
  cases handler? with
  | none => exact ascends
  | some handler => exact ⟨ascends.first, ascends.ordinary, ascends.ascending, ascends.behind⟩

/-- A method without instructions has one block. -/
theorem start (settings : Settings) (slots : UInt16) : (start settings slots).Ascends where
  first := rfl
  ordinary label member := by
    obtain rfl : label = .start := by simpa [Assembler.start] using member
    exact ⟨_, rfl, rfl, rfl⟩
  ascending := List.pairwise_singleton _ _
  behind := (IsText.start settings slots).behind

/-- A run keeps the order of the blocks. -/
theorem afterAll (settings : Settings) (slots : UInt16) (operations : List Operation) :
    ((Assembler.start settings slots).afterAll operations).Ascends :=
  holds_afterAll (fun alters ascends => ascends.alters alters)
    (fun handler? ascends => ascends.note handler?) (start settings slots) operations

end Ascends

/-- The blocks are the placed labels that are not there for debugging only, in the order of their
offsets, and control only passes to blocks and to labels that become blocks once they are placed. -/
structure InBlockOrder (assembler : Assembler) : Prop where
  /-- The labels are numbered in the order in which they were created. -/
  named : ∀ (index : Nat) (node : Node), assembler.graph.nodes[index]? = some node →
    node.label = ⟨index⟩
  /-- No block starts twice. -/
  distinct : assembler.graph.blocks.toList.Nodup
  /-- The method starts with its first block. -/
  first : assembler.graph.firstBlock? = some .start
  /-- The blocks are the labels that have a place and are not there for debugging only. -/
  mem_iff : ∀ label, label ∈ assembler.graph.blocks ↔ assembler.graph.IsOrdinary label
  /-- Blocks that start later do not lie further in front. -/
  ascending : assembler.graph.blocks.toList.Pairwise assembler.graph.Precedes
  /-- No label lies behind the next instruction. -/
  behind : ∀ label offset, assembler.graph.offset? label = some offset →
    offset ≤ assembler.code.cursor
  /-- The open block is the last one. -/
  last : ∀ block, assembler.openBlock = some block →
    assembler.graph.blocks.back? = some block.label
  /-- Edges lead to blocks, or to labels that are to become blocks. -/
  leads : ∀ label, ∀ edge ∈ assembler.graph.edgesOf label,
    edge.successor ∈ assembler.graph.blocks ∨ assembler.graph.IsAwaited edge.successor

/-- A target is a block, or it is to become one. -/
theorem Anchored.mem_or_isAwaited (anchored : assembler.Anchored true none)
    (target : assembler.graph.IsTarget label) :
    label ∈ assembler.graph.blocks ∨ assembler.graph.IsAwaited label := by
  obtain ⟨node, known, marked⟩ := id target
  cases placed : node.isPlaced with
  | true =>
    obtain ⟨offset, found⟩ := Option.isSome_iff_exists.mp placed
    have lies : assembler.graph.offset? label = some offset := by
      simp [FlowGraph.offset?, known, found]
    exact .inl (anchored.isBlock target lies)
  | false =>
    exact .inr ⟨node, known, placed, marked, (anchored.labels label node known).target marked⟩

/-- After every run, whether its operations fail or not, the blocks are in order. And whatever is
done afterwards, a label that has its place keeps it. -/
theorem inBlockOrder_afterAll (settings : Settings) (slots : UInt16) (operations : List Operation) :
    ((start settings slots).afterAll operations).InBlockOrder ∧
      ∀ later label offset,
        ((start settings slots).afterAll operations).graph.offset? label = some offset →
          ((start settings slots).afterAll (operations ++ later)).graph.offset? label
            = some offset := by
  have ascends := Ascends.afterAll settings slots operations
  have anchored := anchored_afterAll settings slots operations
  have wired := (wired_afterAll settings slots operations).1
  refine ⟨?_, fun later label offset found => ?_⟩
  · constructor
    case named => exact fun index node found => (anchored.labels ⟨index⟩ node found).named
    case distinct => exact wired.distinct
    case first => exact ascends.first
    case mem_iff =>
      refine fun label => ⟨ascends.ordinary label, ?_⟩
      rintro ⟨node, known, placed, plain⟩
      simpa using (anchored.labels label node known).block placed plain
    case ascending => exact ascends.ascending
    case behind => exact ascends.behind
    case last => exact fun block opened => wired.last _ (isOpen_of_openBlock opened)
    case leads =>
      intro label edge member
      rcases wired.leads label edge member with target | ⟨block, _⟩
      · exact anchored.mem_or_isAwaited target
      · exact .inl block
  · rw [afterAll, List.foldl_append]
    exact (Keeps.afterAll _ later).offsets label offset found

end Assembler

end MethodBody
