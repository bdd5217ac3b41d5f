import MethodBody.Proofs.Bytes
import MethodBody.Proofs.Listing
import MethodBody.Proofs.Outcome

/-!
# The text of pieces

What the bytes of pieces are, given the offsets of the labels that have one. A distance to a label
with an offset is written out, in the unsigned form of its branch if it is too long for a signed
operand; any other distance is a placeholder. Filling in the references to a label turns the text
for the label without an offset into the text for the label with its offset, and touches nothing
else (`toList_overwriteAll`).
-/

namespace MethodBody

/-- The offsets of labels, with one label given an offset. -/
def placing (offset? : Label → Option Nat) (label : Label) (offset : Nat) : Label → Option Nat :=
  fun other => if other = label then some offset else offset? other

namespace Piece

/-- A branch with its distance, given its own offset and that of its target. -/
def branchText (opcode : Opcode) (source offset : Nat) : List UInt8 :=
  let distance := Offset.distance offset source
  if Width.narrow.Fits distance then opcode :: Width.narrow.operand distance
  else opcode.unsignedForm?.getD opcode :: BigEndian.encodeSigned 2 distance

/-- The bytes of a piece that starts at the given offset. -/
def text (offset? : Label → Option Nat) (start : Nat) : Piece → List UInt8
  | literal bytes => bytes
  | branch opcode target =>
    match offset? target with
    | none => opcode :: Width.narrow.operand (-1)
    | some offset => branchText opcode start offset
  | distance source target =>
    match offset? target with
    | none => Width.wide.operand (-1)
    | some offset => Width.wide.operand (Offset.distance offset source)

/-- The reference to a label in a piece that starts at the given offset. -/
def reference? (label : Label) (start : Nat) : Piece → Option Reference
  | literal _ => none
  | branch _ target => if target = label then some ⟨start, .narrow, start + 1⟩ else none
  | distance source target => if target = label then some ⟨source, .wide, start⟩ else none

/-- The operand holds the distance to its target, and a branch is one. -/
def Holds (offset? : Label → Option Nat) (start : Nat) : Piece → Prop
  | literal _ => True
  | branch opcode target => opcode.isNarrowBranch = true ∧ ∀ offset, offset? target = some offset →
      Width.narrow.Fits (Offset.distance offset start) ∨
        BigEndian.FitsUnsigned 2 (Offset.distance offset start)
  | distance source target => ∀ offset, offset? target = some offset →
      Width.wide.Fits (Offset.distance offset source)

/-- The bytes of pieces of which the first starts at the given offset. -/
def textAll (offset? : Label → Option Nat) : (start : Nat) → List Piece → List UInt8
  | _, [] => []
  | start, piece :: rest => piece.text offset? start ++ textAll offset? (start + piece.size) rest

/-- The references to a label in pieces of which the first starts at the given offset. -/
def references (label : Label) : (start : Nat) → List Piece → List Reference
  | _, [] => []
  | start, piece :: rest =>
    (piece.reference? label start).toList ++ references label (start + piece.size) rest

/-- The operands hold the distances to their targets. -/
def HoldAll (offset? : Label → Option Nat) : (start : Nat) → List Piece → Prop
  | _, [] => True
  | start, piece :: rest =>
    piece.Holds offset? start ∧ HoldAll offset? (start + piece.size) rest

/-- No pieces have no bytes. -/
@[simp]
theorem totalSize_nil : totalSize [] = 0 := rfl

/-- The size of pieces is the size of the first and of the others. -/
@[simp]
theorem totalSize_cons (piece : Piece) (rest : List Piece) :
    totalSize (piece :: rest) = piece.size + totalSize rest := rfl

/-- Sizes add up. -/
@[simp]
theorem totalSize_append (first second : List Piece) :
    totalSize (first ++ second) = totalSize first + totalSize second := by
  induction first with
  | nil => simp
  | cons piece rest ih => simp [ih, Nat.add_assoc]

/-- The text of a branch is as long as the branch. -/
@[simp]
theorem length_branchText (opcode : Opcode) (source offset : Nat) :
    (branchText opcode source offset).length = 3 := by
  unfold branchText
  simp only
  split <;> simp [Width.size]

/-- The text of a piece is as long as the piece. -/
@[simp]
theorem length_text (offset? : Label → Option Nat) (start : Nat) (piece : Piece) :
    (piece.text offset? start).length = piece.size := by
  cases piece with
  | literal bytes => rfl
  | branch opcode target =>
    simp only [text, size]
    split <;> simp [Width.size]
  | distance source target =>
    simp only [text, size]
    split <;> simp

/-- The text of pieces is as long as the pieces. -/
@[simp]
theorem length_textAll (offset? : Label → Option Nat) (start : Nat) (pieces : List Piece) :
    (textAll offset? start pieces).length = totalSize pieces := by
  induction pieces generalizing start with
  | nil => rfl
  | cons piece rest ih => simp [textAll, ih]

/-- The text of pieces in a row. -/
theorem textAll_append (offset? : Label → Option Nat) (start : Nat) (first second : List Piece) :
    textAll offset? start (first ++ second)
      = textAll offset? start first ++ textAll offset? (start + totalSize first) second := by
  induction first generalizing start with
  | nil => rfl
  | cons piece rest ih => simp [textAll, ih, Nat.add_assoc]

/-- The references in pieces in a row. -/
theorem references_append (label : Label) (start : Nat) (first second : List Piece) :
    references label start (first ++ second)
      = references label start first ++ references label (start + totalSize first) second := by
  induction first generalizing start with
  | nil => rfl
  | cons piece rest ih => simp [references, ih, Nat.add_assoc]

/-- The operands of pieces in a row. -/
theorem holdAll_append (offset? : Label → Option Nat) (start : Nat) (first second : List Piece) :
    HoldAll offset? start (first ++ second)
      ↔ HoldAll offset? start first ∧ HoldAll offset? (start + totalSize first) second := by
  induction first generalizing start with
  | nil => simp [HoldAll]
  | cons piece rest ih => simp [HoldAll, ih, Nat.add_assoc, and_assoc]

/-- The distances in pieces in a row. -/
theorem mentions_append (start : Nat) (first second : List Piece) :
    mentions start (first ++ second)
      = mentions start first ++ mentions (start + totalSize first) second := by
  induction first generalizing start with
  | nil => rfl
  | cons piece rest ih => simp [mentions, ih, Nat.add_assoc]

/-- A piece without a reference to a label is the same for every offset of the label. -/
theorem text_placing {offset? : Label → Option Nat} {label : Label} {start : Nat} {piece : Piece}
    (offset : Nat) (none : piece.reference? label start = none) :
    piece.text (placing offset? label offset) start = piece.text offset? start ∧
      (piece.Holds (placing offset? label offset) start ↔ piece.Holds offset? start) := by
  cases piece with
  | literal bytes => exact ⟨rfl, Iff.rfl⟩
  | branch opcode target =>
    have other : target ≠ label := by
      intro same
      simp [reference?, same] at none
    simp [text, Holds, placing, other]
  | distance source target =>
    have other : target ≠ label := by
      intro same
      simp [reference?, same] at none
    simp [text, Holds, placing, other]

end Piece

/-- What is planned for a branch, given its opcode, is what its text says. -/
theorem toList_overwrite_branch {code original : Buffer} {front old back : List UInt8}
    {opcode : Opcode} {target : Nat} {patch : Patch}
    (split : code.toList = front ++ opcode :: old ++ back) (size : old.length = 2)
    (byte : original.byte? front.length = some opcode)
    (planned : (Reference.mk front.length .narrow (front.length + 1)).plan original target
      = .ok patch) :
    ((Reference.mk front.length .narrow (front.length + 1)).overwrite code patch).toList
        = front ++ Piece.branchText opcode front.length target ++ back ∧
      (Width.narrow.Fits (Offset.distance target front.length) ∨
        BigEndian.FitsUnsigned 2 (Offset.distance target front.length)) := by
  unfold Reference.plan at planned
  unfold Piece.branchText
  simp only at planned ⊢
  by_cases fits : Width.narrow.Fits (Offset.distance target front.length)
  · rw [if_pos fits] at planned ⊢
    obtain rfl := Except.ok.inj planned
    have behind : code.toList = (front ++ [opcode]) ++ old ++ back := by simp [split]
    have site : front.length + 1 = (front ++ [opcode]).length := by simp
    refine ⟨?_, .inl fits⟩
    rw [Reference.overwrite, site, Buffer.toList_write behind (by simp [size, Width.size])]
    simp
  · rw [if_neg fits] at planned ⊢
    simp only [Reference.planUnsigned, byte] at planned
    cases form : opcode.unsignedForm? with
    | none => simp [form, throw, throwThe, MonadExceptOf.throw] at planned
    | some unsigned =>
      simp only [form, pure, Except.pure] at planned
      split at planned
      · rename_i fitsUnsigned
        obtain rfl := Except.ok.inj planned
        have first : code.toList = front ++ [opcode] ++ (old ++ back) := by simp [split]
        have one : [unsigned].length = [opcode].length := rfl
        have second : (code.write front.length [unsigned]).toList
            = (front ++ [unsigned]) ++ old ++ back := by
          rw [Buffer.toList_write first one]
          simp
        have site : front.length + 1 = (front ++ [unsigned]).length := by simp
        refine ⟨?_, .inr fitsUnsigned⟩
        rw [Reference.overwrite, site, Buffer.toList_write second (by simp [size])]
        simp
      · simp [throw, throwThe, MonadExceptOf.throw] at planned

/-- What is planned for a wide operand is what its text says. -/
theorem toList_overwrite_distance {code original : Buffer} {front old back : List UInt8}
    {source target : Nat} {patch : Patch}
    (split : code.toList = front ++ old ++ back) (size : old.length = 4)
    (planned : (Reference.mk source .wide front.length).plan original target = .ok patch) :
    ((Reference.mk source .wide front.length).overwrite code patch).toList
        = front ++ Width.wide.operand (Offset.distance target source) ++ back ∧
      Width.wide.Fits (Offset.distance target source) := by
  unfold Reference.plan at planned
  simp only at planned
  split at planned
  · rename_i fits
    obtain rfl := Except.ok.inj planned
    exact ⟨Buffer.toList_write split (by simp [size, Width.size]), fits⟩
  · simp at planned

/-- What is planned for a reference turns the text of its piece for the label without an offset into
the text for the label with its offset. -/
theorem toList_overwrite {offset? : Label → Option Nat} {label : Label} {start target : Nat}
    (unplaced : offset? label = none) {piece : Piece} {reference : Reference}
    (refers : piece.reference? label start = some reference)
    {code original : Buffer} {front old back : List UInt8} {patch : Patch}
    (split : code.toList = front ++ piece.text offset? start ++ back) (here : front.length = start)
    (origin : original.toList = old ++ piece.text offset? start ++ back)
    (there : old.length = start) (planned : reference.plan original target = .ok patch) :
    (reference.overwrite code patch).toList
        = front ++ piece.text (placing offset? label target) start ++ back ∧
      (piece.Holds offset? start → piece.Holds (placing offset? label target) start) := by
  subst here
  cases piece with
  | literal bytes => simp [Piece.reference?] at refers
  | branch opcode other =>
    simp only [Piece.reference?, Option.ite_none_right_eq_some, Option.some.injEq] at refers
    obtain ⟨rfl, rfl⟩ := refers
    simp only [Piece.text, unplaced] at split origin
    have byte : original.byte? front.length = some opcode := by
      rw [List.append_assoc, List.cons_append] at origin
      rw [← there]
      exact Buffer.byte?_of_split origin
    have written := toList_overwrite_branch split (by simp [Width.size]) byte planned
    refine ⟨by simpa [Piece.text, placing] using written.1, fun holds => ⟨holds.1, ?_⟩⟩
    intro offset found
    obtain rfl : target = offset := by simpa [placing] using found
    exact written.2
  | distance source other =>
    simp only [Piece.reference?, Option.ite_none_right_eq_some, Option.some.injEq] at refers
    obtain ⟨rfl, rfl⟩ := refers
    simp only [Piece.text, unplaced] at split
    have written := toList_overwrite_distance split (by simp [Width.size]) planned
    refine ⟨by simpa [Piece.text, placing] using written.1, fun _ => ?_⟩
    intro offset found
    obtain rfl : target = offset := by simpa [placing] using found
    exact written.2

/-- Write what was planned for each reference, in order. -/
def overwriteAll (code : Buffer) (planned : List (Reference × Patch)) : Buffer :=
  planned.foldl (fun code (reference, patch) => reference.overwrite code patch) code

/-- Filling in all references to a label, which has no offset yet, turns the text for the label
without an offset into the text for the label with its offset. The plan is made for the original
bytes, which differ from the present ones in front of the pieces only. -/
theorem toList_overwriteAll {offset? : Label → Option Nat} {label : Label} {target : Nat}
    (unplaced : offset? label = none) (pieces : List Piece) {original : Buffer}
    {back : List UInt8} {start : Nat} {code : Buffer} {front old : List UInt8}
    {planned : List (Reference × Patch)}
    (split : code.toList = front ++ Piece.textAll offset? start pieces ++ back)
    (here : front.length = start)
    (origin : original.toList = old ++ Piece.textAll offset? start pieces ++ back)
    (there : old.length = start)
    (plans : ((Piece.references label start pieces).mapM fun reference =>
      (reference, ·) <$> reference.plan original target) = .ok planned) :
    (overwriteAll code planned).toList
        = front ++ Piece.textAll (placing offset? label target) start pieces ++ back ∧
      (Piece.HoldAll offset? start pieces →
        Piece.HoldAll (placing offset? label target) start pieces) := by
  -- The invariant: the text in front of the pieces that are left is the final one.
  induction pieces generalizing start code front old planned with
  | nil =>
    obtain rfl : [] = planned := Except.ok.inj plans
    exact ⟨split, id⟩
  | cons piece rest ih =>
    rw [Piece.textAll, ← List.append_assoc, List.append_assoc _ _ back] at split origin
    rw [Piece.references] at plans
    have further : old ++ piece.text offset? start
          ++ (Piece.textAll offset? (start + piece.size) rest ++ back)
        = (old ++ piece.text offset? start) ++ Piece.textAll offset? (start + piece.size) rest
          ++ back := by
      simp
    have thereAfter : (old ++ piece.text offset? start).length = start + piece.size := by
      simp [there]
    cases refers : piece.reference? label start with
    | none =>
      obtain ⟨same, holds⟩ := piece.text_placing target refers
      rw [refers] at plans
      rw [← List.append_assoc] at split
      have hereAfter : (front ++ piece.text offset? start).length = start + piece.size := by
        simp [here]
      have after := ih split hereAfter (origin.trans further) thereAfter plans
      rw [Piece.textAll, Piece.HoldAll, Piece.HoldAll, same, holds, ← List.append_assoc front]
      exact ⟨after.1, fun all => ⟨all.1, after.2 all.2⟩⟩
    | some reference =>
      rw [refers] at plans
      obtain ⟨first, later, one, others, rfl⟩ := mapM_cons_eq_ok.mp plans
      obtain ⟨patch, plan, rfl⟩ := map_eq_ok.mp one
      have written := toList_overwrite unplaced refers split here origin there plan
      have next := written.1
      rw [← List.append_assoc] at next
      have hereAfter : (front ++ piece.text (placing offset? label target) start).length
          = start + piece.size := by simp [here]
      have after := ih next hereAfter (origin.trans further) thereAfter others
      rw [Piece.textAll, Piece.HoldAll, Piece.HoldAll, ← List.append_assoc front]
      exact ⟨after.1, fun all => ⟨written.2 all.1, after.2 all.2⟩⟩

end MethodBody
