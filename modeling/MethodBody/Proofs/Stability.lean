import MethodBody.Proofs.Decoding

/-!
# Bytes that never change

When a label is placed, the references to it are filled in, far behind the place where the next
instruction goes. What a stretch of code holds before and afterwards differs in the operands of
references only, and in the opcode of a branch that turns out to be too long for its operand
(`Piece.StandAt.byte?_eq`).
-/

namespace MethodBody

namespace Mention

/-- The width of the operand. -/
def width (mention : Mention) : Width :=
  if mention.branch?.isSome then .narrow else .wide

/-- The byte at the offset belongs to the operand. -/
def Covers (mention : Mention) (offset : Nat) : Prop :=
  mention.site ≤ offset ∧ offset < mention.site + mention.width.size

/-- The operand is narrow, and the label lies too far away for it. -/
def Overshoots (mention : Mention) (offset? : Label → Option Nat) : Prop :=
  mention.branch?.isSome = true ∧ ∃ offset, offset? mention.target = some offset ∧
    ¬ Width.narrow.Fits (Offset.distance offset mention.source)

end Mention

namespace Piece

variable {mention : Mention} {start : Nat} {pieces : List Piece}

namespace StandAt

variable {offset? before after : Label → Option Nat} {code first second : Buffer} {offset : Nat}
  {rest : List Piece} {opcode : Opcode} {target : Label}

/-- The opcode of a branch is the one that was asked for, or its unsigned form if the label lies too
far away. -/
theorem byte?_branch (stand : StandAt offset? code offset (.branch opcode target :: rest)) :
    let mention : Mention := ⟨target, offset, offset + 1, some opcode⟩
    (mention.Overshoots offset? → code.byte? offset = opcode.unsignedForm?) ∧
      (¬ mention.Overshoots offset? → code.byte? offset = some opcode) := by
  obtain ⟨front, back, split, rfl, branch, holds⟩ := stand.head
  intro mention
  have first (byte : UInt8) (operand : List UInt8)
      (same : (Piece.branch opcode target).text offset? front.length = byte :: operand) :
      code.byte? front.length = some byte := by
    rw [same, List.append_assoc, List.cons_append] at split
    exact Buffer.byte?_of_split split
  cases placed : offset? target with
  | none =>
    refine ⟨fun ⟨_, offset, found, _⟩ => ?_, fun _ => first opcode _ (by rw [Piece.text, placed])⟩
    simp [mention, placed] at found
  | some place =>
    by_cases fits : Width.narrow.Fits (Offset.distance place front.length)
    · refine ⟨fun ⟨_, offset, found, far⟩ => ?_, fun _ => ?_⟩
      · obtain rfl : place = offset := Option.some.inj (placed.symm.trans found)
        exact absurd fits far
      · refine first opcode (Width.narrow.operand (Offset.distance place front.length)) ?_
        rw [Piece.text, placed]
        simp only [branchText, if_pos fits]
    · obtain ⟨unsigned, form, _⟩ := Opcode.exists_unsignedForm? branch
      refine ⟨fun _ => ?_, fun near => absurd ⟨rfl, place, placed, fits⟩ near⟩
      rw [form]
      refine first unsigned (BigEndian.encodeSigned 2 (Offset.distance place front.length)) ?_
      rw [Piece.text, placed]
      simp only [branchText, if_neg fits, form, Option.getD_some]

/-- Two stretches of code for the same pieces hold the same byte, unless it belongs to an operand,
or it is the opcode of a branch that is too long in one of them only. -/
theorem byte?_eq (one : StandAt before first start pieces) (two : StandAt after second start pieces)
    {index : Nat} (behind : start ≤ index) (inside : index < start + totalSize pieces)
    (uncovered : ∀ mention ∈ mentions start pieces, ¬ mention.Covers index)
    (steady : ∀ mention ∈ mentions start pieces, mention.source = index →
      (mention.Overshoots before ↔ mention.Overshoots after)) :
    first.byte? index = second.byte? index := by
  induction pieces generalizing start with
  | nil => exact absurd inside (Nat.not_lt_of_le behind)
  | cons piece rest ih =>
    rw [mentions] at uncovered steady
    by_cases here : index < start + piece.size
    · cases piece with
      | literal bytes =>
        have within : index - start < bytes.length := by
          have size : index < start + bytes.length := here
          omega
        have read := (one.byte? within).trans (two.byte? within).symm
        rwa [Nat.add_sub_cancel' behind] at read
      | branch opcode target =>
        have mentioned : (⟨target, start, start + 1, some opcode⟩ : Mention)
            ∈ ((Piece.branch opcode target).mention? start).toList
              ++ mentions (start + (Piece.branch opcode target).size) rest :=
          List.mem_append_left _ (Option.mem_toList.mpr rfl)
        have outside := uncovered _ mentioned
        -- All bytes of a branch but the first belong to its operand.
        obtain rfl : start = index := by
          have size : index < start + (1 + 2) := here
          simp only [Mention.Covers, Mention.width, Option.isSome_some, if_true,
            Width.size] at outside
          omega
        have same := steady _ mentioned rfl
        by_cases far : (⟨target, start, start + 1, some opcode⟩ : Mention).Overshoots before
        · exact (one.byte?_branch.1 far).trans (two.byte?_branch.1 (same.mp far)).symm
        · exact (one.byte?_branch.2 far).trans (two.byte?_branch.2 (mt same.mpr far)).symm
      | distance source target =>
        have outside := uncovered ⟨target, source, start, none⟩
          (List.mem_append_left _ (Option.mem_toList.mpr rfl))
        have size : index < start + 4 := here
        exact absurd ⟨behind, size⟩ outside
    · refine ih one.tail two.tail (Nat.le_of_not_lt here) ?_ ?_ ?_
      · rw [totalSize_cons] at inside
        omega
      · exact fun mention member => uncovered mention (List.mem_append_right _ member)
      · exact fun mention member => steady mention (List.mem_append_right _ member)

end StandAt

end Piece

end MethodBody
