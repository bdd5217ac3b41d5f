import MethodBody.Label

/-!
# Sets of labels

A set of labels has a mark for each of the labels of a method, and a list for labels that the method
does not have. What the set holds does not depend on the number of marks: a label is in the set
exactly if it was put there (`not_mem_empty`, `mem_insert`).
-/

namespace MethodBody

/-- A set of labels. -/
structure LabelSet where
  /-- For each of the first labels, whether it is in the set. -/
  marks : Array Bool
  /-- The other labels in the set. -/
  others : List Label

namespace LabelSet

/-- A set without labels, with marks for a number of labels. -/
def empty (count : Nat) : LabelSet := ⟨Array.replicate count false, []⟩

/-- Put a label into the set. -/
def insert (labels : LabelSet) (label : Label) : LabelSet :=
  if label.index < labels.marks.size then
    { labels with marks := labels.marks.setIfInBounds label.index true }
  else { labels with others := label :: labels.others }

/-- The label is in the set. -/
def contains (labels : LabelSet) (label : Label) : Bool :=
  labels.marks[label.index]?.getD (labels.others.contains label)

instance : Membership Label LabelSet := ⟨fun labels label => labels.contains label = true⟩

instance (labels : LabelSet) (label : Label) : Decidable (label ∈ labels) :=
  inferInstanceAs (Decidable (_ = true))

/-- An empty set holds no label. -/
theorem not_mem_empty (count : Nat) (label : Label) : label ∉ empty count := by
  change ¬ (empty count).contains label = true
  simp only [contains, empty, Array.getElem?_replicate]
  split <;> simp

/-- Putting a label into a set adds that label and no other. -/
theorem mem_insert {labels : LabelSet} {added label : Label} :
    label ∈ labels.insert added ↔ label = added ∨ label ∈ labels := by
  change (labels.insert added).contains label = true ↔ _ ∨ labels.contains label = true
  obtain ⟨added⟩ := added
  obtain ⟨label⟩ := label
  unfold insert
  split
  · rename_i inside
    by_cases same : label = added
    · subst same
      simp [contains, inside]
    · simp [contains, Array.getElem?_setIfInBounds_ne (Ne.symm same), same]
  · rename_i outside
    by_cases same : label = added
    · subst same
      simp [contains, outside]
    · simp [contains, same]

end LabelSet

end MethodBody
