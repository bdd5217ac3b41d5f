import MethodBody.Proofs.Relocation

/-!
# Binding a label early or late

A label can be given its offset before or after the distances to it are written. If it has its
offset, each distance is written as it is; if it has none, placeholders are written, and filled in
when the label is placed. The bytes are the same either way, whatever else is written in between, as
long as every distance fits its operand (`late_eq_early`).
-/

namespace MethodBody

/-- What is written for a method that refers to one label. -/
inductive Stroke where
  /-- Bytes that have nothing to do with the label. -/
  | bytes (given : List UInt8)
  /-- The distance from an instruction to the label. -/
  | distance (source : Nat) (width : Width)
deriving DecidableEq, Repr

namespace Stroke

/-- The distance fits its operand if the label is placed at the given offset. -/
def Fits (target : Nat) : Stroke → Prop
  | bytes _ => True
  | distance source width => width.Fits (Offset.distance target source)

instance (target : Nat) : (stroke : Stroke) → Decidable (stroke.Fits target)
  | bytes _ => inferInstanceAs (Decidable True)
  | distance source width =>
    inferInstanceAs (Decidable (width.Fits (Offset.distance target source)))

/-- The bytes of a stroke if the label is placed at the given offset. -/
def text (target : Nat) : Stroke → List UInt8
  | bytes given => given
  | distance source width => width.operand (Offset.distance target source)

end Stroke

namespace Reference

variable {reference : Reference} {references : List Reference} {code : Buffer} {target : Nat}

/-- The distance to the target fits the operand. -/
def Reaches (reference : Reference) (target : Nat) : Prop :=
  reference.width.Fits (Offset.distance target reference.source)

/-- The operand with the distance to the target. -/
def reaching (target : Nat) (reference : Reference) : Reference × Patch :=
  (reference, .operand (Offset.distance target reference.source))

/-- If all distances fit their operands, they are what is planned. -/
theorem plan_of_reaches (code : Buffer)
    (reaches : ∀ reference ∈ references, reference.Reaches target) :
    (references.mapM fun reference => (reference, ·) <$> reference.plan code target)
      = .ok (references.map (reaching target)) := by
  induction references with
  | nil => rfl
  | cons first rest ih =>
    have fits : first.width.Fits (Offset.distance target first.source) :=
      reaches first List.mem_cons_self
    have planned : first.plan code target
        = .ok (.operand (Offset.distance target first.source)) := by
      simp only [plan, if_pos fits]
    refine mapM_cons_eq_ok.mpr ⟨reaching target first, rest.map (reaching target), ?_, ?_, rfl⟩
    · exact map_eq_ok.mpr ⟨_, planned, rfl⟩
    · exact ih fun other member => reaches other (List.mem_cons_of_mem _ member)

/-- No branch is given its unsigned form where all distances fit their operands. -/
theorem rewrites_reaching (target : Nat) (references : List Reference) :
    Ledger.rewrites (references.map (reaching target)) = false := by
  induction references with
  | nil => rfl
  | cons first rest ih => exact ih

/-- Distances can be filled in before bytes are appended or afterwards. -/
theorem overwriteAll_reaching_append (target : Nat)
    (inside : ∀ reference ∈ references, reference.Inside code) (more : List UInt8) :
    overwriteAll (code.append more) (references.map (reaching target))
      = (overwriteAll code (references.map (reaching target))).append more := by
  induction references generalizing code with
  | nil => rfl
  | cons first rest ih =>
    have here : first.site + (first.width.operand (Offset.distance target first.source)).length
        ≤ code.size := by
      rw [Width.length_operand]
      exact inside first List.mem_cons_self
    have swapped := Buffer.write_append here more
    have insideStill : ∀ reference ∈ rest, reference.Inside
        (first.overwrite code (.operand (Offset.distance target first.source))) :=
      fun reference member =>
        Buffer.inside_overwrite.mpr (inside reference (List.mem_cons_of_mem _ member))
    have others := ih insideStill
    simp only [overwriteAll, List.map_cons, List.foldl_cons, reaching, overwrite] at others ⊢
    rw [swapped, others]

/-- A placeholder at the end that is filled in becomes the distance. -/
theorem overwriteAll_reaching_placeholder (source : Nat) (width : Width)
    (inside : ∀ reference ∈ references, reference.Inside code) :
    overwriteAll (code.append (width.operand (-1)))
        ((references ++ [Reference.mk source width code.cursor]).map (reaching target))
      = (overwriteAll code (references.map (reaching target))).append
          (width.operand (Offset.distance target source)) := by
  have others := overwriteAll_reaching_append target inside (width.operand (-1))
  have site : code.cursor = (overwriteAll code (references.map (reaching target))).size :=
    (size_overwriteAll code _).symm
  have last (buffer : Buffer) : (buffer.append (width.operand (-1))).write buffer.size
      (width.operand (Offset.distance target source))
        = buffer.append (width.operand (Offset.distance target source)) :=
    Buffer.write_append_of_length_eq buffer (by simp)
  rw [List.map_append, overwriteAll, List.foldl_append]
  simp only [overwriteAll, List.map_cons, List.map_nil, List.foldl_cons, List.foldl_nil] at *
  rw [others, reaching, overwrite, site, last]

end Reference

namespace Node

variable {node : Node} {target : Nat} {early late : Buffer} {stroke : Stroke}
  {strokes : List Stroke}

/-- Write one stroke. The answer is what is known about the label afterwards. -/
def write (node : Node) : Stroke → Action Buffer Node
  | .bytes given => do
    modify (·.append given)
    pure node
  | .distance source width => node.refer source width

/-- Write strokes in order. The answer is what is known about the label afterwards. -/
def writeAll (node : Node) (strokes : List Stroke) : Action Buffer Node :=
  Action.fold Node.write node strokes

/-- Write strokes and place the label then. -/
def writeThenPlace (node : Node) (strokes : List Stroke) (target : Nat) :
    Action Buffer (Node × Bool) := do
  let written ← node.writeAll strokes
  written.place target

/-- Place the label and write strokes then. -/
def placeThenWrite (node : Node) (strokes : List Stroke) (target : Nat) :
    Action Buffer (Node × Bool) := do
  let (placed, rewritten) ← node.place target
  let written ← placed.writeAll strokes
  pure (written, rewritten)

/-- The label with an offset. -/
def placedAt (node : Node) (target : Nat) : Node := { node with placement := .placed target }

/-- The label waits for its offset, and the late bytes become the early ones once the distances from
the references to the target are written. -/
def Awaits (node : Node) (target : Nat) (late early : Buffer) : Prop :=
  ∃ ledger, node.placement = .pending ledger ∧
    (∀ reference ∈ ledger.toList, reference.Inside late ∧ reference.Reaches target) ∧
    overwriteAll late (ledger.toList.map (Reference.reaching target)) = early

/-- A label that has its offset is referred to by distances. -/
theorem write_early (placed : node.placement = .placed target) (fits : stroke.Fits target)
    (early : Buffer) :
    (node.write stroke).Yields early node (early.append (stroke.text target)) := by
  cases stroke with
  | bytes given => simp [write, Stroke.text, Action.Yields]
  | distance source width =>
    have found : width.Fits (Offset.distance target source) := fits
    simp [write, refer, placed, found, Stroke.text, Action.Yields]

/-- A label that waits for its offset is referred to by placeholders. -/
theorem write_late (awaits : node.Awaits target late early) (fits : stroke.Fits target) :
    ∃ next after, (node.write stroke).Yields late next after ∧
      next.Awaits target after (early.append (stroke.text target)) ∧
      next.placedAt target = node.placedAt target := by
  obtain ⟨ledger, pending, waiting, rfl⟩ := awaits
  have inside (reference : Reference) (member : reference ∈ ledger.toList) :
      reference.Inside late := (waiting reference member).1
  have longer {more : List UInt8} {reference : Reference} (lies : reference.Inside late) :
      reference.Inside (late.append more) := by
    rw [Reference.Inside, Buffer.size_append]
    exact Nat.le_add_right_of_le lies
  cases stroke with
  | bytes given =>
    refine ⟨node, late.append given, by simp [write, Action.Yields], ?_, rfl⟩
    refine ⟨ledger, pending, ?_, Reference.overwriteAll_reaching_append target inside given⟩
    intro reference member
    exact ⟨longer (inside reference member), (waiting reference member).2⟩
  | distance source width =>
    have unplaced : node.offset? = none := by simp [offset?, pending]
    have operand : node.operand source width = width.operand (-1) := by
      simp [Node.operand, unplaced]
    have written : (node.refer source width).run late = ⟨.ok (node.referred ⟨source, width,
        late.cursor⟩), late.append (width.operand (-1)), []⟩ := by
      rw [run_refer (by simp [unplaced]), operand]
    refine ⟨_, _, ⟨congrArg Outcome.answer written, congrArg Outcome.state written⟩, ?_, ?_⟩
    · refine ⟨ledger.push ⟨source, width, late.cursor⟩, by simp [referred, pending], ?_, ?_⟩
      · intro reference member
        rw [Ledger.toList_push, List.mem_append, List.mem_singleton] at member
        rcases member with before | rfl
        · exact ⟨longer (inside reference before), (waiting reference before).2⟩
        · refine ⟨?_, fits⟩
          rw [Reference.Inside, Buffer.size_append, Width.length_operand]
          exact Nat.le_refl _
      · rw [Ledger.toList_push]
        exact Reference.overwriteAll_reaching_placeholder source width inside
    · simp [placedAt, referred, pending]

/-- Strokes that are written after the label was placed. -/
theorem writeAll_early (placed : node.placement = .placed target)
    (fits : ∀ stroke ∈ strokes, stroke.Fits target) (early : Buffer) :
    (node.writeAll strokes).Yields early node
      (early.append (strokes.flatMap (Stroke.text target))) := by
  unfold writeAll
  induction strokes generalizing early with
  | nil => simp [Action.Yields]
  | cons stroke rest ih =>
    have first := write_early placed (fits stroke List.mem_cons_self) early
    have others := ih (fun other member => fits other (List.mem_cons_of_mem _ member))
      (early.append (stroke.text target))
    rw [Buffer.append_append] at others
    rw [Action.fold_cons, List.flatMap_cons]
    exact Action.yields_bind.mpr ⟨_, _, first, others⟩

/-- Strokes that are written before the label is placed. -/
theorem writeAll_late (awaits : node.Awaits target late early)
    (fits : ∀ stroke ∈ strokes, stroke.Fits target) :
    ∃ last after, (node.writeAll strokes).Yields late last after ∧
      last.Awaits target after (early.append (strokes.flatMap (Stroke.text target))) ∧
      last.placedAt target = node.placedAt target := by
  unfold writeAll
  induction strokes generalizing node late early with
  | nil => exact ⟨node, late, Action.yields_pure.mpr ⟨rfl, rfl⟩, by simpa using awaits, rfl⟩
  | cons stroke rest ih =>
    obtain ⟨next, middle, first, awaitsStill, same⟩ :=
      write_late awaits (fits stroke List.mem_cons_self)
    obtain ⟨last, after, others, awaitsLast, sameLast⟩ :=
      ih awaitsStill fun other member => fits other (List.mem_cons_of_mem _ member)
    rw [Buffer.append_append] at awaitsLast
    rw [Action.fold_cons, List.flatMap_cons]
    exact ⟨last, after, Action.yields_bind.mpr ⟨next, middle, first, others⟩, awaitsLast,
      sameLast.trans same⟩

/-- Placing the label writes the distances that are still missing. -/
theorem place_awaits (awaits : node.Awaits target late early) :
    (node.place target).Yields late (node.placedAt target, false) early := by
  obtain ⟨ledger, pending, waiting, rfl⟩ := awaits
  have plans := Reference.plan_of_reaches late fun reference member => (waiting reference member).2
  obtain ⟨events, resolved⟩ := Ledger.run_resolve_of_planned plans
    fun reference member => (waiting reference member).1
  rw [Reference.rewrites_reaching] at resolved
  simp only [place, pending]
  refine Action.yields_bind.mpr ⟨false, _,
    ⟨congrArg Outcome.answer resolved, congrArg Outcome.state resolved⟩, ?_⟩
  exact Action.yields_pure.mpr ⟨rfl, rfl⟩

/-- If nothing refers to a label yet, it makes no difference whether it is placed before or after
bytes and distances to it are written, as long as the distances fit their operands: either way all
of it succeeds, no branch is given its unsigned form, the same bytes are appended, the label has its
offset, and no reference to it waits. -/
theorem late_eq_early (unreferenced : node.placement = .pending .empty)
    (fits : ∀ stroke ∈ strokes, stroke.Fits target) (code : Buffer) :
    let whole := code.append (strokes.flatMap (Stroke.text target))
    (node.writeThenPlace strokes target).Yields code (node.placedAt target, false) whole ∧
      (node.placeThenWrite strokes target).Yields code (node.placedAt target, false) whole ∧
      (node.placedAt target).offset? = some target ∧ (node.placedAt target).pending = 0 := by
  have awaits : node.Awaits target code code := ⟨.empty, unreferenced, by simp [Ledger.empty,
    Ledger.toList], rfl⟩
  refine ⟨?_, ?_, rfl, rfl⟩
  · obtain ⟨last, after, written, awaitsLast, same⟩ := writeAll_late awaits fits
    have placed := place_awaits awaitsLast
    rw [same] at placed
    exact Action.yields_bind.mpr ⟨last, after, written, placed⟩
  · have written := writeAll_early (rfl : (node.placedAt target).placement = _) fits code
    refine Action.yields_bind.mpr ⟨_, code, place_awaits awaits, ?_⟩
    exact Action.yields_bind.mpr ⟨_, _, written, Action.yields_pure.mpr ⟨rfl, rfl⟩⟩

/-- Distances of both widths, as far ahead and as far back as a narrow one can lead. -/
def bothWays : List Stroke :=
  [.bytes [Opcode.goto], .distance 7233 .narrow, .bytes [Opcode.goto], .distance 72768 .narrow,
    .distance 40002 .wide]

/-- A label without an offset that nothing refers to. -/
def unplacedNode : Node := { label := ⟨1⟩ }

/-- A label that is referred to from both sides. -/
theorem late_eq_early_bothWays :
    (∀ stroke ∈ bothWays, stroke.Fits 40000) ∧
      (Node.writeThenPlace unplacedNode bothWays 40000).Yields .empty
        (Node.placedAt unplacedNode 40000, false)
        (Buffer.empty.append [0xa7, 0x7f, 0xff, 0xa7, 0x80, 0, 0xff, 0xff, 0xff, 0xfe]) ∧
      (Node.placeThenWrite unplacedNode bothWays 40000).Yields .empty
        (Node.placedAt unplacedNode 40000, false)
        (Buffer.empty.append [0xa7, 0x7f, 0xff, 0xa7, 0x80, 0, 0xff, 0xff, 0xff, 0xfe]) := by
  have fits : ∀ stroke ∈ bothWays, stroke.Fits 40000 := by decide
  obtain ⟨late, early, -, -⟩ :=
    late_eq_early (rfl : unplacedNode.placement = .pending .empty) fits .empty
  exact ⟨fits, late, early⟩

end Node

end MethodBody
