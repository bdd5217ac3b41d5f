import MethodBody.Proofs.Separation

/-!
# Labels placed at the same offset

Two labels can be placed one after the other at the same offset. What is read and written for the
one is neither read nor written for the other, since no byte waits for both of them. So each can be
placed exactly if it could be placed first, and the bytes, the offsets, the references that still
wait and the note on widening are the same in either order (`places_commute`).
-/

namespace MethodBody

section Writing

variable {references : List Reference} {code first second : Buffer} {target index : Nat}
  {planned : List (Reference × Patch)}

/-- What is written to a byte depends on that byte only. -/
theorem byte?_overwriteAll_congr (planned : List (Reference × Patch))
    (same : first.byte? index = second.byte? index) :
    (overwriteAll first planned).byte? index = (overwriteAll second planned).byte? index := by
  induction planned generalizing first second with
  | nil => exact same
  | cons one rest ih =>
    apply ih
    rw [Reference.byte?_overwrite, Reference.byte?_overwrite, same]

/-- Bytes that no reference covers stay what they were. -/
theorem byte?_overwriteAll_of_not_covers
    (plans : (references.mapM fun reference => (reference, ·) <$> reference.plan code target)
      = .ok planned)
    (apart : ∀ reference ∈ references, ¬ reference.Covers index) (other : Buffer) :
    (overwriteAll other planned).byte? index = other.byte? index := by
  induction references generalizing planned other with
  | nil =>
    obtain rfl : [] = planned := Except.ok.inj plans
    rfl
  | cons reference rest ih =>
    obtain ⟨one, later, here, further, rfl⟩ := mapM_cons_eq_ok.mp plans
    obtain ⟨patch, plan, rfl⟩ := map_eq_ok.mp here
    have others := ih further (fun one member => apart one (List.mem_cons_of_mem _ member))
      (reference.overwrite other patch)
    refine others.trans ?_
    exact Reference.byte?_overwrite_of_not_covers plan (apart reference List.mem_cons_self)

/-- The same is planned where the same is read. -/
theorem Ledger.plan_congr {ledger : Ledger} (target : Nat)
    (same : Reference.ReadsSame ledger.toList first second) :
    ledger.plan first target = ledger.plan second target := by
  apply mapM_congr
  intro reference member
  rw [Reference.plan_congr target (same reference member)]

end Writing

/-- What placing a label works on. -/
structure Progress where
  /-- The instructions written so far. -/
  code : Buffer
  /-- Whether labels have offsets, and the references that wait for one. -/
  placement? : Label → Option Placement
  /-- Some branch was given its unsigned form. -/
  needsWidening : Bool

namespace Progress

/-- What is to be written in order to place a label. -/
def plan (progress : Progress) (label : Label) : Except Error (List (Reference × Patch)) :=
  match progress.placement? label with
  | none => .error (.unknownLabel label)
  | some (.placed _) => .error (.placedTwice label)
  | some (.pending ledger) => ledger.plan progress.code progress.code.cursor

/-- The progress after a label is placed, which is none if it cannot be placed. -/
def place (progress : Progress) (label : Label) : Progress :=
  match progress.plan label with
  | .error _ => progress
  | .ok planned =>
    { code := overwriteAll progress.code planned
      placement? := fun other =>
        if label = other then some (.placed progress.code.cursor) else progress.placement? other
      needsWidening := progress.needsWidening || Ledger.rewrites planned }

variable {progress : Progress} {first second label : Label}

/-- A label that cannot be placed makes no progress. -/
theorem place_of_refused {cause : Error} (refused : progress.plan label = .error cause) :
    progress.place label = progress := by
  rw [place, refused]

/-- A label that can be placed is placed at the next instruction. -/
theorem place_of_planned {planned : List (Reference × Patch)}
    (plans : progress.plan label = .ok planned) : progress.place label =
      { code := overwriteAll progress.code planned
        placement? := fun other =>
          if label = other then some (.placed progress.code.cursor) else progress.placement? other
        needsWidening := progress.needsWidening || Ledger.rewrites planned } := by
  rw [place, plans]

/-- A label that can be placed has references that wait, and what is planned is planned for them. -/
theorem exists_of_plan {planned : List (Reference × Patch)}
    (plans : progress.plan label = .ok planned) :
    ∃ ledger, progress.placement? label = some (.pending ledger) ∧
      ledger.plan progress.code progress.code.cursor = .ok planned := by
  unfold plan at plans
  split at plans
  · cases plans
  · cases plans
  · rename_i ledger pending
    exact ⟨ledger, pending, plans⟩

/-- Bytes that are written for a label are covered by the references that wait for it. -/
theorem byte?_place {planned : List (Reference × Patch)} {index : Nat}
    (plans : progress.plan label = .ok planned)
    (apart : ∀ reference ∈ waitingFor progress.placement? label, ¬ reference.Covers index)
    (other : Buffer) : (overwriteAll other planned).byte? index = other.byte? index := by
  obtain ⟨ledger, pending, planned⟩ := exists_of_plan plans
  rw [waitingFor_of_pending pending] at apart
  exact byte?_overwriteAll_of_not_covers planned apart other

/-- Placing a label changes nothing about what is to be written for another one. -/
theorem plan_place (unshared : Unshared progress.code progress.placement?)
    (different : first ≠ second) : (progress.place first).plan second = progress.plan second := by
  cases plans : progress.plan first with
  | error cause => rw [place_of_refused plans]
  | ok planned =>
    have size := size_overwriteAll progress.code planned
    rw [place_of_planned plans]
    simp only [plan, if_neg different]
    cases found : progress.placement? second with
    | none => rfl
    | some placement =>
      cases placement with
      | placed offset => rfl
      | pending ledger =>
        have cursor : (overwriteAll progress.code planned).cursor = progress.code.cursor := size
        simp only [cursor]
        apply Ledger.plan_congr
        intro reference member narrow
        apply byte?_place plans
        intro other waits covers
        have mine : reference ∈ waitingFor progress.placement? second := by
          rwa [waitingFor_of_pending found]
        exact unshared.apart first second different other waits reference mine _ covers
          (.inr ⟨narrow, rfl⟩)

/-- What is planned for two labels can be written in either order. -/
theorem overwriteAll_comm (unshared : Unshared progress.code progress.placement?)
    (different : first ≠ second) {one two : List (Reference × Patch)}
    (plansFirst : progress.plan first = .ok one) (plansSecond : progress.plan second = .ok two) :
    overwriteAll (overwriteAll progress.code one) two
      = overwriteAll (overwriteAll progress.code two) one := by
  apply Buffer.ext_byte?
  intro index
  by_cases covered : ∃ reference ∈ waitingFor progress.placement? first, reference.Covers index
  · obtain ⟨reference, waits, covers⟩ := covered
    have apart : ∀ other ∈ waitingFor progress.placement? second, ¬ other.Covers index :=
      fun other waitsToo =>
        unshared.apart first second different reference waits other waitsToo index covers
    rw [byte?_place plansSecond apart]
    exact (byte?_overwriteAll_congr one (byte?_place plansSecond apart progress.code)).symm
  · have apart : ∀ other ∈ waitingFor progress.placement? first, ¬ other.Covers index :=
      fun other waits covers => covered ⟨other, waits, covers⟩
    rw [byte?_place plansFirst apart (overwriteAll progress.code two)]
    exact byte?_overwriteAll_congr two (byte?_place plansFirst apart progress.code)

/-- Two labels make the same progress in either order. -/
theorem place_comm (unshared : Unshared progress.code progress.placement?)
    (different : first ≠ second) :
    (progress.place first).place second = (progress.place second).place first := by
  have later := plan_place unshared different
  have earlier := plan_place unshared different.symm
  cases plansFirst : progress.plan first with
  | error cause =>
    rw [plansFirst] at earlier
    rw [place_of_refused plansFirst, place_of_refused earlier]
  | ok one =>
    cases plansSecond : progress.plan second with
    | error cause =>
      rw [plansSecond] at later
      rw [place_of_refused plansSecond, place_of_refused later]
    | ok two =>
      rw [plansSecond] at later
      rw [plansFirst] at earlier
      rw [place_of_planned later, place_of_planned earlier, place_of_planned plansFirst,
        place_of_planned plansSecond]
      have sizeOne : (overwriteAll progress.code one).cursor = progress.code.cursor :=
        size_overwriteAll _ _
      have sizeTwo : (overwriteAll progress.code two).cursor = progress.code.cursor :=
        size_overwriteAll _ _
      simp only [mk.injEq, sizeOne, sizeTwo]
      refine ⟨overwriteAll_comm unshared different plansFirst plansSecond, ?_, ?_⟩
      · funext other
        by_cases isFirst : first = other <;> by_cases isSecond : second = other <;>
          simp [isFirst, isSecond]
      · exact Bool.or_right_comm _ _ _

end Progress

namespace Assembler

/-- What placing a label works on. -/
def progress (assembler : Assembler) : Progress :=
  ⟨assembler.code, assembler.graph.placement?, assembler.needsWidening⟩

variable {assembler : Assembler} {label first second : Label}

/-- Opening a block makes no progress with placing labels. -/
theorem progress_startBlock (assembler : Assembler) (label : Label) :
    (assembler.startBlock label).progress = assembler.progress := by
  have noted := (PlacesNothing.startBlock assembler label).widening
  simp only [progress, code_startBlock, placement?_startBlock, noted]

/-- Placing a label does what is planned for it, or nothing. -/
theorem run_place (unshared : assembler.Unshared)
    (named : ∀ node, assembler.graph.node? label = some node → node.label = label) :
    ((place label).run assembler).answer = (fun _ => ()) <$> assembler.progress.plan label ∧
      ((place label).run assembler).state.progress = assembler.progress.place label := by
  cases known : assembler.graph.node? label with
  | none =>
    have plans : assembler.progress.plan label = .error (.unknownLabel label) := by
      simp [Progress.plan, progress, FlowGraph.placement?, known]
    rw [Progress.place_of_refused plans, plans]
    simp [place, getNode, FlowGraph.node, known]
  | some node =>
    cases placement : node.placement with
    | placed offset =>
      have plans : assembler.progress.plan label = .error (.placedTwice label) := by
        simp [Progress.plan, progress, FlowGraph.placement?, known, placement]
      rw [Progress.place_of_refused plans, plans, run_place_of_placed known placement,
        named node known]
      exact ⟨rfl, rfl⟩
    | pending ledger =>
      have pending : assembler.graph.placement? label = some (.pending ledger) := by
        simp [FlowGraph.placement?, known, placement]
      have inside : ∀ reference ∈ ledger.toList, reference.Inside assembler.code := by
        intro reference member
        rw [← waitingFor_of_pending pending] at member
        exact unshared.inside_of_mem member
      have same : assembler.progress.plan label
          = ledger.plan assembler.code assembler.code.cursor := by
        simp [Progress.plan, progress, pending]
      cases plans : ledger.plan assembler.code assembler.code.cursor with
      | error cause =>
        rw [Progress.place_of_refused (same.trans plans), same.trans plans,
          run_place_of_error known placement (Ledger.run_resolve_of_refused plans)]
        exact ⟨rfl, rfl⟩
      | ok planned =>
        obtain ⟨events, resolved⟩ := Ledger.run_resolve_of_planned plans inside
        have settled : (assembler.settle label node (overwriteAll assembler.code planned)
            (Ledger.rewrites planned)).progress = assembler.progress.place label := by
          rw [Progress.place_of_planned (same.trans plans)]
          simp only [progress, Progress.mk.injEq]
          exact ⟨rfl, funext (placement?_settle known _ _), rfl⟩
        rw [same.trans plans, run_place_of_ok known placement resolved]
        refine ⟨rfl, ?_⟩
        rw [← settled, placed]
        split
        · rfl
        · exact progress_startBlock _ label

/-- Wherever a run comes to, placing a label does what is planned for it, or nothing. -/
theorem run_place_afterAll (settings : Settings) (slots : UInt16) (operations : List Operation)
    (label : Label) :
    let assembler := (start settings slots).afterAll operations
    ((place label).run assembler).answer = (fun _ => ()) <$> assembler.progress.plan label ∧
      (assembler.after (.place label)).progress = assembler.progress.place label := by
  intro assembler
  have anchored := anchored_afterAll settings slots operations
  rw [after, Operation.perform, IsText.state_withoutLabel]
  exact run_place (unshared_afterAll settings slots operations)
    fun node known => (anchored.labels label node known).named

/-- Wherever a run comes to, two labels can be placed in either order: each is placed, or refused
with the same cause, as if it were the only one, and the bytes, the offsets of all labels, the
references that still wait for them and the note on widening are the same. -/
theorem places_commute (settings : Settings) (slots : UInt16) (operations : List Operation)
    {first second : Label} (different : first ≠ second) :
    let assembler := (start settings slots).afterAll operations
    let afterFirst := assembler.after (.place first)
    let afterSecond := assembler.after (.place second)
    ((place second).run afterFirst).answer = ((place second).run assembler).answer ∧
      ((place first).run afterSecond).answer = ((place first).run assembler).answer ∧
      (afterFirst.after (.place second)).code = (afterSecond.after (.place first)).code ∧
      (afterFirst.after (.place second)).graph.placement?
        = (afterSecond.after (.place first)).graph.placement? ∧
      (afterFirst.after (.place second)).needsWidening
        = (afterSecond.after (.place first)).needsWidening := by
  intro assembler afterFirst afterSecond
  have unshared : MethodBody.Unshared assembler.progress.code assembler.progress.placement? :=
    unshared_afterAll settings slots operations
  have reachesFirst : (start settings slots).afterAll (operations ++ [.place first]) = afterFirst :=
    afterAll_append _ _ _
  have reachesSecond : (start settings slots).afterAll (operations ++ [.place second])
      = afterSecond := afterAll_append _ _ _
  obtain ⟨answerFirst, progressFirst⟩ := run_place_afterAll settings slots operations first
  obtain ⟨answerSecond, progressSecond⟩ := run_place_afterAll settings slots operations second
  obtain ⟨thenSecond, bothProgress⟩ := run_place_afterAll settings slots
    (operations ++ [.place first]) second
  obtain ⟨thenFirst, swappedProgress⟩ := run_place_afterAll settings slots
    (operations ++ [.place second]) first
  rw [reachesFirst] at thenSecond bothProgress
  rw [reachesSecond] at thenFirst swappedProgress
  have same : (afterFirst.after (.place second)).progress
      = (afterSecond.after (.place first)).progress := by
    rw [bothProgress, swappedProgress, progressFirst, progressSecond,
      Progress.place_comm unshared different]
  obtain ⟨bytes, placements, widening⟩ := Progress.mk.inj same
  refine ⟨?_, ?_, bytes, placements, widening⟩
  · rw [thenSecond, progressFirst, Progress.plan_place unshared different]
    exact answerSecond.symm
  · rw [thenFirst, progressSecond, Progress.plan_place unshared different.symm]
    exact answerFirst.symm

/-- Jumps to two labels that have no offset yet. -/
def twoJumps : List Operation :=
  [.freshLabel, .freshLabel, .jump Opcode.ifEq ⟨1⟩, .jump Opcode.ifEq ⟨2⟩]

/-- The labels of both jumps are placed behind them in either order. -/
theorem places_commute_twoJumps :
    let assembler := (start {} 0).afterAll twoJumps
    let both := (assembler.after (.place ⟨1⟩)).after (.place ⟨2⟩)
    let swapped := (assembler.after (.place ⟨2⟩)).after (.place ⟨1⟩)
    both.code.toList = [Opcode.ifEq, 0, 6, Opcode.ifEq, 0, 3] ∧ swapped.code = both.code ∧
      swapped.graph.placement? = both.graph.placement? ∧
      both.graph.placement? ⟨2⟩ = some (.placed 6) := by
  intro assembler both swapped
  have different : (⟨1⟩ : Label) ≠ ⟨2⟩ := by decide
  obtain ⟨-, -, bytes, placements, -⟩ := places_commute {} 0 twoJumps different
  exact ⟨by decide, bytes.symm, placements.symm, by decide⟩

end Assembler

end MethodBody
