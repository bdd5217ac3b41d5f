import MethodBody.Proofs.SwitchMeaning
import MethodBody.Proofs.UnsignedForms

/-!
# Switches send each key where they were asked to

The labels of a switch have their places once the method is finished, since its operands refer to
them (`allPlaced_of_mem_pieces`). So the switch can be read off the code of the method at the offset
where it was written. For keys in a table the place in the table decides, and other keys are
searched for, which is right because the cases are sorted by their keys when the switch is written
(`pairwise_sortCases`). Whatever was done before and afterwards, each key ends up at the label that
was given for it, or else at the fallback (`switches_dispatch`).
-/

namespace MethodBody

/-- A label that a wide operand leads to is referred to. -/
theorem Piece.references_ne_nil_of_mem {start source : Nat} {label : Label} {pieces : List Piece}
    (member : .distance source label ∈ pieces) : references label start pieces ≠ [] := by
  obtain ⟨front, back, rfl⟩ := List.append_of_mem member
  rw [references_append, references]
  simp [reference?]

namespace Instruction

/-- A switch over consecutive keys has a wide operand for each of its labels. -/
theorem mem_pieces_tableSwitch {low high : Int32} {fallback label : Label} {targets : List Label}
    (offset : Nat) (target : label ∈ fallback :: targets) :
    .distance offset label ∈ (tableSwitch low high fallback targets).pieces offset := by
  rcases List.mem_cons.mp target with rfl | listed
  · simp [pieces]
  · simp [pieces, listed]

/-- A switch over any keys has a wide operand for each of its labels. -/
theorem mem_pieces_lookupSwitch {fallback label : Label} {cases : List Case} (offset : Nat)
    (target : label ∈ fallback :: cases.map (·.target)) :
    .distance offset label ∈ (lookupSwitch fallback cases).pieces offset := by
  rcases List.mem_cons.mp target with rfl | listed
  · simp [pieces]
  · obtain ⟨one, member, rfl⟩ := List.mem_map.mp listed
    have operand : Piece.distance offset one.target ∈ cases.flatMap fun one =>
        [.literal (BigEndian.encodeSigned 4 one.key.toInt), .distance offset one.target] :=
      List.mem_flatMap.mpr ⟨one, member, by simp⟩
    simp [pieces, operand]

end Instruction

namespace Assembler

/-- Cases with different keys are sorted so that each key is less than those behind it. -/
theorem pairwise_sortCases {cases : List Case} (distinct : (cases.map (·.key)).Nodup) :
    ((sortCases cases).map fun one => one.key.toInt).Pairwise (· < ·) := by
  have transitive (first second third : Case) (one : decide (first.key ≤ second.key) = true)
      (other : decide (second.key ≤ third.key) = true) : decide (first.key ≤ third.key) = true :=
    decide_eq_true (Int32.le_trans (of_decide_eq_true one) (of_decide_eq_true other))
  have total (left right : Case) :
      (decide (left.key ≤ right.key) || decide (right.key ≤ left.key)) = true := by
    rw [Bool.or_eq_true, decide_eq_true_iff, decide_eq_true_iff]
    exact Int32.le_total left.key right.key
  have sorted := List.pairwise_mergeSort transitive total cases
  have different : ((sortCases cases).map (·.key)).Nodup :=
    ((List.mergeSort_perm cases _).map (·.key)).nodup_iff.mpr distinct
  rw [List.pairwise_map]
  refine sorted.imp₂ (fun left right notGreater other => ?_) (List.pairwise_map.mp different)
  rw [← Int32.lt_iff_toInt_lt]
  exact Int32.lt_of_le_of_ne (of_decide_eq_true notGreater) other

variable {settings : Settings} {slots : UInt16} {operations : List Operation} {moment : Moment}
  {listed : Listed} {code : MethodCode} {handled returned : FlowGraph}

/-- The labels that wide operands lead to have their places when the method is finished. -/
theorem allPlaced_of_mem_pieces (known : (start settings slots).NamesKnown operations)
    (short : settings.maxCodeLength ≤ 65535)
    (finishes : ((start settings slots).afterAll operations).Finishes handled returned code)
    (member : moment ∈ (start settings slots).history operations)
    (emits : moment.before.listed? moment.operation = some listed) {labels : List Label}
    (operands : ∀ label ∈ labels, .distance listed.offset label ∈ listed.pieces) :
    Buffer.AllPlaced code.graph.offset? labels := by
  have size := size_le_of_finishes finishes (by rw [settings_afterAll]; exact short)
  obtain ⟨text, _⟩ := isText_of_finishes known short finishes
  rw [finishes.offset?_eq]
  intro label asked
  have everywhere : .distance listed.offset label
      ∈ ((start settings slots).listing operations).flatMap Listed.pieces :=
    List.mem_flatMap.mpr ⟨listed, mem_listing_iff.mpr ⟨moment, member, emits⟩, operands label asked⟩
  obtain ⟨place, placed⟩ := Option.isSome_iff_exists.mp
    (isSome_offset?_of_references text finishes (Piece.references_ne_nil_of_mem everywhere))
  have behind := text.behind label place placed
  exact ⟨place, placed, by omega⟩

/-- What a moment of the run has written stands in the code of the finished method, up to the offset
where the next instruction is written. -/
theorem standAt_of_finishes (known : (start settings slots).NamesKnown operations)
    (short : settings.maxCodeLength ≤ 65535)
    (finishes : ((start settings slots).afterAll operations).Finishes handled returned code)
    (member : moment ∈ (start settings slots).history operations)
    (emits : moment.before.listed? moment.operation = some listed) :
    Piece.StandAt code.graph.offset? code.code listed.offset listed.pieces ∧
      moment.after.code.size = listed.stop ∧ listed.stop ≤ 65535 := by
  have size := size_le_of_finishes finishes (by rw [settings_afterAll]; exact short)
  have small : ((start settings slots).afterAll operations).code.size < 0x80000000 := by omega
  have stands := (standAt_of_mem_history known small member emits).2
  obtain ⟨earlier, before, written⟩ := exists_isText_after known small member
  have stop : moment.after.code.size = listed.stop := by
    obtain ⟨instruction, _, rfl⟩ := Option.map_eq_some_iff.mp emits
    rw [written.size_eq, Piece.totalSize_append, before, emits, Option.toList_some,
      List.flatMap_singleton]
    rfl
  have inside := size_le_of_mem_history member
  rw [finishes.offset?_eq, finishes.code_eq]
  exact ⟨stands, stop, by omega⟩

end Assembler

namespace MethodCode

/-- A switch in the code sends the key to the place of the label. -/
def Sends (code : MethodCode) (switch : Switch) (key : Int32) (label : Label) : Prop :=
  ∃ place, code.graph.offset? label = some place ∧ switch.land? key.toInt = some (place : Int)

/-- A switch sends the keys from the lowest to the highest to the labels in their order. -/
structure SendsInOrder (code : MethodCode) (switch : Switch) (low high : Int32) (fallback : Label)
    (targets : List Label) : Prop where
  /-- There is a label for each of the keys, and the key is sent there. -/
  within : ∀ key, low ≤ key → key ≤ high →
    ∃ label, targets[(key.toInt - low.toInt).toNat]? = some label ∧ code.Sends switch key label
  /-- All other keys are sent to the fallback. -/
  outside : ∀ key, key < low ∨ high < key → code.Sends switch key fallback

/-- A switch sends the key of each case to its label. -/
structure SendsByCase (code : MethodCode) (switch : Switch) (fallback : Label) (cases : List Case) :
    Prop where
  /-- The keys of the cases are sent to the labels beside them. -/
  within : ∀ one ∈ cases, code.Sends switch one.key one.target
  /-- All other keys are sent to the fallback. -/
  outside : ∀ key, key ∉ cases.map (·.key) → code.Sends switch key fallback

/-- Read off the code, a switch that was written at some moment goes on up to where the next
instruction was written, and sends the keys where they were asked to. -/
structure Dispatches (code : MethodCode) (moment : Moment) : Prop where
  /-- A switch over consecutive keys has a label for each of them. -/
  table : ∀ low high fallback targets, moment.operation = .tableSwitch low high fallback targets →
    (targets.length : Int) = high.toInt - low.toInt + 1 →
    ∃ other offsets, code.code.switch? moment.before.code.size
        = some (.table low.toInt high.toInt other offsets, moment.after.code.size) ∧
      code.SendsInOrder (.table low.toInt high.toInt other offsets) low high fallback targets
  /-- A switch over any keys, which may be given in any order, has them in increasing order. -/
  lookup : ∀ fallback cases, moment.operation = .lookupSwitch fallback cases →
    (cases.map (·.key)).Nodup →
    ∃ other rows, code.code.switch? moment.before.code.size
        = some (.lookup other rows, moment.after.code.size) ∧
      (Switch.lookup other rows).Increasing ∧
      code.SendsByCase (.lookup other rows) fallback cases

variable {code : MethodCode} {switch : Switch} {key low high : Int32} {label fallback : Label}
  {targets : List Label} {cases sorted : List Case}

/-- A switch that leads to the address of a label sends the key to the label. -/
theorem sends_of_land? (placed : Buffer.AllPlaced code.graph.offset? targets)
    (member : label ∈ targets)
    (lands : switch.land? key.toInt = some (Buffer.address code.graph.offset? label)) :
    code.Sends switch key label := by
  obtain ⟨place, has, _⟩ := placed label member
  rw [Buffer.address, has, Option.getD_some] at lands
  exact ⟨place, has, lands⟩

/-- A table that holds the addresses of the labels sends the keys to them in their order. -/
theorem sendsInOrder_table (whole : (targets.length : Int) = high.toInt - low.toInt + 1)
    (placed : Buffer.AllPlaced code.graph.offset? (fallback :: targets)) :
    code.SendsInOrder (.table low.toInt high.toInt (Buffer.address code.graph.offset? fallback)
      (targets.map (Buffer.address code.graph.offset?))) low high fallback targets := by
  constructor
  case within =>
    intro key behind before
    rw [Int32.le_iff_toInt_le] at behind before
    have inside : (key.toInt - low.toInt).toNat < targets.length := by omega
    refine ⟨targets[(key.toInt - low.toInt).toNat], List.getElem?_eq_getElem inside, ?_⟩
    apply sends_of_land? placed (List.mem_cons_of_mem _ (List.getElem_mem inside))
    rw [Switch.land?, if_pos ⟨behind, before⟩, List.getElem?_map, List.getElem?_eq_getElem inside]
    rfl
  case outside =>
    intro key apart
    rw [Int32.lt_iff_toInt_lt, Int32.lt_iff_toInt_lt] at apart
    apply sends_of_land? placed List.mem_cons_self
    rw [Switch.land?, if_neg (by omega)]

/-- Increasing rows that hold the keys and the addresses of cases send the keys where the cases
say. -/
theorem sendsByCase_lookup (same : sorted.Perm cases)
    (increasing : (sorted.map fun one => one.key.toInt).Pairwise (· < ·))
    (placed : Buffer.AllPlaced code.graph.offset? (fallback :: sorted.map (·.target))) :
    let rows := sorted.map fun one => (one.key.toInt, Buffer.address code.graph.offset? one.target)
    let switch := Switch.lookup (Buffer.address code.graph.offset? fallback) rows
    switch.Increasing ∧ code.SendsByCase switch fallback cases := by
  intro rows switch
  have keys : rows.map (·.1) = sorted.map fun one => one.key.toInt := by
    rw [List.map_map]
    rfl
  have ordered : switch.Increasing := by
    show (rows.map (·.1)).Pairwise (· < ·)
    rw [keys]
    exact increasing
  refine ⟨ordered, ?_, ?_⟩
  · intro one member
    have listed : one ∈ sorted := same.mem_iff.mpr member
    apply sends_of_land? placed (List.mem_cons_of_mem _ (List.mem_map_of_mem listed))
    exact Switch.land?_of_mem ordered (List.mem_map_of_mem listed)
  · intro key missing
    apply sends_of_land? placed List.mem_cons_self
    apply Switch.land?_of_not_mem ordered
    rw [keys]
    intro found
    obtain ⟨one, listed, equal⟩ := List.mem_map.mp found
    obtain rfl := Int32.toInt_inj.mp equal
    exact missing (List.mem_map_of_mem (same.mem_iff.mp listed))

end MethodCode

namespace Assembler

variable {settings : Settings} {slots : UInt16} {operations : List Operation} {code : MethodCode}

/-- In a finished method, every switch of the run can be read off the code, ends where the next
instruction was written, and sends each key to the label that was given for it, or else to the
fallback. -/
theorem switches_dispatch (known : (start settings slots).NamesKnown operations)
    (short : settings.maxCodeLength ≤ 65535)
    (finished : (finish.run ((start settings slots).afterAll operations)).answer = .ok code) :
    ∀ moment ∈ (start settings slots).history operations, code.Dispatches moment := by
  obtain ⟨handled, returned, finishes⟩ := exists_finishes finished
  intro moment member
  constructor
  case table =>
    intro low high fallback targets asks whole
    have emits : moment.before.listed? moment.operation
        = some ⟨moment.before.code.size, .tableSwitch low high fallback targets⟩ := by
      rw [asks]
      rfl
    obtain ⟨stand, stop, inside⟩ := standAt_of_finishes known short finishes member emits
    have places := allPlaced_of_mem_pieces known short finishes member emits
      fun _ => Instruction.mem_pieces_tableSwitch _
    have start : moment.before.code.size ≤ 65535 := Nat.le_trans (Nat.le_add_right _ _) inside
    refine ⟨_, _, ?_, MethodCode.sendsInOrder_table whole places⟩
    rw [stop]
    exact Buffer.switch?_of_tableSwitch stand whole places (by omega)
  case lookup =>
    intro fallback cases asks distinct
    have emits : moment.before.listed? moment.operation
        = some ⟨moment.before.code.size, .lookupSwitch fallback (sortCases cases)⟩ := by
      rw [asks]
      rfl
    obtain ⟨stand, stop, inside⟩ := standAt_of_finishes known short finishes member emits
    have places := allPlaced_of_mem_pieces known short finishes member emits
      fun _ => Instruction.mem_pieces_lookupSwitch _
    obtain ⟨increasing, sends⟩ := MethodCode.sendsByCase_lookup (List.mergeSort_perm cases _)
      (pairwise_sortCases distinct) places
    have start : moment.before.code.size ≤ 65535 := Nat.le_trans (Nat.le_add_right _ _) inside
    have few : (sortCases cases).length < 0x80000000 := by
      have rows := Listed.totalSize_cases moment.before.code.size (sortCases cases)
      simp only [Listed.stop, Listed.pieces, Instruction.pieces,
        Piece.totalSize_cons, rows] at inside
      omega
    refine ⟨_, _, ?_, increasing, sends⟩
    rw [stop]
    exact Buffer.switch?_of_lookupSwitch stand few places (by omega)

/-- The labels of two runs in a row are known if they are in each of them. -/
theorem namesKnown_append {assembler : Assembler} {first second : List Operation}
    (known : assembler.NamesKnown first) (others : (assembler.afterAll first).NamesKnown second) :
    assembler.NamesKnown (first ++ second) := by
  induction first generalizing assembler with
  | nil => exact others
  | cons operation rest ih => exact ⟨known.1, ih known.2 others⟩

/-- A switch over two keys, and a load behind it. One of the labels is the start of the method. -/
def tableThenLoad : List Operation :=
  [.freshLabel, .freshLabel, .instruction [0x03] 1,
    .tableSwitch (-1) 0 ⟨1⟩ [⟨2⟩, .start], .place ⟨1⟩, .instruction [0x10, 0x07] 1]

/-- The state behind the first switch and the load. -/
def behindTable : Assembler := (start { computeMaxima := false } 0).afterAll tableThenLoad

/-- Two cases that are not in the order of their keys. -/
def swappedCases : List Case := [⟨7, ⟨2⟩⟩, ⟨-5, .start⟩]

/-- The cases are sorted by their signed keys. -/
theorem sortCases_swappedCases : sortCases swappedCases = [⟨-5, .start⟩, ⟨7, ⟨2⟩⟩] := by
  simp [swappedCases, sortCases, List.mergeSort]

/-- The state behind both switches. -/
def behindLookup : Assembler :=
  ((endSwitch [⟨2⟩, .start, ⟨2⟩]).run (behindTable.emitsLookup ⟨2⟩ [⟨-5, .start⟩, ⟨7, ⟨2⟩⟩])).state

/-- The second switch is written with its cases in order. -/
theorem after_behindTable : behindTable.after (.lookupSwitch ⟨2⟩ swappedCases) = behindLookup := by
  have known : (start { computeMaxima := false } 0).NamesKnown tableThenLoad := by decide
  have text := (IsText.start { computeMaxima := false } 0).afterAll known (by decide)
  have near : behindTable.Near behindTable.code.cursor := text.near (by decide)
  have targets : ∀ one ∈ sortCases swappedCases,
      (behindTable.graph.node? one.target).isSome := by
    rw [sortCases_swappedCases]
    decide
  rw [after, Operation.perform, IsText.state_withoutLabel, run_lookupSwitch near rfl targets,
    sortCases_swappedCases]
  rfl

/-- A switch over any keys behind the other one, and a return. -/
def tableThenLookup : List Operation :=
  tableThenLoad ++ [.lookupSwitch ⟨2⟩ swappedCases, .place ⟨2⟩, .instruction [0xb1] 0]

/-- The labels of the operations are known. -/
theorem namesKnown_tableThenLookup :
    (start { computeMaxima := false } 0).NamesKnown tableThenLookup := by
  have others : behindTable.NamesKnown
      [.lookupSwitch ⟨2⟩ swappedCases, .place ⟨2⟩, .instruction [0xb1] 0] := by
    refine ⟨by decide, ?_⟩
    rw [after_behindTable]
    decide
  exact namesKnown_append (by decide) others

/-- Both switches send their keys to their labels, the negative ones too. They stand at different
distances from the next multiple of four. -/
theorem switches_dispatch_tableThenLookup :
    ∃ code, (finish.run ((start { computeMaxima := false } 0).afterAll tableThenLookup)).answer
        = .ok code ∧
      (∀ moment ∈ (start { computeMaxima := false } 0).history tableThenLookup,
        code.Dispatches moment) ∧
      code.code.switch? 1 = some (.table (-1) 0 24 [52, 0], 24) ∧
      code.code.switch? 26 = some (.lookup 52 [(-5, 0), (7, 52)], 52) := by
  have ends : (start { computeMaxima := false } 0).afterAll tableThenLookup
      = behindLookup.afterAll [.place ⟨2⟩, .instruction [0xb1] 0] := by
    rw [tableThenLookup, afterAll_append, afterAll_cons]
    exact congrArg (fun state : Assembler => state.afterAll _) after_behindTable
  obtain ⟨code, found, table, lookup⟩ :
      ∃ code ∈ (finish.run (behindLookup.afterAll
          [.place ⟨2⟩, .instruction [0xb1] 0])).answer.toOption,
        code.code.switch? 1 = some (.table (-1) 0 24 [52, 0], 24) ∧
        code.code.switch? 26 = some (.lookup 52 [(-5, 0), (7, 52)], 52) := by
    decide +kernel
  have finished := eq_ok_of_mem_toOption found
  rw [← ends] at finished
  have dispatch := switches_dispatch namesKnown_tableThenLookup (by decide) finished
  exact ⟨code, finished, dispatch, table, lookup⟩

end Assembler

end MethodBody
