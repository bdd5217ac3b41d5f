import MethodBody.Proofs.Formats
import MethodBody.Proofs.Positions
import MethodBody.Proofs.Protection

/-!
# The tables of finished methods

A finished method has one row in its exception table for each protected range that was added, and
one in its line number table for each line, and each row holds the offsets of its labels. Any number
of ranges and lines can be added, but the count in front of a table is a word of two bytes. So the
tables are read back exactly as they are if they have fewer rows than a word has values, and only up
to the wrapped count otherwise (`tables_restored_iff`).
-/

namespace MethodBody

/-- The row holds the offset of the label that the line is attached to. -/
structure LineMark.FillsIn (mark : LineMark) (graph : FlowGraph) (row : LineRow) : Prop where
  /-- The offset of the label. -/
  start : graph.offset? mark.label = some row.start.toNat
  /-- The number of the line. -/
  line : row.line = mark.line

namespace Assembler

variable {assembler : Assembler} {handled returned : FlowGraph} {code : MethodCode}

/-- The lines that are put into a table. -/
def tabled (assembler : Assembler) : List LineMark :=
  if assembler.settings.emitLines then assembler.lines.toList else []

/-- The rows of the line number table hold the offsets of the labels that lines are attached to. -/
theorem Finishes.marksFillIn (finishes : assembler.Finishes handled returned code) :
    List.Forall₂ (fun mark row => mark.FillsIn code.graph row) assembler.tabled code.lines := by
  have found := finishes.lines_eq
  have closed := closeBlock_eq assembler
  have settings : assembler.closeBlock.settings = assembler.settings := by rw [closed]
  have lines : assembler.closeBlock.lines = assembler.lines := by rw [closed]
  unfold lineRows at found
  simp only [settings, lines] at found
  unfold tabled
  split at found
  · rename_i emits
    rw [if_pos emits]
    refine (forall₂_of_mapM found).imp fun mark row filled => ?_
    obtain ⟨start, starts, row⟩ := bind_eq_ok.mp filled
    obtain rfl := Except.ok.inj row
    exact ⟨of_tableOffset starts, rfl⟩
  · rename_i none
    rw [if_neg none]
    rw [← Except.ok.inj found]
    exact .nil

/-- A finished method has as many rows in its tables as ranges and lines were added. Each table is
read back up to the word that its count wraps around in, and all of it exactly if a word can say how
many rows it has. -/
theorem tables_restored_iff {settings : Settings} {slots : UInt16} {operations : List Operation}
    (finished : (finish.run ((start settings slots).afterAll operations)).answer = .ok code) :
    let ranges := (start settings slots).protections operations
    let marks := ((start settings slots).afterAll operations).tabled
    (code.handlers.length = ranges.length ∧ HandlerRow.format.ReadsCounted code.handlers ∧
      (HandlerRow.format.table.Restores code.handlers ↔ ranges.length < 65536)) ∧
    (code.lines.length = marks.length ∧ LineRow.format.ReadsCounted code.lines ∧
      (LineRow.format.table.Restores code.lines ↔ marks.length < 65536)) := by
  intro ranges marks
  obtain ⟨handled, returned, finishes⟩ := exists_finishes finished
  have added : ((start settings slots).afterAll operations).handlers.toList = ranges :=
    handlers_afterAll (start settings slots) operations
  have handlers : code.handlers.length = ranges.length := by
    rw [← added]
    exact finishes.fillsIn.length_eq.symm
  have lines : code.lines.length = marks.length := finishes.marksFillIn.length_eq.symm
  refine ⟨⟨handlers, ?_, ?_⟩, lines, ?_, ?_⟩
  · exact Format.readsCounted fun row _ => row.restores
  · rw [← handlers]
    exact Format.restores_table_iff fun row _ => row.restores
  · exact Format.readsCounted fun row _ => row.restores
  · rw [← lines]
    exact Format.restores_table_iff fun row _ => row.restores

/-- Two lines and a range in a method of two instructions. -/
def linedRange : List Operation :=
  [.freshLabel, .addLine .start 7, .instruction [0xb1] 0, .place ⟨1⟩, .addLine ⟨1⟩ 8,
    .instruction [0xbf] (-1), .addHandler ⟨.start, ⟨1⟩, ⟨1⟩, 0⟩]

/-- The tables of the method are read back. -/
theorem tables_restored_linedRange :
    ∃ code, (finish.run ((start {} 0).afterAll linedRange)).answer = .ok code ∧
      code.handlers = [⟨0, 1, 1, 0⟩] ∧ code.lines = [⟨0, 7⟩, ⟨1, 8⟩] ∧
      HandlerRow.format.table.Restores code.handlers ∧
        LineRow.format.table.Restores code.lines := by
  obtain ⟨code, found, handlers, lines⟩ :
      ∃ code ∈ (finish.run ((start {} 0).afterAll linedRange)).answer.toOption,
        code.handlers = [⟨0, 1, 1, 0⟩] ∧ code.lines = [⟨0, 7⟩, ⟨1, 8⟩] := by
    decide +kernel
  have finished := eq_ok_of_mem_toOption found
  obtain ⟨⟨ranges, _, handlersBack⟩, marks, _, linesBack⟩ := tables_restored_iff finished
  refine ⟨code, finished, handlers, lines, handlersBack.mpr ?_, linesBack.mpr ?_⟩
  · rw [← ranges, handlers]
    decide
  · rw [← marks, lines]
    decide

/-- A method without instructions that has a number of lines. -/
def lined (count : Nat) : Assembler :=
  { start { computeMaxima := false } 0 with
    graph :=
      { nodes := #[{ label := .start, placement := .placed 0, lines := Array.replicate count 0 }]
        blocks := #[.start] }
    lines := Array.replicate count ⟨.start, 0⟩ }

/-- One more line is added. -/
theorem after_addLine_lined (count : Nat) :
    (lined count).after (.addLine .start 0) = lined (count + 1) := by
  have known : (lined count).graph.node? .start = some
      { label := .start, placement := .placed 0, lines := Array.replicate count 0 } := rfl
  rw [after, Operation.perform, IsText.state_withoutLabel]
  unfold addLine
  simp only [Action.run_bind, run_getNode known, Outcome.andThen_ok, Action.run_modify]
  simp [lined, update, FlowGraph.update, Node.addLine, Array.replicate_succ, Label.start]

/-- Lines are added one by one. -/
theorem afterAll_addLine_lined (count : Nat) :
    (start { computeMaxima := false } 0).afterAll (List.replicate count (.addLine .start 0))
      = lined count := by
  induction count with
  | zero => rfl
  | succ count ih =>
    rw [List.replicate_succ', afterAll_append, ih]
    exact after_addLine_lined count

/-- A method with any number of lines and a return is finished, and has all of them in its table. -/
theorem exists_finished_lined (count : Nat) :
    ∃ code, (finish.run ((lined count).writesPlain 0xb1 [] 0)).answer = .ok code ∧
      code.lines.length = count := by
  let method := (lined count).writesPlain 0xb1 [] 0
  have marks : method.lines.toList = List.replicate count ⟨.start, 0⟩ := Array.toList_replicate
  have placed : method.tableOffset .start = .ok 0 := rfl
  obtain ⟨rows, mapped⟩ : ∃ rows, method.lineRows = .ok rows := by
    refine exists_mapM_eq_ok fun mark member => ?_
    rw [marks] at member
    obtain rfl := List.eq_of_mem_replicate member
    exact ⟨⟨0, 0⟩, by rw [placed]; rfl⟩
  obtain ⟨code, finished, rfl⟩ :=
    exists_finished (show method.unfinished? = none from rfl) rfl rfl rfl mapped
  refine ⟨code, finished, ?_⟩
  rw [← (forall₂_of_mapM mapped).length_eq, marks, List.length_replicate]

/-- As many lines as a word has values, and a return. -/
def manyLines : List Operation :=
  List.replicate 65536 (.addLine .start 0) ++ [.instruction [0xb1] 0]

/-- The method is finished, but the count in front of its lines wraps around to zero, so they are
not read back. -/
theorem not_restored_manyLines :
    ∃ code,
      (finish.run ((start { computeMaxima := false } 0).afterAll manyLines)).answer = .ok code ∧
      code.lines.length = 65536 ∧ ¬ LineRow.format.table.Restores code.lines := by
  have run : (start { computeMaxima := false } 0).afterAll manyLines
      = (lined 65536).writesPlain 0xb1 [] 0 := by
    rw [manyLines, afterAll_append, afterAll_addLine_lined]
    rfl
  obtain ⟨code, finished, length⟩ := exists_finished_lined 65536
  refine ⟨code, by rw [run]; exact finished, length, fun restores => ?_⟩
  have short := (Format.restores_table_iff fun row _ => row.restores).mp restores
  omega

end Assembler

end MethodBody
