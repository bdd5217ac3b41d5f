import MethodBody.Proofs.Tables

/-!
# The ranges that tables hold

What a table says of the code lies in the code (`tables_in_range`). The labels of a protected range
are blocks in their order, and a line can be attached to any label. But blocks that follow each
other may have no bytes between them, and a label may lie at the very end. So a range may be empty
and a line may start at the end of the code, and this is so exactly if nothing was written behind
the label.
-/

namespace MethodBody

/-- The row of a protected range lies in code of the given size. -/
structure HandlerRow.Fits (row : HandlerRow) (handler : Handler) (history : List Moment)
    (size : Nat) : Prop where
  /-- The range does not end before it starts. -/
  ordered : row.start.toNat ≤ row.stop.toNat
  /-- The range ends no further back than the code. -/
  inside : row.stop.toNat ≤ size
  /-- The handler starts before the end of the code. -/
  entry : row.handler.toNat < size
  /-- The range is not empty exactly if something is written between its labels. -/
  nonempty : row.start.toNat < row.stop.toNat ↔ ∃ moment ∈ history,
    moment.WritesBehind handler.start ∧ moment.before.graph.offset? handler.stop = none

/-- The row of a line lies in code of the given size. -/
structure LineRow.Fits (row : LineRow) (mark : LineMark) (history : List Moment) (size : Nat) :
    Prop where
  /-- The line starts no further back than the end of the code. -/
  inside : row.start.toNat ≤ size
  /-- The line starts before the end exactly if something is written behind its label. -/
  before : row.start.toNat < size ↔ ∃ moment ∈ history, moment.WritesBehind mark.label

namespace Assembler

variable {assembler : Assembler} {handled returned : FlowGraph} {code : MethodCode}
  {handler : Handler}

/-- In a finished method the labels of a protected range are blocks in this order. -/
theorem Finishes.precedes (finishes : assembler.Finishes handled returned code)
    (ascending : assembler.graph.blocks.toList.Pairwise assembler.graph.Precedes)
    (member : handler ∈ assembler.handlers.toList) :
    assembler.graph.Precedes handler.start handler.stop := by
  obtain ⟨blocks, found, _⟩ := (mem_edgesOf_of_forEach finishes.handles).2 handler member
  obtain ⟨first, last, ordered, starts, stops, _⟩ := exists_of_protectedBlocks found
  rw [blocks_closeBlock] at starts stops
  exact FlowGraph.precedes_of_lt ascending ordered starts stops

variable {settings : Settings} {slots : UInt16} {operations : List Operation}

/-- The tables of a finished method hold offsets in its code, which is not too long. -/
theorem tables_in_range (short : settings.maxCodeLength ≤ 65535)
    (finished : (finish.run ((start settings slots).afterAll operations)).answer = .ok code) :
    let history := (start settings slots).history operations
    code.code.size ≤ 65535 ∧
      (∀ moment ∈ history, moment.before.code.size < moment.after.code.size → 0 < code.code.size) ∧
      List.Forall₂ (fun handler row => row.Fits handler history code.code.size)
        ((start settings slots).protections operations) code.handlers ∧
      List.Forall₂ (fun mark row => row.Fits mark history code.code.size)
        ((start settings slots).afterAll operations).tabled code.lines := by
  intro history
  obtain ⟨handled, returned, finishes⟩ := exists_finishes finished
  have ascends := Ascends.afterAll settings slots operations
  have wired := (wired_afterAll settings slots operations).1
  have anchored := anchored_afterAll settings slots operations
  have added : ((start settings slots).afterAll operations).handlers.toList
      = (start settings slots).protections operations :=
    handlers_afterAll (start settings slots) operations
  have final {label : Label} {offset : Nat} (found : code.graph.offset? label = some offset) :
      ((start settings slots).afterAll operations).graph.offset? label = some offset := by
    rw [← finishes.offset?_eq]
    exact found
  rw [finishes.code_eq]
  refine ⟨size_le_of_finishes finishes (by rw [settings_afterAll]; exact short), ?_, ?_, ?_⟩
  · intro moment member longer
    have size := size_le_of_mem_history member
    omega
  · rw [← added]
    have both := (List.forall₂_and_left _ _).mpr ⟨fun handler member => member, finishes.fillsIn⟩
    refine both.imp fun handler row ⟨member, fills⟩ => ?_
    have starts := final fills.start
    have stops := final fills.stop
    obtain ⟨front, back, first, second, ordered⟩ := finishes.precedes ascends.ascending member
    obtain rfl : front = row.start.toNat := Option.some.inj (first.symm.trans starts)
    obtain rfl : back = row.stop.toNat := Option.some.inj (second.symm.trans stops)
    obtain ⟨_, place, placed, before⟩ := liesWithin_of_isTarget wired anchored finishes.complete
      (anchored.handlers handler (Array.mem_toList_iff.mp member))
    obtain rfl : place = row.handler.toNat :=
      Option.some.inj (placed.symm.trans (final fills.entry))
    exact ⟨ordered, ascends.behind _ _ stops, before, lt_iff starts stops⟩
  · refine finishes.marksFillIn.imp fun mark row fills => ?_
    have placed := final fills.start
    exact ⟨ascends.behind _ _ placed, lt_size_iff placed⟩

/-- An empty range between two labels, and a line at the very end. -/
def emptyRange : List Operation :=
  [.freshLabel, .freshLabel, .freshLabel, .freshDebugLabel, .place ⟨1⟩, .place ⟨2⟩,
    .instruction [0xb1] 0, .place ⟨3⟩, .instruction [0xbf] (-1), .place ⟨4⟩,
    .addHandler ⟨⟨1⟩, ⟨2⟩, ⟨3⟩, 0⟩, .addHandler ⟨.start, ⟨3⟩, ⟨3⟩, 0⟩, .addLine ⟨1⟩ 7,
    .addLine ⟨4⟩ 8]

/-- The tables of the method hold offsets in its two bytes. The first range is empty, since nothing
is written between its labels, and the second one is not. -/
theorem tables_in_range_emptyRange :
    ∃ code, (finish.run ((start {} 0).afterAll emptyRange)).answer = .ok code ∧
      code.code.size = 2 ∧ code.handlers = [⟨0, 0, 1, 0⟩, ⟨0, 1, 1, 0⟩] ∧
      code.lines = [⟨0, 7⟩, ⟨2, 8⟩] ∧
      List.Forall₂ (fun handler row =>
          row.Fits handler ((start {} 0).history emptyRange) code.code.size)
        [⟨⟨1⟩, ⟨2⟩, ⟨3⟩, 0⟩, ⟨.start, ⟨3⟩, ⟨3⟩, 0⟩] code.handlers ∧
      List.Forall₂ (fun mark row =>
          row.Fits mark ((start {} 0).history emptyRange) code.code.size)
        [⟨⟨1⟩, 7⟩, ⟨⟨4⟩, 8⟩] code.lines := by
  obtain ⟨code, found, size, handlers, lines⟩ :
      ∃ code ∈ (finish.run ((start {} 0).afterAll emptyRange)).answer.toOption,
        code.code.size = 2 ∧ code.handlers = [⟨0, 0, 1, 0⟩, ⟨0, 1, 1, 0⟩] ∧
        code.lines = [⟨0, 7⟩, ⟨2, 8⟩] := by
    decide +kernel
  have finished := eq_ok_of_mem_toOption found
  obtain ⟨-, -, ranges, marks⟩ := tables_in_range (by decide) finished
  have registered : (start {} 0).protections emptyRange
      = [⟨⟨1⟩, ⟨2⟩, ⟨3⟩, 0⟩, ⟨.start, ⟨3⟩, ⟨3⟩, 0⟩] := by
    decide +kernel
  have tabled : ((start {} 0).afterAll emptyRange).tabled = [⟨⟨1⟩, 7⟩, ⟨⟨4⟩, 8⟩] := by
    decide +kernel
  rw [registered] at ranges
  rw [tabled] at marks
  exact ⟨code, finished, size, handlers, lines, ranges, marks⟩

/-- A method is finished though one of its ranges is empty and a line starts at the end of its code,
and so is a method without code. -/
theorem not_in_range_emptyRange :
    (∃ code, (finish.run ((start {} 0).afterAll emptyRange)).answer = .ok code ∧
      (∃ row ∈ code.handlers, ¬ row.start < row.stop) ∧
      ∃ row ∈ code.lines, ¬ row.start.toNat < code.code.size) ∧
    ∃ code, (finish.run ((start {} 0).afterAll [])).answer = .ok code ∧ ¬ 0 < code.code.size := by
  constructor
  · obtain ⟨code, found, handlers, lines⟩ :
        ∃ code ∈ (finish.run ((start {} 0).afterAll emptyRange)).answer.toOption,
          (∃ row ∈ code.handlers, ¬ row.start < row.stop) ∧
          ∃ row ∈ code.lines, ¬ row.start.toNat < code.code.size := by
      decide +kernel
    exact ⟨code, eq_ok_of_mem_toOption found, handlers, lines⟩
  · obtain ⟨code, found, empty⟩ :
        ∃ code ∈ (finish.run ((start {} 0).afterAll [])).answer.toOption, ¬ 0 < code.code.size := by
      decide +kernel
    exact ⟨code, eq_ok_of_mem_toOption found, empty⟩

end Assembler

end MethodBody
