import MethodBody.Proofs.Refusals

/-!
# What an operation does to the blocks

Whatever an operation does, and whether it fails or not, it does one of four things to the blocks
(`Assembler.Moves`): it goes on with the open block, if there is one (`Assembler.Stays`); it leaves
the open block for good; it opens the next block, which the open one falls into; or it ends the open
block with the call of a subroutine and opens the block that the subroutine returns to.
-/

namespace MethodBody

/-- The operation writes an instruction that never goes on with the next one. -/
def Operation.leaves : Operation → Bool
  | instruction (opcode :: _) _ => Opcode.isTerminal opcode
  | localInstruction (.ret _) => true
  | jump opcode _ => opcode.base == Opcode.goto
  | tableSwitch .. | lookupSwitch .. => true
  | _ => false

namespace FlowGraph

/-- Whether the block at a label ends with the call of a subroutine, and whether it ends with the
return from one. -/
def dutyOf (graph : FlowGraph) (label : Label) : Bool × Bool :=
  (graph.node? label).elim (false, false) fun node =>
    (node.flags.callsSubroutine, node.flags.endsSubroutine)

/-- A subroutine starts at the label. -/
def IsEntry (graph : FlowGraph) (label : Label) : Prop :=
  ∃ node, graph.node? label = some node ∧ node.flags.startsSubroutine = true

/-- A change that keeps the duties. -/
theorem dutyOf_update {change : Node → Node}
    (same : ∀ node, (change node).flags.callsSubroutine = node.flags.callsSubroutine ∧
      (change node).flags.endsSubroutine = node.flags.endsSubroutine)
    (graph : FlowGraph) (changed : Label) :
    (graph.update changed change).dutyOf = graph.dutyOf := by
  funext label
  simp only [dutyOf, node?_update]
  split
  · cases graph.node? label <;> simp [same]
  · rfl

/-- A change that lets entries be entries. -/
theorem isEntry_update {change : Node → Node}
    (same : ∀ node,
      node.flags.startsSubroutine = true → (change node).flags.startsSubroutine = true)
    (graph : FlowGraph) (changed : Label) {label : Label} (entry : graph.IsEntry label) :
    (graph.update changed change).IsEntry label := by
  obtain ⟨node, known, starts⟩ := entry
  by_cases here : changed = label
  · exact ⟨change node, by simp [node?_update, here, known], same node starts⟩
  · exact ⟨node, by simp [node?_update, here, known], starts⟩

end FlowGraph

namespace Assembler

/-- The label of the open block, and whether control falls into it. -/
def openLabel? (assembler : Assembler) : Option (Label × Bool) :=
  assembler.openBlock.map fun block => (block.label, block.isFallenInto)

/-- The open block stays open, and all that happens to the flow is that it may get edges to
targets. -/
structure Stays (before after : Assembler) : Prop where
  /-- The blocks are the same. -/
  blocks : after.graph.blocks = before.graph.blocks
  /-- The same block is open. -/
  opened : after.openLabel? = before.openLabel?
  /-- No block gets another duty. -/
  duties : after.graph.dutyOf = before.graph.dutyOf
  /-- New edges lead from the open block to targets. -/
  edges : ∀ label, ∃ new, after.graph.edgesOf label = new ++ before.graph.edgesOf label ∧
    (∀ edge ∈ new, after.graph.IsTarget edge.successor) ∧
      (new = [] ∨ ∃ isFallenInto, before.openLabel? = some (label, isFallenInto))
  /-- A label keeps its offset. -/
  offsets : ∀ label offset, before.graph.offset? label = some offset →
    after.graph.offset? label = some offset
  /-- A target stays one. -/
  targets : ∀ label, before.graph.IsTarget label → after.graph.IsTarget label
  /-- An entry stays one. -/
  entries : ∀ label, before.graph.IsEntry label → after.graph.IsEntry label
  /-- No byte is taken away. -/
  size : before.code.size ≤ after.code.size

variable {assembler first second third before after : Assembler} {label : Label}

namespace Stays

/-- Nothing happens. -/
theorem refl (assembler : Assembler) : assembler.Stays assembler where
  blocks := rfl
  opened := rfl
  duties := rfl
  edges _ := ⟨[], rfl, by simp, .inl rfl⟩
  offsets _ _ found := found
  targets _ target := target
  entries _ entry := entry
  size := Nat.le_refl _

/-- The block stays open in two steps. -/
theorem trans (one : first.Stays second) (two : second.Stays third) : first.Stays third where
  blocks := two.blocks.trans one.blocks
  opened := two.opened.trans one.opened
  duties := two.duties.trans one.duties
  edges label := by
    obtain ⟨old, first, targets, fromOpen⟩ := one.edges label
    obtain ⟨new, second, moreTargets, alsoFromOpen⟩ := two.edges label
    refine ⟨new ++ old, by rw [second, first, List.append_assoc], ?_, ?_⟩
    · intro edge member
      rcases List.mem_append.mp member with later | earlier
      · exact moreTargets edge later
      · exact two.targets _ (targets edge earlier)
    · rw [one.opened] at alsoFromOpen
      rcases alsoFromOpen with rfl | opened
      · exact fromOpen
      · exact .inr opened
  offsets label offset found := two.offsets label offset (one.offsets label offset found)
  targets label target := two.targets label (one.targets label target)
  entries label entry := two.entries label (one.entries label entry)
  size := Nat.le_trans one.size two.size

/-- Nothing changes about the labels. -/
theorem of_graph (graph : after.graph = before.graph)
    (opened : after.openLabel? = before.openLabel?)
    (size : before.code.size ≤ after.code.size) : before.Stays after where
  blocks := by rw [graph]
  opened := opened
  duties := by rw [graph]
  edges _ := ⟨[], by rw [graph]; rfl, by simp, .inl rfl⟩
  offsets _ _ found := by rw [graph]; exact found
  targets _ target := by rw [graph]; exact target
  entries _ entry := by rw [graph]; exact entry
  size := size

/-- A label changes, but nothing about the flow. -/
theorem update (assembler : Assembler) (label : Label) {change : Node → Node}
    (edges : ∀ node, (change node).edges = node.edges)
    (offset : ∀ node, assembler.graph.node? label = some node →
      ∀ place, node.offset? = some place → (change node).offset? = some place)
    (duty : ∀ node, (change node).flags.callsSubroutine = node.flags.callsSubroutine ∧
      (change node).flags.endsSubroutine = node.flags.endsSubroutine)
    (target : ∀ node, node.flags.jumpTarget = true → (change node).flags.jumpTarget = true)
    (entry : ∀ node, node.flags.startsSubroutine = true →
      (change node).flags.startsSubroutine = true) :
    assembler.Stays (assembler.update label change) where
  blocks := rfl
  opened := rfl
  duties := FlowGraph.dutyOf_update duty _ _
  edges other := ⟨[], congrFun (FlowGraph.edgesOf_update _ _ edges) other, by simp, .inl rfl⟩
  offsets := FlowGraph.offset?_update _ _ offset
  targets := FlowGraph.isTarget_update _ _ target
  entries _ := FlowGraph.isEntry_update entry _ _
  size := Nat.le_refl _

/-- Bytes are written. -/
theorem append (assembler : Assembler) (bytes : List UInt8) :
    assembler.Stays (assembler.append bytes) :=
  .of_graph rfl rfl (by simp [Assembler.append])

/-- The stack height changes. -/
theorem adjust (assembler : Assembler) (delta : Int32) : assembler.Stays (assembler.adjust delta) :=
  .of_graph rfl (by cases opened : assembler.openBlock <;> simp [openLabel?,
    Assembler.adjust, opened, OpenBlock.adjust]) (Nat.le_refl _)

/-- A label is marked as a target. -/
theorem marked (assembler : Assembler) (label : Label) :
    assembler.Stays (assembler.update label Node.marked) :=
  .update assembler label (fun _ => rfl) (fun _ _ _ placed => placed) (fun _ => ⟨rfl, rfl⟩)
    (fun _ _ => rfl) fun _ entry => entry

/-- A label is marked as a bound. -/
theorem bounded (assembler : Assembler) (label : Label) :
    assembler.Stays (assembler.update label Node.bounded) := by
  have same (node : Node) : node.bounded = node ∨
      node.bounded = { node with flags.debugOnly := false } := by
    unfold Node.bounded
    split
    · exact .inl rfl
    · exact .inr rfl
  refine .update assembler label ?_ ?_ ?_ ?_ ?_
  · intro node
    rcases same node with bounded | bounded <;> rw [bounded]
  · intro node _ place placed
    rcases same node with bounded | bounded <;> rw [bounded] <;> exact placed
  · intro node
    rcases same node with bounded | bounded <;> rw [bounded] <;> exact ⟨rfl, rfl⟩
  · intro node marked
    rcases same node with bounded | bounded <;> rw [bounded] <;> exact marked
  · intro node entry
    rcases same node with bounded | bounded <;> rw [bounded] <;> exact entry

/-- The distance to a label is written. -/
theorem refers (assembler : Assembler) (target : Label) (source : Nat) (width : Width) :
    assembler.Stays (assembler.refers target source width) := by
  have same (node : Node) (reference : Reference) : (node.referred reference).edges = node.edges ∧
      (node.referred reference).flags = node.flags := by
    unfold Node.referred
    split <;> exact ⟨rfl, rfl⟩
  refine (Stays.append assembler _).trans (.update _ target ?_ ?_ ?_ ?_ ?_)
  · exact fun node => (same node _).1
  · intro node _ place placed
    rw [Node.offset?_referred]
    exact placed
  · intro node
    rw [(same node _).2]
    exact ⟨rfl, rfl⟩
  · intro node marked
    rw [(same node _).2]
    exact marked
  · intro node entry
    rw [(same node _).2]
    exact entry

/-- The distances to several labels are written. -/
theorem refersAll (assembler : Assembler) (targets : List Label) (source : Nat) :
    assembler.Stays (assembler.refersAll targets source) := by
  induction targets generalizing assembler with
  | nil => exact refl assembler
  | cons target rest ih => exact (refers assembler target source .wide).trans (ih _)

/-- A jump is written. -/
theorem emits (assembler : Assembler) (target : Label) (form : JumpForm) :
    assembler.Stays (assembler.emits target form) := by
  cases form with
  | plain opcode width => exact (append assembler [opcode]).trans (refers _ _ _ _)
  | inverted inverse =>
    exact (append assembler _).trans ((append _ [Opcode.gotoWide]).trans (refers _ _ _ _))

/-- The head of a switch is written. -/
theorem beginsSwitch (assembler : Assembler) (opcode : Opcode) (fallback : Label) :
    assembler.Stays (assembler.beginsSwitch opcode fallback) := by
  have headed : assembler.Stays (assembler.append [opcode]).aligned :=
    .of_graph rfl rfl (by
      simp only [Assembler.append, aligned, Buffer.align, Buffer.size_append]
      omega)
  exact headed.trans (refers _ _ _ _)

/-- A switch over consecutive keys is written. -/
theorem emitsTable (assembler : Assembler) (low high : Int32) (fallback : Label)
    (targets : List Label) : assembler.Stays (assembler.emitsTable low high fallback targets) :=
  (beginsSwitch assembler _ fallback).trans ((append _ _).trans
    ((append _ _).trans (refersAll _ targets _)))

/-- A switch over any keys is written. -/
theorem emitsLookup (assembler : Assembler) (fallback : Label) (cases : List Case) :
    assembler.Stays (assembler.emitsLookup fallback cases) := by
  have written (before : Assembler) (rest : List Case) (source : Nat) :
      before.Stays (rest.foldl (fun after one => after.emitsCase source one) before) := by
    induction rest generalizing before with
    | nil => exact refl before
    | cons one rest ih =>
      exact (append before _).trans ((refers _ one.target source .wide).trans (ih _))
  exact (beginsSwitch assembler _ fallback).trans ((append _ _).trans (written _ cases _))

/-- The open block leads to a target. -/
theorem addEdge {successor : Label} (target : assembler.graph.IsTarget successor) :
    assembler.Stays (assembler.addEdge successor) := by
  cases opened : assembler.openBlock with
  | none =>
    rw [addEdge_of_none opened]
    exact refl assembler
  | some block =>
    have linked : assembler.addEdge successor = { assembler with
        graph := assembler.graph.prepend block.label ⟨.jump block.height, successor⟩ } := by
      simp [Assembler.addEdge, opened]
    have stays : ∀ label, assembler.graph.IsTarget label →
        (assembler.graph.prepend block.label ⟨.jump block.height, successor⟩).IsTarget label :=
      FlowGraph.isTarget_update _ _ fun _ marked => marked
    have duties : (assembler.graph.prepend block.label ⟨.jump block.height, successor⟩).dutyOf
        = assembler.graph.dutyOf := by
      apply FlowGraph.dutyOf_update
      exact fun _ => ⟨rfl, rfl⟩
    have entries : ∀ label, assembler.graph.IsEntry label →
        (assembler.graph.prepend block.label ⟨.jump block.height, successor⟩).IsEntry label := by
      intro label entry
      apply FlowGraph.isEntry_update
      · exact fun _ starts => starts
      · exact entry
    rw [linked]
    refine ⟨rfl, rfl, duties, ?_, FlowGraph.offset?_update _ _ fun _ _ _ placed => placed, stays,
      entries, Nat.le_refl _⟩
    intro label
    cases known : assembler.graph.node? block.label with
    | none =>
      refine ⟨[], ?_, by simp, .inl rfl⟩
      simp only [FlowGraph.edgesOf, FlowGraph.prepend, FlowGraph.node?_update]
      split
      · rename_i same
        simp [← same, known]
      · rfl
    | some node =>
      have edges := FlowGraph.edgesOf_prepend (Option.isSome_of_eq_some known)
        ⟨.jump block.height, successor⟩ label
      by_cases same : block.label = label
      · subst same
        rw [if_pos rfl] at edges
        exact ⟨[⟨.jump block.height, successor⟩], edges, by simpa using stays _ target,
          .inr ⟨block.isFallenInto, by simp [openLabel?, opened]⟩⟩
      · rw [if_neg same] at edges
        exact ⟨[], edges, by simp, .inl rfl⟩

/-- The open block leads to known labels. -/
theorem leadsTo {targets : List Label}
    (known : ∀ target ∈ targets, (assembler.graph.node? target).isSome) :
    assembler.Stays (assembler.leadsTo targets) := by
  induction targets generalizing assembler with
  | nil => exact refl assembler
  | cons target rest ih =>
    have here := isTarget_marked (known target List.mem_cons_self)
    refine ((marked assembler target).trans (addEdge here)).trans (ih fun other member => ?_)
    rw [isSome_node?_addEdge]
    simpa [Assembler.update] using known other (List.mem_cons_of_mem _ member)

/-- A label is created. -/
theorem create (assembler : Assembler) {flags : Flags} (calls : flags.callsSubroutine = false)
    (ends : flags.endsSubroutine = false) :
    assembler.Stays { assembler with graph := assembler.graph.create flags } := by
  have quiet := assembler.graph.quiet_create flags
  refine ⟨rfl, rfl, ?_, fun label => ⟨[], congrFun quiet.edges label, by simp, .inl rfl⟩,
    quiet.offsets, quiet.targets, ?_, Nat.le_refl _⟩
  · funext label
    simp only [FlowGraph.dutyOf, FlowGraph.node?_create]
    split
    · rename_i last
      simp [last, calls, ends]
    · rfl
  · rintro label ⟨node, known, starts⟩
    have other : label ≠ assembler.graph.nextLabel := by
      rintro rfl
      simp at known
    exact ⟨node, by simp [FlowGraph.node?_create, other, known], starts⟩

/-- A label is placed, and no block starts there yet. -/
theorem settle (assembler : Assembler) {node : Node}
    (known : assembler.graph.node? label = some node) (unplaced : node.isPlaced = false)
    {code : Buffer} (size : code.size = assembler.code.size) (rewritten : Bool) :
    assembler.Stays (assembler.settle label node code rewritten) := by
  have same := FlowGraph.update_const known fun node =>
    { node with placement := .placed assembler.code.cursor }
  have changed : assembler.Stays (assembler.update label fun node =>
      { node with placement := .placed assembler.code.cursor }) := by
    refine .update assembler label (fun _ => rfl) ?_ (fun _ => ⟨rfl, rfl⟩) (fun _ marked => marked)
      fun _ entry => entry
    intro other found place placed
    obtain rfl : node = other := by simpa [known] using found
    simp [Node.isPlaced, placed] at unplaced
  refine changed.trans (.of_graph ?_ rfl (Nat.le_of_eq size.symm))
  exact same

/-- What is left behind by an operation that fails. -/
theorem of_leaves (leaves : before.Leaves after) : before.Stays after := by
  cases leaves with
  | code longer => exact .of_graph rfl rfl longer
  | refers target source width => exact refers before target source width
  | marks => exact marked before _
  | bounds label => exact bounded before label
  | adjusts delta => exact adjust before delta
  | links target => exact addEdge target

/-- All that is left behind by an operation that fails. -/
theorem of_lingers (lingers : before.Lingers after) : before.Stays after := by
  induction lingers with
  | refl => exact refl before
  | tail _ leaves ih => exact ih.trans (of_leaves leaves)

end Stays

/-- What an operation does to the blocks. -/
inductive Moves (before : Assembler) (operation : Operation) (after : Assembler) : Prop
  /-- The open block stays open, or none is opened. -/
  | stays (same : before.Stays after)
  /-- The open block is left for good, with an instruction that was written into it. -/
  | ends {middle : Assembler} {block : OpenBlock} (same : before.Stays middle)
      (opened : middle.openBlock = some block) (leaves : operation.leaves = true)
      (longer : before.code.size < after.code.size)
      (closed : middle.closeBlock = after ∨ middle.endSubroutine = after)
  /-- A block starts at a label that has just been placed. -/
  | starts {middle : Assembler} {label : Label} (same : before.Stays middle)
      (fresh : before.graph.offset? label = none)
      (placed : middle.graph.offset? label = some middle.code.size)
      (started : middle.startBlock label = after)
  /-- The open block is ended by a call. -/
  | calls {middle : Assembler} {block : OpenBlock} {opcode : Opcode} {entry : Label}
      (same : before.Stays middle) (opened : before.openBlock = some block)
      (kept : middle.openBlock = some block) (jumps : operation = .jump opcode entry)
      (isCall : opcode.base = Opcode.jsr) (target : middle.graph.IsTarget entry)
      (called : middle.calls block entry = after)

/-- An operation that lists an instruction makes the code longer. -/
theorem size_lt_of_performs {operation : Operation} {instruction : Instruction}
    (performs : before.Performs operation after)
    (emitted : operation.emitted? before = some instruction) :
    before.code.size < after.code.size := by
  have lists : before.listed? operation = some ⟨before.code.cursor, instruction⟩ := by
    simp [listed?, emitted]
  have size := performs.size
  rw [lists, Option.elim_some] at size
  rw [size]
  exact (of_listed? lists).2

/-- Going on at a label of its own is starting a block at a label that has just been placed. -/
theorem exists_of_goesOn (assembler : Assembler) {flags : Flags}
    (calls : flags.callsSubroutine = false) (ends : flags.endsSubroutine = false) :
    ∃ settled, assembler.Stays settled ∧ assembler.Quiet settled ∧
      assembler.graph.offset? assembler.graph.nextLabel = none ∧
      settled.graph.offset? assembler.graph.nextLabel = some settled.code.size ∧
      assembler.goesOn flags = settled.startBlock assembler.graph.nextLabel := by
  let label := assembler.graph.nextLabel
  let created := { assembler with graph := assembler.graph.create flags }
  have known : created.graph.node? label = some { label, flags } := by
    simp [created, label, FlowGraph.node?_create]
  refine ⟨created.settle label { label, flags } assembler.code false,
    (Stays.create assembler calls ends).trans (.settle created known rfl rfl false),
    ⟨(assembler.graph.quiet_create flags).trans
      (quiet_settle created known rfl assembler.code false), rfl⟩,
    ?_, offset?_settle created known assembler.code false, rfl⟩
  simp [FlowGraph.offset?]

/-- The open block falls into a block at a label of its own. -/
theorem Moves.goesOn {operation : Operation} {middle : Assembler} {flags : Flags}
    (same : before.Stays middle) (calls : flags.callsSubroutine = false)
    (ends : flags.endsSubroutine = false) : before.Moves operation (middle.goesOn flags) := by
  obtain ⟨settled, stays, _, fresh, placed, started⟩ := middle.exists_of_goesOn calls ends
  refine .starts (same.trans stays) ?_ placed started.symm
  refine Option.eq_none_iff_forall_not_mem.mpr fun offset found => ?_
  have kept := same.offsets _ offset found
  simp [fresh] at kept

/-- The open block is left, if there is one. -/
theorem Moves.closes {operation : Operation} {middle : Assembler} (same : before.Stays middle)
    (leaves : operation.leaves = true) (longer : before.code.size < middle.closeBlock.code.size) :
    before.Moves operation middle.closeBlock := by
  cases opened : middle.openBlock with
  | none =>
    rw [closeBlock_of_none opened]
    exact .stays same
  | some block => exact .ends same opened leaves longer (.inl rfl)

/-- A jump does one of the four things to the blocks. -/
theorem Moves.jumps {opcode : Opcode} {target : Label} {form : JumpForm} {middle : Assembler}
    (same : before.Stays middle) (kept : middle.openBlock = before.openBlock)
    (marked : middle.graph.IsTarget target)
    (longer : before.code.size < (middle.jumps opcode form target).code.size) :
    before.Moves (.jump opcode target) (middle.jumps opcode form target) := by
  have written := same.trans (.emits middle target form)
  have openBlock : (middle.emits target form).openBlock = before.openBlock := by
    rw [← kept]
    cases form <;> rfl
  have linked : before.Stays (((middle.emits target form).adjust opcode.base.jumpDelta).addEdge
      target) := by
    refine (written.trans (.adjust _ _)).trans (.addEdge ?_)
    exact (Stays.emits middle target form).targets target marked
  unfold Assembler.jumps at longer ⊢
  simp only at longer ⊢
  cases opened : (middle.emits target form).openBlock with
  | none => exact .stays written
  | some block =>
    simp only [opened] at longer ⊢
    split
    · rename_i isCall
      exact .calls written (openBlock ▸ opened) opened rfl isCall
        ((Stays.emits middle target form).targets target marked) rfl
    · rename_i noCall
      rw [if_neg noCall] at longer
      unfold branches at longer ⊢
      simp only at longer ⊢
      split
      · rename_i leaves
        rw [if_pos leaves] at longer
        exact .closes linked (by simp [Operation.leaves, leaves]) longer
      · exact .goesOn linked rfl rfl

/-- A label that is placed starts a block, unless only debug information refers to it. -/
theorem Moves.placed {label : Label} {node : Node} {code : Buffer} {operation : Operation}
    (known : before.graph.node? label = some node) (unplaced : node.isPlaced = false)
    (size : code.size = before.code.size) (rewritten : Bool) :
    before.Moves operation (before.placed label node code rewritten) := by
  have settled := Stays.settle before known unplaced size rewritten
  have offset : (before.settle label node code rewritten).graph.offset? label
      = some (before.settle label node code rewritten).code.size :=
    (offset?_settle before known code rewritten).trans (congrArg some size.symm)
  unfold Assembler.placed
  simp only
  split
  · exact .stays settled
  · refine .starts settled ?_ offset rfl
    simpa [FlowGraph.offset?, known, Node.isPlaced] using unplaced

/-- An instruction leaves the open block if control does not go on with the next one. -/
theorem Moves.writesPlain {opcode : Opcode} {rest : List UInt8} {delta : Int32}
    (longer : before.code.size < (before.writesPlain opcode rest delta).code.size) :
    before.Moves (.instruction (opcode :: rest) delta) (before.writesPlain opcode rest delta) := by
  have written : before.Stays ((before.append (opcode :: rest)).adjust delta) :=
    (Stays.append before _).trans (.adjust _ _)
  unfold Assembler.writesPlain at longer ⊢
  simp only at longer ⊢
  split
  · rename_i terminal
    rw [if_pos terminal] at longer
    exact .closes written terminal longer
  · exact .stays written

/-- An instruction on a local variable leaves the open block if it returns from a subroutine. -/
theorem Moves.writesLocal {request : LocalInstruction}
    (longer : before.code.size < (before.writesLocal request).code.size) :
    before.Moves (.localInstruction request) (before.writesLocal request) := by
  have written : before.Stays (((before.append request.encode).adjust request.delta).needLocals
      request.localsNeeded) :=
    ((Stays.append before _).trans (.adjust _ _)).trans (.of_graph rfl rfl (Nat.le_refl _))
  cases request with
  | ret slot =>
    unfold Assembler.writesLocal at longer ⊢
    simp only at longer ⊢
    cases opened : ((((before.append (LocalInstruction.ret slot).encode).adjust
        (LocalInstruction.ret slot).delta).needLocals
          (LocalInstruction.ret slot).localsNeeded)).openBlock with
    | none =>
      unfold endSubroutine
      rw [opened]
      exact .stays written
    | some block => exact .ends written opened rfl longer (.inr rfl)
  | load kind slot => exact .stays written
  | store kind slot => exact .stays written
  | increment slot amount => exact .stays written

/-- What a successful operation does to the blocks. -/
theorem moves_of_performs {operation : Operation} (performs : before.Performs operation after) :
    before.Moves operation after := by
  have longer {instruction : Instruction} (emitted : operation.emitted? before = some instruction) :
      before.code.size < after.code.size := size_lt_of_performs performs emitted
  cases performs with
  | freshLabel => exact .stays (.create before rfl rfl)
  | freshDebugLabel => exact .stays (.create before rfl rfl)
  | place known unplaced size => exact .placed known unplaced size _
  | nothing => exact .stays (.refl before)
  | instruction allowed => exact .writesPlain (longer (emitted?_instruction allowed))
  | localInstruction => exact .writesLocal (longer rfl)
  | @jump opcode target node form isJump known allowed chosen holds =>
    exact .jumps (.marked before target) rfl (isTarget_marked (by simp [known]))
      (longer (emitted?_jump isJump known allowed chosen))
  | @tableSwitch low high fallback targets accepts =>
    refine .closes ((Stays.emitsTable before low high fallback targets).trans
      ((Stays.adjust _ _).trans (.leadsTo fun target member => ?_))) rfl (longer rfl)
    exact Accepts.isSome
      ((accepts_congr (refuses?_emitsTable _ _ _ _ _)).mpr (accepts target member))
  | @lookupSwitch fallback cases accepts =>
    refine .closes ((Stays.emitsLookup before fallback _).trans
      ((Stays.adjust _ _).trans (.leadsTo fun target member => ?_))) rfl (longer rfl)
    exact Accepts.isSome ((accepts_congr (refuses?_emitsLookup _ _ _)).mpr (accepts target member))
  | @addLine label line =>
    have attached : before.Stays (before.update label (·.addLine line)) :=
      .update before label (fun _ => rfl) (fun _ _ _ placed => placed) (fun _ => ⟨rfl, rfl⟩)
        (fun _ marked => marked) fun _ entry => entry
    exact .stays (attached.trans (.of_graph rfl rfl (Nat.le_refl _)))
  | @addHandler handler =>
    have noted : before.Stays (before.bounds handler) :=
      (Stays.bounded before handler.start).trans (.bounded _ handler.stop)
    exact .stays
      ((noted.trans (.marked _ handler.handler)).trans (.of_graph rfl rfl (Nat.le_refl _)))
  | declare => exact .stays (.of_graph rfl rfl (Nat.le_refl _))

/-- Whatever an operation does, and whether it fails or not, it does one of the four things to the
blocks. -/
theorem moves_after (assembler : Assembler) (operation : Operation) :
    assembler.Moves operation (assembler.after operation) := by
  rcases performs_or_lingers assembler operation with performs | lingers
  · exact moves_of_performs performs
  · exact .stays (.of_lingers lingers)

end Assembler

end MethodBody
