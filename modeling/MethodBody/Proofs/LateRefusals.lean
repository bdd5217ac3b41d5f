import MethodBody.Proofs.Atomicity
import MethodBody.Proofs.BlockOrder

/-!
# Requests that are refused too late

A jump is checked before anything is written, but a switch is written first, and its labels are
taken as targets one by one. So a switch is all or nothing only if it succeeds: one that is refused
leaves all its bytes and references behind, and the open block leads to the labels in front of the
one that refuses jumps. A protected range that is refused for its handler leaves its bounds marked
(`refusals_leave_traces`).
-/

namespace MethodBody

/-- An action that always changes something changes nothing when it fails only if it never fails. -/
theorem Action.isAtomic_iff_of_changes {σ : Type} {action : Action σ Unit} {state : σ}
    (changes : (action.run state).state ≠ state) :
    action.IsAtomic state ↔ (action.run state).answer = .ok () := by
  constructor
  · intro atomic
    cases answered : (action.run state).answer with
    | ok => rfl
    | error cause => exact absurd (atomic cause answered) changes
  · exact Action.isAtomic_of_ok

namespace FlowGraph

/-- The label refuses jumps: it is there for debugging only, and it has its place. -/
def refuses (graph : FlowGraph) (label : Label) : Bool :=
  (graph.refuses? label).getD false

/-- The label is there for debugging only, and it has no place yet. -/
def isLatent (graph : FlowGraph) (label : Label) : Bool :=
  (graph.node? label).any fun node => node.flags.debugOnly && !node.isPlaced

variable {graph before after : FlowGraph} {label changed : Label} {node : Node}

/-- What is known about a label says whether it refuses jumps. -/
theorem refuses_of_known (known : graph.node? label = some node) :
    graph.refuses label = node.refusesJumps := by
  simp [refuses, refuses?, known]

/-- The same labels refuse jumps as before. -/
theorem refuses_congr (same : after.refuses? = before.refuses?) :
    after.refuses = before.refuses := by
  funext label
  rw [refuses, refuses, same]

/-- The same labels are known. -/
theorem isSome_node?_congr (same : after.refuses? = before.refuses?) (label : Label) :
    (after.node? label).isSome = (before.node? label).isSome := by
  have alike : (after.refuses? label).isSome = (before.refuses? label).isSome := by rw [same]
  simpa [refuses?] using alike

/-- A label that accepts jumps goes on to do so when it is marked as a target. -/
theorem refuses_marked (accepts : graph.refuses changed = false) :
    (graph.update changed Node.marked).refuses = graph.refuses := by
  funext label
  by_cases same : changed = label
  · subst same
    cases known : graph.node? changed with
    | none => simp [refuses, refuses?, node?_update, known]
    | some node =>
      have marked : (graph.update changed Node.marked).node? changed = some node.marked := by
        simp [node?_update, known]
      rw [refuses_of_known marked, accepts]
      rfl
  · simp [refuses, refuses?, node?_update, same]

/-- A change that keeps what is known about its label changes nothing. -/
theorem update_of_fixed {change : Node → Node}
    (fixed : ∀ node, graph.node? label = some node → change node = node) :
    graph.update label change = graph := by
  refine eq_of_node? rfl fun other => ?_
  rw [node?_update]
  split
  · rename_i here
    rw [← here]
    cases known : graph.node? label with
    | none => rfl
    | some node => exact congrArg some (fixed node known)
  · rfl

/-- A label that refuses jumps goes on to do so when it becomes a bound, and no other label begins
to. -/
theorem refuses?_bounded (graph : FlowGraph) (changed : Label) :
    (graph.update changed Node.bounded).refuses? = graph.refuses? := by
  refine refuses?_update (fun node => ?_) graph changed
  unfold Node.bounded
  split
  · rfl
  · rename_i unplaced
    show (false && node.isPlaced) = (node.flags.debugOnly && node.isPlaced)
    rw [Bool.eq_false_iff.mpr unplaced, Bool.and_false, Bool.and_false]

/-- A label that becomes a bound is not there for debugging only any more, unless it has its
place. -/
theorem isLatent_bounded (graph : FlowGraph) (changed label : Label) :
    (graph.update changed Node.bounded).isLatent label
      = (graph.isLatent label && !decide (changed = label)) := by
  by_cases same : changed = label
  · subst same
    have never (node : Node) :
        (node.bounded.flags.debugOnly && !node.bounded.isPlaced) = false := by
      unfold Node.bounded
      split
      · rename_i placed
        rw [placed, Bool.not_true, Bool.and_false]
      · exact Bool.false_and _
    rw [decide_eq_true rfl, Bool.not_true, Bool.and_false]
    simp only [isLatent, node?_update, if_true]
    cases graph.node? changed with
    | none => rfl
    | some node => exact never node
  · simp [isLatent, node?_update, same]

/-- A label that has its place, or that is not there for debugging only, stays as it is when it
becomes a bound. -/
theorem update_bounded (plain : graph.isLatent label = false) :
    graph.update label Node.bounded = graph := by
  refine update_of_fixed fun node known => ?_
  unfold Node.bounded
  split
  · rfl
  · rename_i unplaced
    have ordinary : node.flags.debugOnly = false := by
      simpa [isLatent, known, unplaced] using plain
    rw [← ordinary]

end FlowGraph

namespace Assembler

variable {assembler written : Assembler}

/-- An edge lets labels accept jumps as they did. -/
theorem refuses_addEdge (assembler : Assembler) (successor : Label) :
    (assembler.addEdge successor).graph.refuses = assembler.graph.refuses := by
  apply FlowGraph.refuses_congr
  unfold addEdge
  split
  · rfl
  · refine FlowGraph.refuses?_update (fun node => ?_) assembler.graph _
    rfl

/-- Control is led to the labels in front of the first one that refuses jumps. -/
theorem run_marks (labels : List Label)
    (known : ∀ label ∈ labels, (assembler.graph.node? label).isSome) :
    (Action.forEach labels fun target => do
        markTarget target
        modify (·.addEdge target)).run assembler =
      match labels.find? assembler.graph.refuses with
      | none => ⟨.ok (), assembler.leadsTo labels, []⟩
      | some bad => ⟨.error (.debugOnlyTarget bad),
          assembler.leadsTo (labels.takeWhile fun label =>
            !assembler.graph.refuses label), []⟩ := by
  induction labels generalizing assembler with
  | nil => rfl
  | cons label rest ih =>
    obtain ⟨node, found⟩ := Option.isSome_iff_exists.mp (known label List.mem_cons_self)
    rw [Action.forEach_cons, Action.run_bind, Action.run_bind, run_markTarget found]
    have said := FlowGraph.refuses_of_known found
    cases refused : node.refusesJumps with
    | true =>
      rw [refused] at said
      simp [said, leadsTo, Outcome.andThen]
    | false =>
      rw [refused] at said
      -- A label that is marked accepted jumps already, so the others are judged as before.
      let linked := (assembler.update label Node.marked).addEdge label
      have same : linked.graph.refuses = assembler.graph.refuses :=
        (refuses_addEdge _ label).trans (FlowGraph.refuses_marked said)
      have stillKnown (other : Label) (member : other ∈ rest) :
          (linked.graph.node? other).isSome := by
        rw [isSome_node?_addEdge, update, FlowGraph.isSome_node?_update]
        exact known other (List.mem_cons_of_mem _ member)
      have others := ih stillKnown
      rw [same] at others
      simp only [Bool.false_eq_true, if_false, Outcome.andThen_ok, Action.run_modify,
        Outcome.after_nil, List.find?_cons, List.takeWhile_cons, said, Bool.not_false, if_true]
      exact others

/-- What comes of a switch that is written and leads to the labels. If one of them refuses jumps,
the open block is not closed, and it leads to those in front of it. -/
def switchOutcome (assembler written : Assembler) (labels : List Label) : Outcome Assembler Unit :=
  match labels.find? assembler.graph.refuses with
  | none => ⟨.ok (), written.switches labels, []⟩
  | some bad => ⟨.error (.debugOnlyTarget bad), (written.adjust (-1)).leadsTo
      (labels.takeWhile fun label => !assembler.graph.refuses label), []⟩

/-- A switch that is written takes its labels as targets, up to one that refuses jumps. -/
theorem run_endSwitch (same : written.graph.refuses? = assembler.graph.refuses?)
    {labels : List Label} (known : ∀ label ∈ labels, (assembler.graph.node? label).isSome) :
    (endSwitch labels).run written = assembler.switchOutcome written labels := by
  have marks : (Action.forEach labels fun target => do
      markTarget target
      modify (·.addEdge target)).run (written.adjust (-1)) = _ :=
    run_marks labels fun label member => by
      show (written.graph.node? label).isSome
      rw [FlowGraph.isSome_node?_congr same]
      exact known label member
  have refuses : (written.adjust (-1)).graph.refuses = assembler.graph.refuses :=
    FlowGraph.refuses_congr same
  rw [refuses] at marks
  rw [endSwitch, Action.run_bind, Action.run_modify, Outcome.andThen_ok, Action.run_bind, marks]
  unfold switchOutcome
  cases labels.find? assembler.graph.refuses <;> rfl

/-- The opcode of a switch is written, whatever comes of it. -/
theorem size_lt_beginSwitch (opcode : Opcode) (fallback : Label) (assembler : Assembler) :
    assembler.code.size < ((beginSwitch opcode fallback).run assembler).state.code.size := by
  have padded :
      Grows (modify fun assembler => { assembler with code := assembler.code.align 4 }) := by
    intro assembler
    simp [NoLonger, Buffer.align]
  have rest (source : Nat) : Grows (do
      modify fun assembler => { assembler with code := assembler.code.align 4 }
      refer fallback source .wide
      pure source) :=
    .bind padded fun _ => .bind (grows_refer fallback source .wide) fun _ => NoLonger.refl
  have written : (assembler.append [opcode]).code.size = assembler.code.size + 1 := by
    simp [append]
  have grown := (rest assembler.code.cursor (assembler.append [opcode])).1
  rw [beginSwitch, Action.state_bind _ (show _ = Except.ok assembler.code.cursor from rfl),
    Action.state_bind _ (show _ = Except.ok () from rfl)]
  exact Nat.lt_of_lt_of_le (by omega) grown

/-- A switch leaves the bytes that it begins with, whatever comes of it. -/
theorem state_ne_of_beginSwitch (opcode : Opcode) (fallback : Label)
    {rest : Nat → Action Assembler Unit} (grows : ∀ source, Grows (rest source))
    (assembler : Assembler) :
    ((beginSwitch opcode fallback >>= rest).run assembler).state ≠ assembler := by
  have begun := size_lt_beginSwitch opcode fallback assembler
  intro same
  -- No later part of the switch takes the opcode away, wherever the switch fails.
  cases answered : ((beginSwitch opcode fallback).run assembler).answer with
  | error cause =>
    rw [Action.state_bind_of_error _ answered] at same
    rw [same] at begun
    omega
  | ok source =>
    rw [Action.state_bind _ answered] at same
    have grown := (grows source ((beginSwitch opcode fallback).run assembler).state).1
    rw [same] at grown
    omega

/-- The switch is all or nothing only if it succeeds: it is written before its labels are taken as
targets, and it is refused for the first one that refuses jumps. -/
structure RefusesLate (assembler written : Assembler) (switch : Action Assembler Unit)
    (labels : List Label) : Prop where
  /-- A switch that fails leaves something behind. -/
  atomic : switch.IsAtomic assembler ↔ (switch.run assembler).answer = .ok ()
  /-- What it leaves behind is the switch, and control led to some of its labels. -/
  outcome : assembler.code.size < 0x80000000 →
    (∀ label ∈ labels, (assembler.graph.node? label).isSome) →
      switch.run assembler = assembler.switchOutcome written labels
  /-- So a switch is all or nothing if none of its labels refuses jumps. -/
  accepts : assembler.code.size < 0x80000000 →
    (∀ label ∈ labels, (assembler.graph.node? label).isSome) →
      (switch.IsAtomic assembler ↔ ∀ label ∈ labels, assembler.graph.refuses label = false)

/-- A switch is written before it is refused. -/
theorem refusesLate_of_outcome {switch : Action Assembler Unit} {labels : List Label}
    (changes : (switch.run assembler).state ≠ assembler)
    (outcome : assembler.code.size < 0x80000000 →
      (∀ label ∈ labels, (assembler.graph.node? label).isSome) →
        switch.run assembler = assembler.switchOutcome written labels) :
    assembler.RefusesLate written switch labels where
  atomic := Action.isAtomic_iff_of_changes changes
  outcome := outcome
  accepts short known := by
    rw [Action.isAtomic_iff_of_changes changes, outcome short known]
    unfold switchOutcome
    cases found : labels.find? assembler.graph.refuses with
    | none => simpa using found
    | some bad =>
      have refused := List.find?_some found
      have member := List.mem_of_find?_eq_some found
      constructor
      · intro succeeds
        simp at succeeds
      · intro accepts
        rw [accepts bad member] at refused
        simp at refused

/-- A switch over consecutive keys is written before it is refused. -/
theorem refusesLate_tableSwitch
    (behind : ∀ label offset, assembler.graph.offset? label = some offset →
      offset ≤ assembler.code.size) (low high : Int32) (fallback : Label) (targets : List Label) :
    assembler.RefusesLate (assembler.emitsTable low high fallback targets)
      (tableSwitch low high fallback targets) (fallback :: targets) := by
  refine refusesLate_of_outcome (state_ne_of_beginSwitch _ _ (fun source => ?_) _)
    fun short known => ?_
  · exact .bind (grows_append _) fun _ => .bind (grows_append _) fun _ =>
      .bind (.forEach targets fun target _ => grows_refer target source .wide) fun _ =>
        grows_endSwitch _
  · rw [run_tableSwitch low high (near_of_behind behind short) known]
    exact run_endSwitch (refuses?_emitsTable assembler low high fallback targets) known

/-- A switch over any keys is written before it is refused. -/
theorem refusesLate_lookupSwitch
    (behind : ∀ label offset, assembler.graph.offset? label = some offset →
      offset ≤ assembler.code.size) (fallback : Label) (cases : List Case) :
    assembler.RefusesLate (assembler.emitsLookup fallback (sortCases cases))
      (lookupSwitch fallback cases) (fallback :: (sortCases cases).map Case.target) := by
  refine refusesLate_of_outcome (state_ne_of_beginSwitch _ _ (fun source => ?_) _)
    fun short known => ?_
  · exact .bind (grows_append _) fun _ => .bind (.forEach _ fun one _ =>
      .bind (grows_append _) fun _ => grows_refer one.target source .wide) fun _ =>
        grows_endSwitch _
  · rw [run_lookupSwitch (near_of_behind behind short) (known fallback List.mem_cons_self)
      fun one member => known _ (List.mem_cons_of_mem _ (List.mem_map_of_mem member))]
    exact run_endSwitch (refuses?_emitsLookup assembler fallback (sortCases cases)) known

/-- The bounds of a range are marked before its handler is refused. -/
theorem run_addHandler {handler : Handler}
    (known : ∀ label ∈ [handler.start, handler.stop, handler.handler],
      (assembler.graph.node? label).isSome) :
    (addHandler handler).run assembler =
      if assembler.graph.refuses handler.handler then
        ⟨.error (.debugOnlyTarget handler.handler), assembler.bounds handler, []⟩
      else ⟨.ok (), assembler.protects handler, []⟩ := by
  simp only [List.forall_mem_cons] at known
  obtain ⟨knownStart, knownStop, knownHandler, -⟩ := known
  have same : (assembler.bounds handler).graph.refuses? = assembler.graph.refuses? :=
    (FlowGraph.refuses?_bounded _ _).trans (FlowGraph.refuses?_bounded _ _)
  rw [← FlowGraph.isSome_node?_congr same] at knownHandler
  obtain ⟨node, found⟩ := Option.isSome_iff_exists.mp knownHandler
  have marked : (markTarget handler.handler).run (assembler.bounds handler) =
      if node.refusesJumps then
        ⟨.error (.debugOnlyTarget handler.handler), assembler.bounds handler, []⟩
      else ⟨.ok (), (assembler.bounds handler).update handler.handler Node.marked, []⟩ :=
    run_markTarget found
  have stop : (markBound handler.stop).run (assembler.update handler.start Node.bounded)
      = ⟨.ok (), assembler.bounds handler, []⟩ := by
    refine run_markBound ?_
    rw [update, FlowGraph.isSome_node?_update]
    exact knownStop
  rw [← FlowGraph.refuses_congr same, FlowGraph.refuses_of_known found]
  simp only [addHandler, Action.run_bind, run_markBound knownStart,
    Outcome.andThen_ok, stop, marked]
  split <;> rfl

/-- Marking the bounds of a range changes nothing if neither is there for debugging only, without a
place. -/
theorem bounds_eq_iff {handler : Handler} : assembler.bounds handler = assembler ↔
    assembler.graph.isLatent handler.start = false ∧
      assembler.graph.isLatent handler.stop = false := by
  have latent (label : Label) : (assembler.bounds handler).graph.isLatent label
      = (assembler.graph.isLatent label && !decide (handler.start = label)
        && !decide (handler.stop = label)) := by
    rw [bounds, update, update, FlowGraph.isLatent_bounded, FlowGraph.isLatent_bounded]
  constructor
  · intro same
    rw [same] at latent
    constructor
    · rw [latent, decide_eq_true rfl, Bool.not_true, Bool.and_false, Bool.false_and]
    · rw [latent, decide_eq_true rfl, Bool.not_true, Bool.and_false]
  · rintro ⟨start, stop⟩
    rw [bounds, update, update, FlowGraph.update_bounded start, FlowGraph.update_bounded stop]

/-- Adding a protected range is all or nothing unless its handler refuses jumps and one of its
bounds is there for debugging only, without a place. -/
theorem isAtomic_addHandler_iff {handler : Handler}
    (known : ∀ label ∈ [handler.start, handler.stop, handler.handler],
      (assembler.graph.node? label).isSome) :
    (addHandler handler).IsAtomic assembler ↔ assembler.graph.refuses handler.handler = false ∨
      assembler.graph.isLatent handler.start = false ∧
        assembler.graph.isLatent handler.stop = false := by
  rw [← bounds_eq_iff]
  unfold Action.IsAtomic
  rw [run_addHandler known]
  cases assembler.graph.refuses handler.handler <;> simp

/-- Wherever a run comes to, a switch is all or nothing only if it succeeds, and adding a protected
range is unless its handler refuses jumps and its bounds would be marked. A switch that is refused
leaves its bytes and references behind, the stack height without its key, and the marks of the
labels in front of the one that refuses jumps and the edges to them. A range that is refused leaves
its bounds marked. -/
theorem refusals_leave_traces (settings : Settings) (slots : UInt16) (operations : List Operation) :
    let assembler := (start settings slots).afterAll operations
    (∀ low high fallback targets,
      assembler.RefusesLate (assembler.emitsTable low high fallback targets)
        (tableSwitch low high fallback targets) (fallback :: targets)) ∧
      (∀ fallback cases,
        assembler.RefusesLate (assembler.emitsLookup fallback (sortCases cases))
          (lookupSwitch fallback cases) (fallback :: (sortCases cases).map Case.target)) ∧
      ∀ handler : Handler, (∀ label ∈ [handler.start, handler.stop, handler.handler],
          (assembler.graph.node? label).isSome) →
        ((addHandler handler).run assembler =
          if assembler.graph.refuses handler.handler then
            ⟨.error (.debugOnlyTarget handler.handler), assembler.bounds handler, []⟩
          else ⟨.ok (), assembler.protects handler, []⟩) ∧
        ((addHandler handler).IsAtomic assembler ↔
          assembler.graph.refuses handler.handler = false ∨
            assembler.graph.isLatent handler.start = false ∧
              assembler.graph.isLatent handler.stop = false) := by
  intro assembler
  have behind := (Ascends.afterAll settings slots operations).behind
  exact ⟨refusesLate_tableSwitch behind, refusesLate_lookupSwitch behind,
    fun handler known => ⟨run_addHandler known, isAtomic_addHandler_iff known⟩⟩

/-- One label that only debug information refers to has its place and another one has none yet. -/
def debuggedTarget : List Operation :=
  [.freshDebugLabel, .place ⟨1⟩, .freshDebugLabel, .freshLabel, .instruction [0x03] 1]

/-- The label that has its place is refused as the second target of a switch and as a handler. The
switch is written all the same, with the edges to its other labels, and the bounds of the range are
no longer there for debugging only. A range of ordinary labels is refused without a trace. -/
theorem refusals_leave_traces_debuggedTarget :
    let assembler := (start {} 0).afterAll debuggedTarget
    let refused := assembler.switchOutcome
      (assembler.emitsTable 0 1 ⟨3⟩ [⟨3⟩, ⟨1⟩]) [⟨3⟩, ⟨3⟩, ⟨1⟩]
    (tableSwitch 0 1 ⟨3⟩ [⟨3⟩, ⟨1⟩]).run assembler = refused ∧
      refused.answer = .error (.debugOnlyTarget ⟨1⟩) ∧ refused.state.code.size = 24 ∧
      refused.state.graph.edgesOf .start = [⟨.jump 0, ⟨3⟩⟩, ⟨.jump 0, ⟨3⟩⟩] ∧
      ¬ (lookupSwitch ⟨1⟩ []).IsAtomic assembler ∧
      ¬ (addHandler ⟨⟨2⟩, ⟨2⟩, ⟨1⟩, 0⟩).IsAtomic assembler ∧
      (addHandler ⟨.start, ⟨3⟩, ⟨1⟩, 0⟩).IsAtomic assembler := by
  intro assembler refused
  obtain ⟨table, lookup, protect⟩ := refusals_leave_traces {} 0 debuggedTarget
  have short : assembler.code.size < 0x80000000 := by decide
  refine ⟨(table 0 1 ⟨3⟩ [⟨3⟩, ⟨1⟩]).outcome short (by decide),
    by decide +kernel, by decide +kernel, by decide +kernel, ?_, ?_, ?_⟩
  · intro atomic
    have accepts := ((lookup ⟨1⟩ []).accepts short (by decide +kernel)).mp atomic ⟨1⟩ (by simp)
    have refuses : assembler.graph.refuses ⟨1⟩ = true := by decide
    exact Bool.noConfusion (refuses.symm.trans accepts)
  · rw [(protect ⟨⟨2⟩, ⟨2⟩, ⟨1⟩, 0⟩ (by decide)).2]
    decide
  · rw [(protect ⟨.start, ⟨3⟩, ⟨1⟩, 0⟩ (by decide)).2]
    decide

/-- Where the target of a jump is refused without a trace, neither switch and no protected range
is. -/
theorem not_isAtomic_debuggedTarget :
    let assembler := (start {} 0).afterAll debuggedTarget
    ¬ (tableSwitch 0 1 ⟨3⟩ [⟨3⟩, ⟨1⟩]).IsAtomic assembler ∧
      ¬ (lookupSwitch ⟨3⟩ [⟨5, ⟨1⟩⟩]).IsAtomic assembler ∧
      ¬ (addHandler ⟨⟨2⟩, ⟨2⟩, ⟨1⟩, 0⟩).IsAtomic assembler := by
  intro assembler
  have fails {action : Action Assembler Unit}
      (refused : (action.run assembler).answer = .error (.debugOnlyTarget ⟨1⟩))
      (changes : (action.run assembler).state ≠ assembler) : ¬ action.IsAtomic assembler :=
    fun atomic => changes (atomic _ refused)
  exact ⟨fails (by decide +kernel) (by decide +kernel),
    fails (by decide +kernel) (by decide +kernel), fails (by decide +kernel) (by decide +kernel)⟩

end Assembler

end MethodBody
