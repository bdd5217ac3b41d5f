import MethodBody.Proofs.FlowDependence

/-!
# Heights that are kept in the graph

The maximum can be computed with no height beside a pending block: the height of a block is recorded
in the graph when the block is entered, and read back from there when the block is visited
(`Survey`). What is read back was recorded in the same survey, since a block is entered before it is
visited and no block is entered twice (`Mirrors.inputHeight_eq`). So a survey ends exactly as the
computation does that carries the heights along (`ends_start_iff`), and whatever the graph held
before besides the control flow goes unnoticed, in a second survey too
(`exists_ends_of_sameControl`).
-/

namespace MethodBody

/-- How far a computation of the maximum has come that keeps the heights in the graph. -/
structure Survey where
  /-- The graph, with the heights recorded so far. -/
  graph : FlowGraph
  /-- The blocks entered and not visited yet, the next one first. -/
  pending : List Label
  /-- The blocks entered. -/
  entered : LabelSet
  /-- The largest height in a block visited so far. -/
  most : Int32

namespace Survey

open FlowGraph

/-- Enter a block and record its height. -/
def enter (survey : Survey) (arrival : Arrival) : Survey :=
  { survey with
    graph := survey.graph.reach arrival
    pending := arrival.block :: survey.pending
    entered := survey.entered.insert arrival.block }

/-- Enter those of the blocks in order that were not entered yet, up to the first refusal. -/
def enterAll (survey : Survey) : List Arrival → Survey × Option Error
  | [] => (survey, none)
  | arrival :: rest =>
    if arrival.block ∈ survey.entered then enterAll survey rest
    else
      match survey.graph.heightWalk.refusal arrival with
      | some cause => (survey, some cause)
      | none => enterAll (survey.enter arrival) rest

/-- Count a block that is visited, whose height is read back from what is known about it. -/
def count (survey : Survey) (rest : List Label) (node : Node) : Survey :=
  { survey with pending := rest, most := max survey.most (node.inputHeight + node.peakHeight) }

/-- A survey goes on unless a block was refused. -/
def proceed : Survey × Option Error → Outcome FlowGraph Nat ⊕ Survey
  | (survey, none) => .inr survey
  | (survey, some cause) => .inl ⟨.error cause, survey.graph, []⟩

/-- Visit the next block, if there is one, and enter the blocks that follow. A survey that goes no
further leaves an outcome behind. -/
def step (survey : Survey) : Outcome FlowGraph Nat ⊕ Survey :=
  match survey.pending with
  | [] => .inl ⟨.ok survey.most.toNatClampNeg, survey.graph, [.maxStack survey.most]⟩
  | block :: rest =>
    match survey.graph.node? block with
    | none => .inl ⟨.error (.unknownLabel block), survey.graph, []⟩
    | some node =>
      proceed ((survey.count rest node).enterAll (node.departures ⟨block, node.inputHeight⟩))

/-- The survey goes on until it leaves the outcome behind. -/
inductive Ends : Survey → Outcome FlowGraph Nat → Prop
  /-- The survey goes no further. -/
  | stops {survey : Survey} {outcome : Outcome FlowGraph Nat} (stops : survey.step = .inl outcome) :
    Ends survey outcome
  /-- The survey goes on. -/
  | onward {survey later : Survey} {outcome : Outcome FlowGraph Nat}
    (steps : survey.step = .inr later) (ends : Ends later outcome) : Ends survey outcome

/-- A survey starts with the first block, which nothing is on the stack at. -/
def start (graph : FlowGraph) (first : Label) : Survey :=
  enter { graph, pending := [], entered := .empty graph.nodes.size, most := 0 } ⟨first, 0⟩

variable {survey : Survey} {outcome other : Outcome FlowGraph Nat} {graph : FlowGraph}
  {frontier : Frontier Arrival} {arrival : Arrival} {first : Label}

/-- A survey leaves one outcome behind. -/
theorem Ends.unique (one : survey.Ends outcome) (two : survey.Ends other) : outcome = other := by
  induction one with
  | stops stops =>
    cases two with
    | stops stopsToo => exact Sum.inl.inj (stops.symm.trans stopsToo)
    | onward steps => cases stops.symm.trans steps
  | onward steps _ ih =>
    cases two with
    | stops stops => cases stops.symm.trans steps
    | onward stepsToo ends =>
      obtain rfl := Sum.inr.inj (steps.symm.trans stepsToo)
      exact ih ends

/-- The heights can be recorded in any order, if no block has two of them. -/
theorem foldl_reach_perm {one two : List Arrival} (same : one.Perm two)
    (distinct : (one.map Arrival.block).Nodup) (graph : FlowGraph) :
    one.foldl reach graph = two.foldl reach graph := by
  have distinctToo : (two.map Arrival.block).Nodup := (same.map Arrival.block).nodup_iff.mp distinct
  have blocks :=
    (SameControl.of_reach one graph).blocks.trans (SameControl.of_reach two graph).blocks.symm
  refine eq_of_node? blocks fun label => ?_
  by_cases recorded : ∃ arrival ∈ one, arrival.block = label
  · obtain ⟨arrival, member, rfl⟩ := recorded
    rw [node?_foldl_reach_of_mem distinct member,
      node?_foldl_reach_of_mem distinctToo (same.mem_iff.mp member)]
  · have others : ∀ arrival ∈ one, arrival.block ≠ label :=
      fun arrival member alike => recorded ⟨arrival, member, alike⟩
    rw [node?_foldl_reach_of_ne others,
      node?_foldl_reach_of_ne fun arrival member => others arrival (same.mem_iff.mpr member)]

/-- The survey has come as far as the walk that carries the heights along. -/
structure Mirrors (graph : FlowGraph) (frontier : Frontier Arrival) (survey : Survey) : Prop where
  /-- The heights of the blocks entered are recorded, and nothing else has changed. -/
  recorded : survey.graph = (frontier.pending ++ frontier.visited).foldl reach graph
  /-- The same blocks are pending. -/
  pending : survey.pending = frontier.pending.map Arrival.block
  /-- The same blocks are entered. -/
  entered : survey.entered = frontier.entered
  /-- The maximum is taken over the blocks visited. -/
  most : survey.most = (frontier.visited.map graph.peak).foldl max 0
  /-- The blocks entered are those that are pending and those that were visited. -/
  noted : ∀ label, label ∈ frontier.entered ↔
    ∃ arrival ∈ frontier.pending ++ frontier.visited, arrival.block = label
  /-- No block was entered twice. -/
  distinct : ((frontier.pending ++ frontier.visited).map Arrival.block).Nodup

namespace Mirrors

/-- Control flows through the graph of the survey as before. -/
theorem sameControl (mirrors : Mirrors graph frontier survey) : graph.SameControl survey.graph := by
  rw [mirrors.recorded]
  exact .of_reach _ graph

/-- A block is entered that was not entered before. -/
theorem enter (mirrors : Mirrors graph frontier survey) (fresh : arrival.block ∉ frontier.entered) :
    Mirrors graph (graph.heightWalk.enter frontier arrival) (survey.enter arrival) := by
  have distinct : ((arrival :: frontier.pending ++ frontier.visited).map Arrival.block).Nodup := by
    rw [List.cons_append, List.map_cons, List.nodup_cons]
    refine ⟨fun member => fresh ((mirrors.noted _).mpr ?_), mirrors.distinct⟩
    exact List.mem_map.mp member
  constructor
  case recorded =>
    have last : (arrival :: (frontier.pending ++ frontier.visited)).foldl reach graph
        = (frontier.pending ++ frontier.visited ++ [arrival]).foldl reach graph :=
      foldl_reach_perm (List.perm_append_singleton arrival _).symm distinct graph
    simp only [Survey.enter, Walk.enter, mirrors.recorded]
    exact (last.trans List.foldl_append).symm
  case pending => simp only [Survey.enter, Walk.enter, mirrors.pending, List.map_cons]
  case entered =>
    simp only [Survey.enter, Walk.enter, mirrors.entered]
    rfl
  case most => exact mirrors.most
  case noted =>
    intro label
    simp only [Walk.enter, LabelSet.mem_insert, mirrors.noted, List.cons_append, List.mem_cons,
      exists_eq_or_imp]
    exact or_congr_left eq_comm
  case distinct => exact distinct

/-- The same blocks are entered, up to the same refusal. -/
theorem enterAll (mirrors : Mirrors graph frontier survey) (items : List Arrival) :
    Mirrors graph (graph.heightWalk.enterAll frontier items).1 (survey.enterAll items).1 ∧
      (survey.enterAll items).2 = (graph.heightWalk.enterAll frontier items).2 := by
  induction items generalizing frontier survey with
  | nil => exact ⟨mirrors, rfl⟩
  | cons arrival rest ih =>
    have refusal : survey.graph.heightWalk.refusal arrival = graph.heightWalk.refusal arrival :=
      mirrors.sameControl.refusal_heightWalk_eq arrival
    unfold Survey.enterAll Walk.enterAll
    by_cases known : graph.heightWalk.label arrival ∈ frontier.entered
    · have knownToo : arrival.block ∈ survey.entered := mirrors.entered ▸ known
      rw [if_pos known, if_pos knownToo]
      exact ih mirrors
    · have unknown : arrival.block ∉ survey.entered := mirrors.entered ▸ known
      rw [if_neg known, if_neg unknown, refusal]
      cases graph.heightWalk.refusal arrival with
      | some cause => exact ⟨mirrors, rfl⟩
      | none => exact ih (mirrors.enter known)

/-- The height that is read back at a block that was entered is the one that the walk carries
along. -/
theorem inputHeight_eq (mirrors : Mirrors graph frontier survey)
    (member : arrival ∈ frontier.pending ++ frontier.visited) {node : Node}
    (known : survey.graph.node? arrival.block = some node) : node.inputHeight = arrival.height := by
  have isKnown : (graph.node? arrival.block).isSome := by
    rw [← mirrors.sameControl.isSome_node?, known]
    rfl
  have read := inputOf_foldl_reach mirrors.distinct member isKnown
  rw [← mirrors.recorded, inputOf, known] at read
  exact read

/-- The next block is visited, with the height that is read back. -/
theorem count {pending visited : List Arrival} {entered : LabelSet}
    (mirrors : Mirrors graph ⟨arrival :: pending, entered, visited⟩ survey) {node : Node}
    (known : survey.graph.node? arrival.block = some node) :
    Mirrors graph ⟨pending, entered, arrival :: visited⟩
      (survey.count (pending.map Arrival.block) node) := by
  have height := mirrors.inputHeight_eq List.mem_cons_self known
  have same : (arrival :: pending ++ visited).Perm (pending ++ arrival :: visited) :=
    List.perm_middle.symm
  constructor
  case recorded => exact mirrors.recorded.trans (foldl_reach_perm same mirrors.distinct graph)
  case pending => rfl
  case entered => exact mirrors.entered
  case most =>
    have peak : graph.peak arrival = node.inputHeight + node.peakHeight := by
      rw [← mirrors.sameControl.peak_eq, FlowGraph.peak, known, height]
    simp only [Survey.count, mirrors.most, List.map_cons, List.foldl_cons, peak]
    rw [max_comm 0, List.foldl_assoc, max_comm]
  case noted =>
    intro label
    simp only [mirrors.noted, same.mem_iff]
  case distinct => exact (same.map Arrival.block).nodup_iff.mp mirrors.distinct

/-- A step visits the next block and enters what follows it in the walk. -/
theorem exists_step {pending visited items : List Arrival} {entered : LabelSet}
    (mirrors : Mirrors graph ⟨arrival :: pending, entered, visited⟩ survey)
    (found : graph.heightWalk.next arrival = .ok items) :
    ∃ counted, Mirrors graph ⟨pending, entered, arrival :: visited⟩ counted ∧
      survey.step = proceed (counted.enterAll items) := by
  have leaves := (mirrors.sameControl.next_heightWalk_eq arrival).trans found
  obtain ⟨node, is, follows⟩ := bind_eq_ok.mp leaves
  have known : survey.graph.node? arrival.block = some node := known_of_node is
  obtain rfl : node.departures arrival = items := Except.ok.inj follows
  have height := mirrors.inputHeight_eq List.mem_cons_self known
  refine ⟨_, mirrors.count known, ?_⟩
  rw [step, mirrors.pending]
  simp only [List.map_cons, known, height]

end Mirrors

/-- What the computation that carries the heights along leaves behind after a walk. -/
def conclude (graph : FlowGraph) (sweep : Sweep Arrival) : Outcome FlowGraph Nat :=
  let recorded := sweep.entered.foldl reach graph
  let highest := (sweep.visited.map recorded.peak).foldl max 0
  sweep.failure.elim ⟨.ok highest.toNatClampNeg, recorded, [.maxStack highest]⟩
    fun cause => ⟨.error cause, recorded, []⟩

/-- Where a walk stops, the items entered are those that are pending and those that were visited. -/
theorem perm_entered_stop (frontier : Frontier Arrival) (failure : Option Error) :
    (frontier.pending ++ frontier.visited).Perm (frontier.stop failure).entered :=
  List.perm_append_comm.trans ((List.reverse_perm _).symm.append_right _)

/-- A walk that ends early leaves the heights behind that a survey has recorded. -/
theorem Mirrors.conclude_of_failure (mirrors : Mirrors graph frontier survey)
    {sweep : Sweep Arrival} {cause : Error} (failed : sweep.failure = some cause)
    (order : (frontier.pending ++ frontier.visited).Perm sweep.entered) :
    conclude graph sweep = ⟨.error cause, survey.graph, []⟩ := by
  rw [conclude, failed, mirrors.recorded, foldl_reach_perm order mirrors.distinct]
  rfl

/-- A walk that goes on to its end leaves the heights and the maximum behind that a survey has
found. -/
theorem Mirrors.conclude_of_complete {entered : LabelSet} {visited : List Arrival}
    (mirrors : Mirrors graph ⟨[], entered, visited⟩ survey) :
    conclude graph (Frontier.stop ⟨[], entered, visited⟩ none)
      = ⟨.ok survey.most.toNatClampNeg, survey.graph, [.maxStack survey.most]⟩ := by
  have order := perm_entered_stop ⟨[], entered, visited⟩ none
  have recorded : (visited.reverse ++ []).foldl reach graph = survey.graph :=
    (foldl_reach_perm order mirrors.distinct graph).symm.trans mirrors.recorded.symm
  have highest : (visited.reverse.map survey.graph.peak).foldl max 0 = survey.most := by
    rw [mirrors.sameControl.peak_eq, mirrors.most]
    exact ((List.reverse_perm visited).map graph.peak).foldl_eq 0
  simp only [conclude, Frontier.stop, Sweep.entered, recorded, highest, Option.elim_none]

/-- A survey that has come as far as a walk leaves the same behind in the end. -/
theorem ends_sweep (mirrors : Mirrors graph frontier survey) :
    survey.Ends (conclude graph (graph.heightWalk.sweep frontier)) := by
  fun_induction Walk.sweep graph.heightWalk frontier generalizing survey with
  | case1 entered visited =>
    rw [mirrors.conclude_of_complete]
    refine .stops ?_
    rw [step, mirrors.pending]
    rfl
  | case2 arrival pending entered visited cause failed =>
    obtain ⟨unknown, rfl⟩ := next_heightWalk_eq_error failed
    have unknownToo : survey.graph.node? arrival.block = none := by
      rw [← Option.not_isSome_iff_eq_none, mirrors.sameControl.isSome_node?, unknown]
      simp
    have order := List.perm_middle.symm.trans
      (perm_entered_stop ⟨pending, entered, arrival :: visited⟩
        (some (.unknownLabel arrival.block)))
    rw [mirrors.conclude_of_failure rfl order]
    refine .stops ?_
    rw [step, mirrors.pending]
    simp only [List.map_cons, unknownToo]
  | case3 arrival pending entered visited items found after cause =>
    rename_i refused
    obtain ⟨counted, mirrored, steps⟩ := mirrors.exists_step found
    obtain ⟨later, same⟩ := mirrored.enterAll items
    rw [later.conclude_of_failure rfl (perm_entered_stop _ _)]
    refine .stops (steps.trans ?_)
    rw [← Prod.eta (counted.enterAll items), same.trans refused]
    rfl
  | case4 arrival pending entered visited items found after unrefused =>
    rename_i ih
    obtain ⟨counted, mirrored, steps⟩ := mirrors.exists_step found
    obtain ⟨later, same⟩ := mirrored.enterAll items
    refine .onward (steps.trans ?_) (ih later)
    rw [← Prod.eta (counted.enterAll items), same.trans unrefused]
    rfl

/-- A survey starts where the walk does. -/
theorem mirrors_start (graph : FlowGraph) (first : Label) :
    Mirrors graph (graph.heightWalk.enter ⟨[], .empty graph.nodes.size, []⟩ ⟨first, 0⟩)
      (start graph first) := by
  have nothing : Mirrors graph ⟨[], .empty graph.nodes.size, []⟩
      { graph, pending := [], entered := .empty graph.nodes.size, most := 0 } :=
    ⟨rfl, rfl, rfl, rfl, fun label => by simp [LabelSet.not_mem_empty], by simp⟩
  exact nothing.enter (LabelSet.not_mem_empty _ _)

/-- Whatever heights a graph holds, a survey from its first block leaves exactly that behind which
the computation leaves behind that carries the heights along. -/
theorem ends_start_iff (begins : graph.firstBlock? = some first)
    (known : (graph.node? first).isSome) :
    (start graph first).Ends outcome ↔ computeMaxStack.run graph = outcome := by
  have same : computeMaxStack.run graph = conclude graph (graph.heightWalk.run ⟨first, 0⟩) := by
    rw [run_computeMaxStack begins known]
    generalize graph.heightWalk.run ⟨first, 0⟩ = sweep
    simp only [conclude]
    cases sweep.failure <;> rfl
  have ends : (start graph first).Ends (computeMaxStack.run graph) := by
    rw [same]
    exact ends_sweep (mirrors_start graph first)
  exact ⟨fun other => ends.unique other, fun is => is ▸ ends⟩

/-- Surveys of graphs that control flows through in the same way end with the same answer and the
same events, although each of them reads heights back from its own graph. If they succeed, they have
recorded the same heights at the labels that are visited, and one more survey ends with the same and
changes nothing. -/
theorem exists_ends_of_sameControl {one two : FlowGraph} (same : one.SameControl two)
    (begins : one.firstBlock? = some first) (known : (one.node? first).isSome)
    (ends : (start one first).Ends outcome) :
    ∃ other, (start two first).Ends other ∧ other.answer = outcome.answer ∧
      other.events = outcome.events ∧ ∀ most, outcome.answer = .ok most →
        (∀ label, one.IsVisited label →
          other.state.inputOf label = outcome.state.inputOf label) ∧
        (start outcome.state first).Ends outcome := by
  obtain rfl := (ends_start_iff begins known).mp ends
  have beginsToo := same.firstBlock?_eq.trans begins
  have knownToo : (two.node? first).isSome := (same.isSome_node? first).trans known
  obtain ⟨answer, events⟩ := same.run_computeMaxStack
  refine ⟨_, (ends_start_iff beginsToo knownToo).mpr rfl, answer, events, fun most succeeds => ?_⟩
  have yields := Action.yields_of_answer succeeds
  have yieldsToo := Action.yields_of_answer (answer.trans succeeds)
  obtain ⟨-, recorded⟩ := explores_of_yields begins yields
  have sameAfter : one.SameControl (computeMaxStack.run one).state := recorded ▸ .of_reach _ one
  have beginsAfter := sameAfter.firstBlock?_eq.trans begins
  have knownAfter := (sameAfter.isSome_node? first).trans known
  exact ⟨fun label visited => same.inputOf_eq yields yieldsToo visited,
    (ends_start_iff beginsAfter knownAfter).mpr (run_computeMaxStack_of_yields yields)⟩

end Survey

end MethodBody
