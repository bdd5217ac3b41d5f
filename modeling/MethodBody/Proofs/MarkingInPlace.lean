import MethodBody.Proofs.MarkedRegions
import Mathlib.Data.PFun

/-!
# Blocks that are assigned as they are met

A subroutine can be marked in one pass: the next of the pending blocks is assigned at once, unless
it belongs to a subroutine already, and its successors become pending, unless they are pending
already (`Spread`). Whether a block was met before is read off the graph alone, so a block can
become pending again after it was visited. It is passed over then, so the pass ends, and leaves
behind what marking leaves behind, which walks over the region first and assigns it afterwards
(`Spread.exhaust_start`). So it assigns exactly the region around the entry
(`Spread.exists_exhaust_start`).

The subroutines can be searched for calls one after the other as long as one is left (`Search`).
Each of those found takes its entry out of the blocks that belong to none, so the search ends, and
leaves behind what the loop leaves behind that is bounded by the number of labels
(`Search.exhaust_start`).
-/

namespace MethodBody

section Exhaust

variable {σ ρ : Type} {step : σ → ρ ⊕ σ} {state later : σ} {result : ρ}

/-- What a step leaves behind that is repeated as long as it leads to another state. -/
noncomputable def exhaust (step : σ → ρ ⊕ σ) : σ →. ρ :=
  PFun.fix fun state => Part.some (step state)

/-- A step that goes no further is not repeated. -/
theorem exhaust_of_stops (stops : step state = .inl result) :
    exhaust step state = Part.some result :=
  Part.eq_some_iff.mpr (PFun.fix_stop (Part.mem_some_iff.mpr stops.symm))

/-- A step that leads to another state is repeated from there. -/
theorem exhaust_of_onward (steps : step state = .inr later) :
    exhaust step state = exhaust step later :=
  PFun.fix_fwd_eq (Part.mem_some_iff.mpr steps.symm)

end Exhaust

/-- How far a pass has come that assigns blocks as it meets them. -/
structure Spread where
  /-- The graph, with the blocks assigned so far. -/
  graph : FlowGraph
  /-- The blocks to be visited, the next one first. -/
  pending : List Label
  /-- The number of blocks assigned. -/
  count : Nat

namespace Spread

open FlowGraph

/-- Take the next block off the pending ones and assign it. -/
def assign (spread : Spread) (rest : List Label) (block : Label) (subroutine : SubroutineId) :
    Spread where
  graph := spread.graph.update block fun node => { node with subroutine := some subroutine }
  pending := rest
  count := spread.count + 1

/-- The pending blocks with successors, which become pending in order unless they are already. -/
def enqueue (pending successors : List Label) : List Label :=
  successors.foldl (fun pending label => pending.insert label) pending

/-- Leave a block for its successors, if they are known. -/
def leave (spread : Spread) : Except Error (List Label) → Outcome FlowGraph Nat ⊕ Spread
  | .ok successors => .inr { spread with pending := enqueue spread.pending successors }
  | .error cause => .inl ⟨.error cause, spread.graph, []⟩

/-- Visit the next block, if there is one. A pass that goes no further leaves an outcome behind. -/
def step (entry : Label) (subroutine : SubroutineId) (spread : Spread) :
    Outcome FlowGraph Nat ⊕ Spread :=
  match spread.pending with
  | [] => .inl ⟨.ok spread.count, spread.graph, [.marked spread.count entry subroutine]⟩
  | block :: rest =>
    match spread.graph.node? block with
    | none => .inl ⟨.error (.unknownLabel block), spread.graph, []⟩
    | some node =>
      if node.subroutine.isNone then
        (spread.assign rest block subroutine).leave node.bodySuccessors
      else .inr { spread with pending := rest }

/-- A pass starts with the entry. -/
def start (graph : FlowGraph) (entry : Label) : Spread := ⟨graph, [entry], 0⟩

variable {graph : FlowGraph} {frontier : Frontier Label} {spread : Spread}
  {entry block label : Label} {subroutine : SubroutineId}
  {pending visited front rest items : List Label} {entered : LabelSet}

/-- Blocks that belong to a subroutine are passed over. -/
theorem exhaust_append (assigned : ∀ label ∈ front, ∃ node, spread.graph.node? label = some node ∧
      node.subroutine.isNone = false) :
    exhaust (step entry subroutine) { spread with pending := front ++ rest }
      = exhaust (step entry subroutine) { spread with pending := rest } := by
  induction front with
  | nil => rfl
  | cons block front ih =>
    obtain ⟨node, known, belongs⟩ := assigned block List.mem_cons_self
    rw [← ih fun label member => assigned label (List.mem_cons_of_mem _ member)]
    refine exhaust_of_onward ?_
    simp [step, known, belongs]

/-- If a label becomes pending, there is a new block to be visited unless it was visited or
pending. -/
theorem filter_insert (pending visited : List Label) (label : Label) :
    (pending.insert label).filter (· ∉ visited) =
      if label ∈ pending.filter (· ∉ visited) ∨ label ∈ visited then pending.filter (· ∉ visited)
      else label :: pending.filter (· ∉ visited) := by
  by_cases waits : label ∈ pending
  · have old : label ∈ pending.filter (· ∉ visited) ∨ label ∈ visited := by
      by_cases past : label ∈ visited
      · exact .inr past
      · exact .inl (List.mem_filter.mpr ⟨waits, by simpa using past⟩)
    rw [if_pos old, List.insert_of_mem waits]
  · rw [List.insert_of_not_mem waits]
    by_cases past : label ∈ visited
    · rw [if_pos (.inr past), List.filter_cons_of_neg (by simpa using past)]
    · rw [if_neg (by simp [past, waits]), List.filter_cons_of_pos (by simpa using past)]

/-- Of the successors that become pending, those that are new to be visited are the ones that the
walk over a region enters. -/
theorem filter_enqueue (graph : FlowGraph) (frontier : Frontier Label) (successors : List Label)
    (entered : ∀ label,
      label ∈ frontier.entered ↔ label ∈ frontier.pending ∨ label ∈ frontier.visited)
    (same : pending.filter (· ∉ frontier.visited) = frontier.pending) :
    (enqueue pending successors).filter (· ∉ frontier.visited)
      = (graph.regionWalk.enterAll frontier successors).1.pending := by
  induction successors generalizing pending frontier with
  | nil => exact same
  | cons label rest ih =>
    have added := filter_insert pending frontier.visited label
    rw [same] at added
    rw [Walk.enterAll]
    by_cases known : graph.regionWalk.label label ∈ frontier.entered
    · rw [if_pos ((entered label).mp known)] at added
      rw [if_pos known]
      exact ih frontier entered added
    · rw [if_neg (mt (entered label).mpr known)] at added
      rw [if_neg known]
      refine ih (graph.regionWalk.enter frontier label) (fun other => ?_) added
      simp only [Walk.enter, LabelSet.mem_insert, entered, List.mem_cons, or_assoc]
      rfl

/-- The pass has come as far as the walk over the region. -/
structure Mirrors (graph : FlowGraph) (entry : Label) (subroutine : SubroutineId)
    (frontier : Frontier Label) (spread : Spread) : Prop where
  /-- The walk has not ended. -/
  advances : graph.regionWalk.Advances entry frontier
  /-- The blocks that the walk chooses from those visited are assigned, and nothing else has
  changed. -/
  assigned : spread.graph = graph.updateAll (frontier.visited.reverse.filter graph.isUnassigned)
    fun node => { node with subroutine := some subroutine }
  /-- The same blocks are pending, besides blocks that were visited. -/
  pending : spread.pending.filter (· ∉ frontier.visited) = frontier.pending
  /-- The blocks assigned are counted. -/
  count : spread.count = (frontier.visited.reverse.filter graph.isUnassigned).length

namespace Mirrors

/-- No block is pending twice or was visited twice. -/
theorem distinct (mirrors : Mirrors graph entry subroutine frontier spread) :
    (frontier.pending ++ frontier.visited).Nodup := by
  have labels := mirrors.advances.distinct
  rwa [show graph.regionWalk.label = id from rfl, List.map_id] at labels

/-- The blocks entered are those that are pending and those that were visited. -/
theorem mem_entered_iff (mirrors : Mirrors graph entry subroutine frontier spread) :
    label ∈ frontier.entered ↔ label ∈ frontier.pending ∨ label ∈ frontier.visited := by
  rw [mirrors.advances.entered, ← List.mem_append]
  exact exists_eq_right

/-- What is known about a label has changed if it was visited and belonged to no subroutine. -/
theorem node?_eq (mirrors : Mirrors graph entry subroutine frontier spread) (label : Label) :
    spread.graph.node? label =
      if label ∈ frontier.visited ∧ graph.isUnassigned label = true then
        (graph.node? label).map fun node => { node with subroutine := some subroutine }
      else graph.node? label := by
  have visited : frontier.visited.reverse.Nodup :=
    (List.reverse_perm _).nodup_iff.mpr (List.nodup_append.mp mirrors.distinct).2.1
  rw [mirrors.assigned, node?_updateAll (visited.filter _)]
  simp only [List.mem_filter, List.mem_reverse]

/-- A block that was visited belongs to a subroutine. -/
theorem exists_of_visited (mirrors : Mirrors graph entry subroutine frontier spread)
    (visited : label ∈ frontier.visited) :
    ∃ node, spread.graph.node? label = some node ∧ node.subroutine.isNone = false := by
  obtain ⟨items, found, -⟩ := mirrors.advances.left label visited
  obtain ⟨node, is, -⟩ := bind_eq_ok.mp found
  have known : graph.node? label = some node := known_of_node is
  rw [mirrors.node?_eq, known]
  by_cases free : graph.isUnassigned label = true
  · rw [if_pos ⟨visited, free⟩]
    exact ⟨_, rfl, rfl⟩
  · rw [if_neg fun chosen => free chosen.2]
    exact ⟨node, rfl,
      Bool.eq_false_iff.mpr fun none => free (by simpa [isUnassigned, known] using none)⟩

/-- Before the next block of the walk, only blocks are pending that are passed over. -/
theorem exists_skip
    (mirrors : Mirrors graph entry subroutine ⟨block :: pending, entered, visited⟩ spread) :
    ∃ rest, exhaust (step entry subroutine) spread
        = exhaust (step entry subroutine) { spread with pending := block :: rest } ∧
      rest.filter (· ∉ visited) = pending ∧ spread.graph.node? block = graph.node? block := by
  obtain ⟨front, rest, split, past, new, others⟩ := List.filter_eq_cons_iff.mp mirrors.pending
  refine ⟨rest, ?_, others, ?_⟩
  · have skipped : exhaust (step entry subroutine) { spread with pending := front ++ block :: rest }
        = exhaust (step entry subroutine) { spread with pending := block :: rest } :=
      exhaust_append fun label member =>
        mirrors.exists_of_visited (by simpa using past label member)
    rw [← skipped, ← split]
  · rw [mirrors.node?_eq, if_neg fun chosen => by simp [chosen.1] at new]

/-- Nothing is left to be visited when nothing is left for the walk. -/
theorem exhaust_eq_of_nil
    (mirrors : Mirrors graph entry subroutine ⟨[], entered, visited⟩ spread) :
    exhaust (step entry subroutine) spread
      = Part.some ⟨.ok spread.count, spread.graph, [.marked spread.count entry subroutine]⟩ := by
  have skipped : exhaust (step entry subroutine) { spread with pending := spread.pending ++ [] }
      = exhaust (step entry subroutine) { spread with pending := [] } :=
    exhaust_append fun label member => mirrors.exists_of_visited
      (by simpa using List.filter_eq_nil_iff.mp mirrors.pending label member)
  rw [List.append_nil] at skipped
  exact skipped.trans (exhaust_of_stops rfl)

/-- The blocks that the walk chooses, if it visits the next block, are those assigned and the block
itself if it belongs to no subroutine. -/
theorem assigned_visit
    (mirrors : Mirrors graph entry subroutine ⟨block :: pending, entered, visited⟩ spread) :
    graph.updateAll ((block :: visited).reverse.filter graph.isUnassigned)
        (fun node => { node with subroutine := some subroutine }) =
      if graph.isUnassigned block then
        spread.graph.update block fun node => { node with subroutine := some subroutine }
      else spread.graph := by
  rw [mirrors.assigned, List.reverse_cons, List.filter_append, List.filter_singleton]
  cases graph.isUnassigned block with
  | false => exact congrArg (graph.updateAll · _) (List.append_nil _)
  | true => exact List.foldl_append

/-- If the walk visits the next block, one more block is chosen unless it belongs to a
subroutine. -/
theorem count_visit
    (mirrors : Mirrors graph entry subroutine ⟨block :: pending, entered, visited⟩ spread) :
    ((block :: visited).reverse.filter graph.isUnassigned).length =
      if graph.isUnassigned block then spread.count + 1 else spread.count := by
  rw [mirrors.count, List.reverse_cons, List.filter_append, List.filter_singleton]
  cases graph.isUnassigned block <;> simp

/-- A block that is visited next is no longer new, and the other pending blocks are. -/
theorem filter_rest
    (mirrors : Mirrors graph entry subroutine ⟨block :: pending, entered, visited⟩ spread)
    (others : rest.filter (· ∉ visited) = pending) :
    rest.filter (· ∉ block :: visited) = pending := by
  have twice : rest.filter (· ∉ block :: visited)
      = (rest.filter (· ∉ visited)).filter (· ≠ block) := by
    rw [List.filter_filter]
    refine List.filter_congr fun label _ => ?_
    simp [not_or]
  have fresh : block ∉ pending ++ visited := (List.nodup_cons.mp mirrors.distinct).1
  rw [twice, others]
  refine List.filter_eq_self.mpr fun label waits => decide_eq_true fun same => fresh ?_
  exact List.mem_append_left _ (same ▸ waits)

/-- The next block of the walk is visited, and what follows it in the walk becomes pending. -/
theorem visit
    (mirrors : Mirrors graph entry subroutine ⟨block :: pending, entered, visited⟩ spread)
    (found : graph.regionWalk.next block = .ok items)
    (unrefused : (graph.regionWalk.enterAll ⟨pending, entered, block :: visited⟩ items).2 = none) :
    ∃ later, exhaust (step entry subroutine) spread = exhaust (step entry subroutine) later ∧
      Mirrors graph entry subroutine
        (graph.regionWalk.enterAll ⟨pending, entered, block :: visited⟩ items).1 later := by
  obtain ⟨rest, skips, others, same⟩ := mirrors.exists_skip
  obtain ⟨node, is, follows⟩ := bind_eq_ok.mp found
  have known : graph.node? block = some node := known_of_node is
  have knownToo : spread.graph.node? block = some node := same.trans known
  have advances := mirrors.advances.visit found unrefused
  obtain ⟨added, enters⟩ := Walk.exists_enters unrefused
  have inside : ∀ label, label ∈ entered ↔ label ∈ pending ∨ label ∈ block :: visited :=
    fun label => by
    rw [mirrors.mem_entered_iff, List.mem_cons, List.mem_cons, or_assoc, or_left_comm]
  have queued := filter_enqueue graph ⟨pending, entered, block :: visited⟩ items inside
    (mirrors.filter_rest others)
  rw [← enters.visited] at queued
  have count := mirrors.count_visit
  have assigned := mirrors.assigned_visit
  rw [show block :: visited = _ from enters.visited.symm] at count assigned
  cases free : node.subroutine.isNone with
  | true =>
    have isFree : graph.isUnassigned block = true := by simpa [isUnassigned, known] using free
    rw [if_pos isFree] at count assigned
    have body : node.bodySuccessors = .ok items := (if_pos free).symm.trans follows
    refine ⟨{ spread.assign rest block subroutine with pending := enqueue rest items },
      skips.trans (exhaust_of_onward ?_), advances, assigned.symm, queued, count.symm⟩
    simp only [step, knownToo, free, if_pos, body]
    rfl
  | false =>
    have isBound : ¬graph.isUnassigned block = true := by
      simpa [isUnassigned, known] using Bool.eq_false_iff.mp free
    rw [if_neg isBound] at count assigned
    obtain rfl : [] = items :=
      Except.ok.inj ((if_neg (Bool.eq_false_iff.mp free)).symm.trans follows)
    refine ⟨{ spread with pending := rest }, skips.trans (exhaust_of_onward ?_),
      advances, assigned.symm, queued, count.symm⟩
    simp [step, knownToo, free]

/-- The pass fails at the block that the walk cannot leave. -/
theorem exhaust_eq_of_error
    (mirrors : Mirrors graph entry subroutine ⟨block :: pending, entered, visited⟩ spread)
    {cause : Error} (failed : graph.regionWalk.next block = .error cause) :
    exhaust (step entry subroutine) spread = Part.some ⟨.error cause,
      graph.updateAll ((block :: visited).reverse.filter graph.isUnassigned)
        fun node => { node with subroutine := some subroutine }, []⟩ := by
  obtain ⟨rest, skips, -, same⟩ := mirrors.exists_skip
  rw [skips, mirrors.assigned_visit]
  refine exhaust_of_stops ?_
  rcases Walk.next_eq_error failed with ⟨unknown, rfl⟩ | ⟨node, known, stuck⟩
  · have unknownToo : spread.graph.node? block = none := same.trans unknown
    have isBound : graph.isUnassigned block = false := congrArg (Option.any _) unknown
    simp only [step, unknownToo, isBound]
    rfl
  · have knownToo : spread.graph.node? block = some node := same.trans known
    simp only [regionWalk, Node.unassignedSuccessors] at known stuck
    split at stuck
    · rename_i free
      have isFree : graph.isUnassigned block = true := by simpa [isUnassigned, known] using free
      simp only [step, knownToo, free, if_pos, isFree, stuck]
      rfl
    · cases stuck

end Mirrors

/-- What marking leaves behind after a walk over the region. -/
def conclude (graph : FlowGraph) (entry : Label) (subroutine : SubroutineId) (sweep : Sweep Label) :
    Outcome FlowGraph Nat :=
  let region := sweep.visited.filter graph.isUnassigned
  let assigned := graph.updateAll region fun node => { node with subroutine := some subroutine }
  match sweep.failure with
  | some cause => ⟨.error cause, assigned, []⟩
  | none => ⟨.ok region.length, assigned, [.marked region.length entry subroutine]⟩

/-- A pass that has come as far as a walk leaves the same behind in the end. -/
theorem exhaust_eq_conclude (mirrors : Mirrors graph entry subroutine frontier spread) :
    exhaust (step entry subroutine) spread
      = Part.some (conclude graph entry subroutine (graph.regionWalk.sweep frontier)) := by
  fun_induction Walk.sweep graph.regionWalk frontier generalizing spread with
  | case1 entered visited =>
    rw [mirrors.exhaust_eq_of_nil, mirrors.assigned, mirrors.count]
    rfl
  | case2 block pending entered visited cause failed =>
    rw [mirrors.exhaust_eq_of_error failed]
    rfl
  | case3 block pending entered visited items found after cause =>
    rename_i refused
    obtain ⟨other, -, refusal⟩ := Walk.exists_of_enterAll_eq_some refused
    cases refusal
  | case4 block pending entered visited items found after unrefused =>
    rename_i ih
    obtain ⟨later, onward, mirrored⟩ := mirrors.visit found unrefused
    rw [onward]
    exact ih mirrored

/-- A pass starts where the walk does. -/
theorem mirrors_start (graph : FlowGraph) (entry : Label) (subroutine : SubroutineId) :
    Mirrors graph entry subroutine
      (graph.regionWalk.enter ⟨[], .empty graph.nodes.size, []⟩ entry) (start graph entry) where
  advances := Walk.advances_start _ entry
  assigned := rfl
  pending := rfl
  count := rfl

/-- Whatever graph a pass starts from, it comes to an end, and leaves exactly that behind which
marking leaves behind. -/
theorem exhaust_start (graph : FlowGraph) (entry : Label) (subroutine : SubroutineId) :
    exhaust (step entry subroutine) (start graph entry)
      = Part.some ((mark entry subroutine).run graph) := by
  rw [exhaust_eq_conclude (mirrors_start graph entry subroutine), run_mark]
  rfl

/-- A pass assigns exactly the region around the entry and counts its blocks, unless some block in
it calls without having the edges of a call. Then such a block is what the pass ends at. -/
theorem exists_exhaust_start (graph : FlowGraph) (entry : Label) (subroutine : SubroutineId)
    (known : ∀ label, graph.Touches entry label → (graph.node? label).isSome) :
    ((∀ label node, graph.InRegion entry label → graph.node? label = some node →
        node.flags.callsSubroutine = true → 2 ≤ node.edges.length) →
      ∃ outcome, exhaust (step entry subroutine) (start graph entry) = Part.some outcome ∧
        outcome.answer = .ok {label | graph.InRegion entry label}.ncard ∧
        graph.AssignsRegion entry subroutine outcome.state) ∧
    ((∃ label node, graph.InRegion entry label ∧ graph.node? label = some node ∧
        node.flags.callsSubroutine = true ∧ node.edges.length < 2) →
      ∃ outcome, exhaust (step entry subroutine) (start graph entry) = Part.some outcome ∧
        ∃ label node, graph.InRegion entry label ∧ graph.node? label = some node ∧
          node.flags.callsSubroutine = true ∧ node.edges.length < 2 ∧
          outcome.answer = .error (.malformedCaller node.label node.edges.length)) := by
  constructor
  · intro callers
    obtain ⟨_, ⟨answer, rfl⟩, assigns⟩ := exists_yields_mark subroutine known callers
    exact ⟨_, exhaust_start graph entry subroutine, answer, assigns⟩
  · intro bad
    exact ⟨_, exhaust_start graph entry subroutine, exists_answer_mark subroutine known bad⟩

end Spread

namespace FlowGraph

/-- The blocks that belong to no subroutine. -/
def unassigned (graph : FlowGraph) : List Label :=
  ((List.range graph.nodes.size).map Label.mk).filter graph.isUnassigned

variable {graph before after : FlowGraph} {current last next : SubroutineId}
  {entry block label : Label} {blocks : List Label} {count : Nat}

/-- All blocks that belong to no subroutine are listed. -/
theorem mem_unassigned_iff : label ∈ graph.unassigned ↔ graph.isUnassigned label = true := by
  refine List.mem_filter.trans (and_iff_right_of_imp fun free => ?_)
  obtain ⟨node, known⟩ := Option.isSome_iff_exists.mp (isSome_of_isUnassigned free)
  have inside : label.index < graph.nodes.size := (Array.getElem?_eq_some_iff.mp known).1
  exact List.mem_map.mpr ⟨label.index, List.mem_range.mpr inside, rfl⟩

/-- A subroutine that is marked takes its entry out of the blocks that belong to none. -/
theorem length_unassigned_lt (yields : (mark entry next).Yields before count after)
    (free : before.isUnassigned entry = true) :
    after.unassigned.length < before.unassigned.length := by
  have size := ((assigns_mark entry next).of_yields yields).size_eq
  obtain ⟨complete, rfl⟩ := of_yields_mark yields
  have chosen : entry ∈ before.region entry :=
    (mem_region_iff complete).mpr ⟨subroutineOf_of_isUnassigned free, .refl⟩
  generalize assigned : before.updateAll _ _ = after at size ⊢
  have left (label : Label) : after.isUnassigned label
      = (decide (label ∉ before.region entry) && before.isUnassigned label) := by
    rw [← assigned, isUnassigned, node?_updateAll (nodup_region complete)]
    split
    · rename_i inside
      cases before.node? label <;> simp [inside]
    · rename_i outside
      simp [outside, isUnassigned]
  have fewer : after.unassigned = before.unassigned.filter (· ∉ before.region entry) := by
    rw [unassigned, unassigned, List.filter_filter, size]
    exact List.filter_congr fun label _ => left label
  rw [fewer]
  exact List.length_filter_lt_length_iff_exists.mpr
    ⟨entry, mem_unassigned_iff.mpr free, by simpa using chosen⟩

/-- Looking at a block leads to nothing new, or it marks one more subroutine, whose entry belonged
to none. -/
theorem of_yields_markCallee (yields : (markCallee current last block).Yields before next after) :
    next = last ∧ after = before ∨ next = last.next ∧ ∃ entry count,
      before.isUnassigned entry = true ∧ (mark entry next).Yields before count after := by
  unfold markCallee at yields
  obtain ⟨node, _, found, rest⟩ := Action.yields_bind.mp yields
  obtain ⟨-, rfl⟩ := Action.yields_read.mp found
  split at rest
  · obtain ⟨entry, _, calls, rest⟩ := Action.yields_bind.mp rest
    obtain ⟨_, _, looked, led⟩ := Action.yields_bind.mp calls
    obtain ⟨-, rfl⟩ := Action.yields_read.mp looked
    obtain ⟨-, rfl⟩ := Action.yields_pure.mp led
    obtain ⟨target, _, seen, rest⟩ := Action.yields_bind.mp rest
    obtain ⟨is, rfl⟩ := Action.yields_read.mp seen
    split at rest
    · rename_i none
      obtain ⟨count, _, marks, rest⟩ := Action.yields_bind.mp rest
      obtain ⟨rfl, rfl⟩ := Action.yields_pure.mp rest
      have free : before.isUnassigned entry = true := by
        rw [isUnassigned, known_of_node is]
        exact none
      exact .inr ⟨rfl, entry, count, free, marks⟩
    · obtain ⟨rfl, rfl⟩ := Action.yields_pure.mp rest
      exact .inl ⟨rfl, rfl⟩
  · obtain ⟨rfl, rfl⟩ := Action.yields_pure.mp rest
    exact .inl ⟨rfl, rfl⟩

/-- Looking at some blocks leads to no more subroutines than blocks leave those that belong to
none. -/
theorem number_add_le_of_yields_fold
    (yields : (Action.fold (markCallee current) last blocks).Yields before next after) :
    next.number + after.unassigned.length ≤ last.number + before.unassigned.length := by
  induction blocks generalizing last before with
  | nil =>
    obtain ⟨rfl, rfl⟩ := Action.yields_pure.mp yields
    exact Nat.le_refl _
  | cons block rest ih =>
    rw [Action.fold_cons] at yields
    obtain ⟨middle, between, first, others⟩ := Action.yields_bind.mp yields
    refine (ih others).trans ?_
    rcases of_yields_markCallee first with ⟨rfl, rfl⟩ | ⟨rfl, entry, count, free, marks⟩
    · exact Nat.le_refl _
    · have fewer := length_unassigned_lt marks free
      simp only [SubroutineId.next]
      omega

end FlowGraph

/-- How far a search for subroutines has come. -/
structure Search where
  /-- The graph, with the blocks assigned so far. -/
  graph : FlowGraph
  /-- The subroutine whose calls are looked at next. -/
  current : SubroutineId
  /-- The last subroutine found. -/
  last : SubroutineId
  /-- The events reported so far. -/
  events : List Event

namespace Search

open FlowGraph

/-- Look at the calls of the next subroutine, if there is one. A search that goes no further leaves
an outcome behind. -/
def step (blocks : List Label) (search : Search) : Outcome FlowGraph SubroutineId ⊕ Search :=
  if search.current.number ≤ search.last.number then
    match (Action.fold (markCallee search.current) search.last blocks).run search.graph with
    | ⟨.ok last, graph, events⟩ => .inr ⟨graph, search.current.next, last, search.events ++ events⟩
    | ⟨.error cause, graph, events⟩ => .inl ⟨.error cause, graph, search.events ++ events⟩
  else .inl ⟨.ok search.last, search.graph, search.events⟩

/-- A search starts with the calls of the body of the method. -/
def start (graph : FlowGraph) : Search := ⟨graph, .main, .main, []⟩

variable {blocks : List Label}

/-- A search is over when it is past the last subroutine. -/
theorem exhaust_of_past {last : SubroutineId} {number : Nat} (past : last.number < number)
    (graph : FlowGraph) (events : List Event) :
    exhaust (step blocks) ⟨graph, ⟨number⟩, last, events⟩ = Part.some ⟨.ok last, graph, events⟩ :=
  exhaust_of_stops (if_neg (Nat.not_le.mpr past))

/-- A search ends as the loop does that looks at one subroutine after the other, if the loop goes
through at least as many numbers as there can be subroutines. -/
theorem exhaust_eq_of_le (graph : FlowGraph) (number count : Nat) (last : SubroutineId)
    (events : List Event) (enough : last.number + graph.unassigned.length < number + count) :
    exhaust (step blocks) ⟨graph, ⟨number⟩, last, events⟩ = Part.some
      (((Action.fold (markCallees blocks) last
        ((List.range' number count).map SubroutineId.mk)).run graph).after events) := by
  induction count generalizing graph number last events with
  | zero =>
    rw [exhaust_of_past (by omega), List.range'_zero, List.map_nil,
      Action.fold_nil, Action.run_pure, Outcome.after, List.append_nil]
  | succ count ih =>
    rw [List.range'_succ, List.map_cons, Action.fold_cons, Action.run_bind, markCallees]
    by_cases inside : number ≤ last.number
    · rw [if_pos inside]
      cases round : (Action.fold (markCallee ⟨number⟩) last blocks).run graph with
      | mk answer after reported =>
      cases answer with
      | error cause =>
        refine exhaust_of_stops ?_
        simp only [step, if_pos inside, round]
        rfl
      | ok next =>
        have yields : (Action.fold (markCallee ⟨number⟩) last blocks).Yields graph next after := by
          rw [Action.Yields, round]
          exact ⟨rfl, rfl⟩
        have fewer := number_add_le_of_yields_fold yields
        have onward : exhaust (step blocks) ⟨graph, ⟨number⟩, last, events⟩
            = exhaust (step blocks) ⟨after, ⟨number + 1⟩, next, events ++ reported⟩ := by
          refine exhaust_of_onward ?_
          simp only [step, if_pos inside, round]
          rfl
        rw [onward, ih after (number + 1) next _ (by omega),
          Outcome.andThen_ok, Outcome.after_after]
    · -- The search is over, and it would be over as well at the numbers that the loop still goes
      -- through.
      rw [if_neg inside, Action.run_pure, Outcome.andThen_ok, Outcome.after_nil,
        exhaust_of_past (by omega), ← ih graph (number + 1) last events (by omega),
        exhaust_of_past (by omega)]

/-- Whatever graph a search starts from, it comes to an end, and leaves exactly that behind which
the loop leaves behind that is bounded by the number of labels. -/
theorem exhaust_start (graph : FlowGraph) (blocks : List Label) :
    exhaust (step blocks) (start graph) = Part.some
      ((Action.fold (markCallees blocks) .main (subroutineIds graph)).run graph) := by
  have few : graph.unassigned.length ≤ graph.nodes.size := by
    refine (List.length_filter_le _ _).trans_eq ?_
    rw [List.length_map, List.length_range]
  refine exhaust_eq_of_le graph 1 (graph.nodes.size + 1) .main [] ?_
  simp only [SubroutineId.main]
  omega

end Search

end MethodBody
