import MethodBody.Proofs.Consistency
import MethodBody.Proofs.Returns
import Mathlib.Order.Bounds.Basic
import Mathlib.Order.Nat

/-!
# The blocks of a subroutine

Assigning blocks to a subroutine stops at blocks that belong to another one already. As whatever
such a block leads to belongs to some subroutine as well, nothing is missed: a subroutine gets all
blocks that its entry reaches and that no earlier entry does (`Marked.mark`). So a block belongs to
the first of the subroutines whose entries reach it (`Owns`).
-/

namespace MethodBody

namespace FlowGraph

variable {graph before after current : FlowGraph} {entry label block next : Label}
  {entries : List Label} {place : Nat}

/-- Control can come from one block to another without entering a subroutine. -/
abbrev Reaches (graph : FlowGraph) : Label → Label → Prop := Relation.ReflTransGen graph.Flows

/-- Of some entries, the one at the place is the first that reaches the label. -/
def Owns (graph : FlowGraph) (entries : List Label) (place : Nat) (label : Label) : Prop :=
  IsLeast {place | ∃ entry, entries[place]? = some entry ∧ graph.Reaches entry label} place

/-- Only entries own labels. -/
theorem Owns.lt_length (owns : graph.Owns entries place label) : place < entries.length := by
  obtain ⟨⟨entry, found, -⟩, -⟩ := owns
  exact (List.getElem?_eq_some_iff.mp found).1

/-- A label is owned if some entry reaches it. -/
theorem exists_owns_iff :
    (∃ place, graph.Owns entries place label) ↔ ∃ entry ∈ entries, graph.Reaches entry label := by
  constructor
  · rintro ⟨place, ⟨entry, found, reaches⟩, -⟩
    exact ⟨entry, List.mem_of_getElem? found, reaches⟩
  · rintro ⟨entry, member, reaches⟩
    obtain ⟨place, found⟩ := List.mem_iff_getElem?.mp member
    classical
    exact ⟨_, Nat.isLeast_find ⟨place, entry, found, reaches⟩⟩

/-- What stands in a list with one more item is the item, or stood there before. -/
theorem getElem?_append_singleton_eq_some {α : Type} {items : List α}
    {item other : α} {place : Nat} :
    (items ++ [item])[place]? = some other ↔
      items[place]? = some other ∨ place = items.length ∧ item = other := by
  rcases Nat.lt_or_ge place items.length with inside | outside
  · rw [List.getElem?_append_left inside]
    exact (or_iff_left fun last => Nat.ne_of_lt inside last.1).symm
  · rw [List.getElem?_append_right outside, List.getElem?_eq_none outside]
    simp only [List.getElem?_singleton, Option.ite_none_right_eq_some,
      Option.some.injEq, reduceCtorEq, false_or, Nat.sub_eq_zero_iff_le]
    exact and_congr_left' ⟨fun last => Nat.le_antisymm last outside, Nat.le_of_eq⟩

/-- One more entry owns what it reaches, and no earlier one does. -/
theorem owns_append_iff : graph.Owns (entries ++ [entry]) place label ↔
    graph.Owns entries place label ∨ place = entries.length ∧ graph.Reaches entry label ∧
      ∀ earlier ∈ entries, ¬ graph.Reaches earlier label := by
  constructor
  · rintro ⟨⟨other, found, reaches⟩, least⟩
    rcases getElem?_append_singleton_eq_some.mp found with earlier | ⟨rfl, rfl⟩
    · refine .inl ⟨⟨other, earlier, reaches⟩, ?_⟩
      rintro place ⟨another, here, alsoReaches⟩
      exact least ⟨another, getElem?_append_singleton_eq_some.mpr (.inl here), alsoReaches⟩
    · refine .inr ⟨rfl, reaches, fun earlier member alsoReaches => ?_⟩
      obtain ⟨place, here⟩ := List.mem_iff_getElem?.mp member
      have behind := least ⟨earlier, getElem?_append_singleton_eq_some.mpr (.inl here), alsoReaches⟩
      exact absurd (List.getElem?_eq_some_iff.mp here).1 (Nat.not_lt.mpr behind)
  · rintro (owns | ⟨rfl, reaches, first⟩)
    · have inside := owns.lt_length
      obtain ⟨⟨other, found, reaches⟩, least⟩ := owns
      refine ⟨⟨other, getElem?_append_singleton_eq_some.mpr (.inl found), reaches⟩, ?_⟩
      rintro place ⟨another, here, alsoReaches⟩
      rcases getElem?_append_singleton_eq_some.mp here with earlier | ⟨rfl, -⟩
      · exact least ⟨another, earlier, alsoReaches⟩
      · exact Nat.le_of_lt inside
    · refine ⟨⟨entry, getElem?_append_singleton_eq_some.mpr (.inr ⟨rfl, rfl⟩), reaches⟩, ?_⟩
      rintro place ⟨another, here, alsoReaches⟩
      rcases getElem?_append_singleton_eq_some.mp here with earlier | ⟨rfl, -⟩
      · exact absurd alsoReaches (first another (List.mem_of_getElem? earlier))
      · exact Nat.le_refl _

/-- Blocks are assigned to the subroutines at some entries, and nothing else has changed. -/
structure Marked (graph : FlowGraph) (entries : List Label) (current : FlowGraph) : Prop where
  /-- Nothing but the subroutines of blocks has changed. -/
  assigns : Assigns graph current
  /-- The entries are known. -/
  known : ∀ entry ∈ entries, (graph.node? entry).isSome
  /-- A block belongs to the first subroutine whose entry reaches it. -/
  belongs : ∀ label number, current.subroutineOf label = some ⟨number⟩ ↔
    ∃ place, number = place + 1 ∧ graph.Owns entries place label
  /-- No entry is reached by an earlier one. -/
  apart : entries.Pairwise fun earlier later => ¬ graph.Reaches earlier later

namespace Marked

/-- A block belongs to no subroutine if no entry reaches it. -/
theorem eq_none_iff (marked : graph.Marked entries current) :
    current.subroutineOf label = none ↔ ∀ entry ∈ entries, ¬ graph.Reaches entry label := by
  constructor
  · intro unassigned entry member reaches
    obtain ⟨place, owns⟩ := exists_owns_iff.mpr ⟨entry, member, reaches⟩
    have belongs := (marked.belongs label (place + 1)).mpr ⟨place, rfl, owns⟩
    simp [unassigned] at belongs
  · intro unreached
    refine Option.eq_none_iff_forall_ne_some.mpr fun subroutine belongs => ?_
    obtain ⟨place, -, owns⟩ := (marked.belongs label subroutine.number).mp belongs
    obtain ⟨entry, member, reaches⟩ := exists_owns_iff.mp ⟨place, owns⟩
    exact unreached entry member reaches

/-- No block belongs to a subroutine at first. -/
theorem start (fresh : ∀ label, graph.subroutineOf label = none) : graph.Marked [] graph where
  assigns := Assigns.refl graph
  known := by simp
  belongs label number := by
    rw [fresh]
    constructor
    · simp
    · rintro ⟨place, -, owns⟩
      exact absurd owns.lt_length (Nat.not_lt_zero place)
  apart := .nil

end Marked

/-- The same labels are known, wherever the blocks belong. -/
theorem Assigns.isSome_node? (assigns : Assigns before after) (label : Label) :
    (after.node? label).isSome = (before.node? label).isSome := by
  have same := congrArg Option.isSome (assigns.nodes label)
  simpa only [Option.isSome_map] using same

/-- There are as many labels, wherever the blocks belong. -/
theorem Assigns.size_eq (assigns : Assigns before after) :
    after.nodes.size = before.nodes.size := by
  refine eq_of_forall_lt_iff fun index => ?_
  have same := assigns.isSome_node? ⟨index⟩
  rw [Bool.eq_iff_iff] at same
  simpa [node?, Option.isSome_iff_exists, Array.getElem?_eq_some_iff] using same

/-- The edges are the same, wherever the blocks belong. -/
theorem Assigns.edgesOf_eq (assigns : Assigns before after) (label : Label) :
    after.edgesOf label = before.edgesOf label := by
  have same := congrArg (Option.elim · [] Node.edges) (assigns.nodes label)
  have drop (node? : Option Node) :
      (node?.map Node.unassigned).elim [] Node.edges = node?.elim [] Node.edges := by
    cases node? <;> rfl
  simp only [drop] at same
  exact same

/-- A graph is consistent, wherever the blocks belong. -/
theorem Assigns.isConsistent (assigns : Assigns before after) (consistent : before.IsConsistent) :
    after.IsConsistent := by
  constructor
  case blocks =>
    intro block member
    rw [assigns.isSome_node?]
    exact consistent.blocks block (assigns.blocks ▸ member)
  case successors =>
    intro label edge member
    rw [assigns.isSome_node?]
    exact consistent.successors label edge (assigns.edgesOf_eq label ▸ member)
  case callers =>
    intro label node known calls
    obtain ⟨old, was, same⟩ := assigns.exists_node known
    rw [same] at calls ⊢
    exact consistent.callers label old was calls
  case exclusive => exact assigns.exclusive consistent.exclusive

/-- The walk over the blocks of a subroutine goes on from blocks without one only. -/
theorem leads_regionWalk_iff : graph.regionWalk.Leads block next ↔
    graph.subroutineOf block = none ∧ graph.Flows block next := by
  cases known : graph.node? block with
  | none =>
    simp [Walk.Leads, Walk.next, regionWalk, Flows, FlowGraph.node, known, bind, Except.bind]
  | some node =>
    have step : graph.regionWalk.next block = node.unassignedSuccessors := by
      simp [Walk.next, regionWalk, FlowGraph.node, known, bind, Except.bind]
    simp only [Walk.Leads, step, Node.unassignedSuccessors, Flows, subroutineOf, known,
      Option.bind_some, Option.some.injEq, exists_and_left, exists_eq_left',
      Option.isNone_iff_eq_none]
    split
    · rename_i unassigned
      simp [unassigned]
    · rename_i assigned
      simp [assigned]

/-- A block without a subroutine is known. -/
theorem isSome_of_isUnassigned (unassigned : graph.isUnassigned label = true) :
    (graph.node? label).isSome := by
  obtain ⟨node, known, -⟩ := (Option.any_eq_true _ _).mp unassigned
  exact Option.isSome_iff_exists.mpr ⟨node, known⟩

/-- Known labels are assigned to a subroutine, and no others. -/
theorem subroutineOf_updateAll {labels : List Label} (distinct : labels.Nodup)
    (known : ∀ label ∈ labels, (graph.node? label).isSome) (subroutine : SubroutineId) :
    (graph.updateAll labels fun node => { node with subroutine := some subroutine }).subroutineOf
        label
      = if label ∈ labels then some subroutine else graph.subroutineOf label := by
  rw [subroutineOf, node?_updateAll distinct]
  split
  · rename_i member
    obtain ⟨node, found⟩ := Option.isSome_iff_exists.mp (known label member)
    rw [found]
    rfl
  · rfl

/-- The blocks that the walk from an entry visits, and that belong to no subroutine yet. -/
def region (graph : FlowGraph) (entry : Label) : List Label :=
  (graph.regionWalk.run entry).visited.filter graph.isUnassigned

/-- Marking assigns the blocks that the walk over the region chooses, and fails where the walk
does. -/
theorem run_mark (graph : FlowGraph) (entry : Label) (subroutine : SubroutineId) :
    (mark entry subroutine).run graph =
      let assigned := graph.updateAll (graph.region entry) fun node =>
        { node with subroutine := some subroutine }
      match (graph.regionWalk.run entry).failure with
      | some cause => ⟨.error cause, assigned, []⟩
      | none => ⟨.ok (graph.region entry).length, assigned,
          [.marked (graph.region entry).length entry subroutine]⟩ := by
  simp only [mark, Action.run_bind, Action.run_inspect, Outcome.andThen_ok, Outcome.after_nil,
    Action.run_modify]
  unfold region
  cases (graph.regionWalk.run entry).failure <;> rfl

/-- The blocks that the walk visits are assigned to the subroutine. -/
theorem of_yields_mark {subroutine : SubroutineId} {count : Nat}
    (yields : (mark entry subroutine).Yields before count after) :
    (before.regionWalk.run entry).failure = none ∧
      (before.updateAll (before.region entry) fun node =>
        { node with subroutine := some subroutine }) = after := by
  rw [Action.Yields, run_mark] at yields
  cases complete : (before.regionWalk.run entry).failure with
  | some cause => simp [complete] at yields
  | none =>
    simp only [complete] at yields
    exact ⟨rfl, yields.2⟩

/-- No block stands twice in a region. -/
theorem nodup_region (complete : (graph.regionWalk.run entry).failure = none) :
    (graph.region entry).Nodup := by
  have labels := (Walk.explores_run complete).distinct
  have same : (graph.regionWalk.run entry).visited.map graph.regionWalk.label
      = (graph.regionWalk.run entry).visited := List.map_id _
  rw [same] at labels
  exact labels.filter _

/-- A region has all blocks without a subroutine that the walk can reach. -/
theorem mem_region_iff (complete : (graph.regionWalk.run entry).failure = none) :
    label ∈ graph.region entry ↔
      graph.subroutineOf label = none ∧ graph.regionWalk.Reaches entry label := by
  have explores := Walk.explores_run complete
  have visited : label ∈ (graph.regionWalk.run entry).visited ↔
      graph.regionWalk.Reaches entry label := explores.mem_visited_iff fun _ _ same => same
  rw [region, List.mem_filter, isUnassigned, ← visited]
  refine and_comm.trans (and_congr_left fun member => ?_)
  obtain ⟨items, left, -⟩ := explores.closed label member
  obtain ⟨node, found, -⟩ := bind_eq_ok.mp left
  have known : graph.node? label = some node := known_of_node found
  simp [subroutineOf, known]

/-- The blocks that an entry reaches, and that belong to no subroutine yet, are assigned to the
subroutine. -/
theorem IsConsistent.exists_yields_mark (consistent : before.IsConsistent)
    (known : (before.node? entry).isSome) (subroutine : SubroutineId) :
    ∃ count after, (mark entry subroutine).Yields before count after ∧
      ∀ label other, after.subroutineOf label = some other
        ↔ before.subroutineOf label = some other ∨
        other = subroutine ∧ before.subroutineOf label = none ∧
          before.regionWalk.Reaches entry label := by
  obtain ⟨count, after, yields⟩ := (consistent.failsOnly_mark known subroutine).exists_yields
  refine ⟨count, after, yields, fun label other => ?_⟩
  obtain ⟨complete, rfl⟩ := of_yields_mark yields
  rw [subroutineOf_updateAll (nodup_region complete) fun label member => isSome_of_isUnassigned
    (List.of_mem_filter member)]
  split
  · rename_i member
    obtain ⟨none, reaches⟩ := (mem_region_iff complete).mp member
    simp only [none, reaches, Option.some.injEq, reduceCtorEq, false_or, and_true]
    exact eq_comm
  · rename_i outside
    exact (or_iff_left fun assigned => outside ((mem_region_iff complete).mpr assigned.2)).symm

namespace Marked

/-- A block that belongs to no subroutine is only reached by way of such blocks. -/
theorem reaches_regionWalk_iff (marked : graph.Marked entries current)
    (unassigned : current.subroutineOf label = none) :
    current.regionWalk.Reaches entry label ↔ graph.Reaches entry label := by
  have flows := marked.assigns.flows_eq
  constructor
  · refine Relation.ReflTransGen.mono (fun block next leads => ?_) _ _
    rw [← flows]
    exact (leads_regionWalk_iff.mp leads).2
  · intro reaches
    -- If a block on the way belonged to a subroutine, then what it leads to would as well.
    induction reaches with
    | refl => exact .refl
    | @tail block next _ step ih =>
      have before : current.subroutineOf block = none := marked.eq_none_iff.mpr
        fun entry member path => marked.eq_none_iff.mp unassigned entry member (path.tail step)
      rw [← flows] at step
      exact (ih before).tail (leads_regionWalk_iff.mpr ⟨before, step⟩)

/-- A subroutine gets all blocks that its entry reaches and that no earlier entry does. -/
theorem exists_yields_mark (marked : graph.Marked entries current) (consistent : graph.IsConsistent)
    (known : (graph.node? entry).isSome) (unassigned : current.subroutineOf entry = none) :
    ∃ count after, (mark entry ⟨entries.length + 1⟩).Yields current count after ∧
      graph.Marked (entries ++ [entry]) after := by
  have knownToo : (current.node? entry).isSome := by
    rwa [← marked.assigns.isSome_node?] at known
  obtain ⟨count, after, yields, assigned⟩ :=
    (marked.assigns.isConsistent consistent).exists_yields_mark knownToo ⟨entries.length + 1⟩
  refine ⟨count, after, yields, ?_⟩
  constructor
  case assigns => exact Assigns.trans _ _ _ marked.assigns ((assigns_mark entry _).of_yields yields)
  case known =>
    intro other member
    rcases List.mem_append.mp member with earlier | last
    · exact marked.known other earlier
    · exact List.mem_singleton.mp last ▸ known
  case belongs =>
    intro label number
    simp only [assigned, owns_append_iff, marked.belongs, SubroutineId.mk.injEq,
      and_or_left, exists_or]
    refine or_congr_right ⟨?_, ?_⟩
    · rintro ⟨rfl, none, reaches⟩
      exact ⟨_, rfl, rfl, (marked.reaches_regionWalk_iff none).mp reaches,
        marked.eq_none_iff.mp none⟩
    · rintro ⟨_, rfl, rfl, reaches, first⟩
      have none := marked.eq_none_iff.mpr first
      exact ⟨rfl, none, (marked.reaches_regionWalk_iff none).mpr reaches⟩
  case apart =>
    refine List.pairwise_append.mpr ⟨marked.apart, List.pairwise_singleton _ _, ?_⟩
    intro earlier member last only
    exact List.mem_singleton.mp only ▸ marked.eq_none_iff.mp unassigned earlier member

end Marked

end FlowGraph

end MethodBody
