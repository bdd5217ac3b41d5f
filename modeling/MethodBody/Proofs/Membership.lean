import MethodBody.Proofs.Heights
import MethodBody.Proofs.Regions
import Mathlib.Data.List.Perm.Subperm
import Mathlib.Data.Prod.Lex

/-!
# Which block belongs to which subroutine

The calls are looked at one after the other, first those of the body of the method, then those of
one subroutine after the other, and in a subroutine in the order of the blocks (`Site`). A call
whose entry belongs to no subroutine yet leads to a new one. What the calls looked at so far have
led to (`Scanned`) is kept by each of them, and when none is left the blocks are divided as they
should be (`partitions_analyzeSubroutines`).
-/

namespace MethodBody

/-- Where a call is looked at. -/
structure Site where
  /-- The number of the subroutine that the calling block belongs to. -/
  subroutine : Nat
  /-- The place of the calling block. -/
  place : Nat

namespace Site

/-- A site as a pair. -/
def toPair (site : Site) : Nat ×ₗ Nat := toLex (site.subroutine, site.place)

/-- Different sites are different pairs. -/
theorem toPair_injective : Function.Injective toPair := by
  rintro ⟨subroutine, place⟩ ⟨other, another⟩ same
  obtain ⟨rfl, rfl⟩ := Prod.mk.inj (toLex_inj.mp same)
  rfl

/-- Sites come subroutine by subroutine. -/
instance : LinearOrder Site := LinearOrder.lift' toPair toPair_injective

variable {site other : Site}

/-- A site comes before those of later subroutines, and before later ones of its own. -/
theorem lt_iff : site < other ↔ site.subroutine < other.subroutine ∨
    site.subroutine = other.subroutine ∧ site.place < other.place :=
  Prod.Lex.toLex_lt_toLex

/-- A site does not come after another. -/
theorem le_iff : site ≤ other ↔ site.subroutine < other.subroutine ∨
    site.subroutine = other.subroutine ∧ site.place ≤ other.place :=
  Prod.Lex.toLex_le_toLex

/-- The site at the next place comes after a site and those before it. -/
theorem lt_succ_iff : site < ⟨other.subroutine, other.place + 1⟩ ↔ site ≤ other := by
  rw [lt_iff, le_iff, Nat.lt_succ_iff]

end Site

/-- A subroutine that a call leads to. -/
structure Discovery where
  /-- The entry of the subroutine. -/
  entry : Label
  /-- The site of the call. -/
  site : Site

namespace FlowGraph

variable {graph current after : FlowGraph} {first entry caller continuation label block : Label}
  {entries : List Label} {found : List Discovery} {number place : Nat} {position site : Site}

/-- The sites of the calls of an entry. -/
def callSites (graph current : FlowGraph) (entry : Label) : Set Site :=
  {site | ∃ caller continuation, graph.blocks[site.place]? = some caller ∧
    current.subroutineOf caller = some ⟨site.subroutine⟩ ∧ graph.Calls caller entry continuation}

/-- The blocks are divided among the subroutines at some entries. -/
structure Partitions (graph : FlowGraph) (entries : List Label) (current : FlowGraph) : Prop where
  /-- The body of the method starts with the first block. -/
  begins : entries.head? = graph.firstBlock?
  /-- Every entry has one number. -/
  distinct : entries.Nodup
  /-- A block belongs to the first subroutine whose entry reaches it without calling. -/
  belongs : ∀ label number, current.subroutineOf label = some ⟨number⟩ ↔
    ∃ place, number = place + 1 ∧ graph.Owns entries place label
  /-- An entry belongs to its own subroutine. -/
  own : ∀ place entry, entries[place]? = some entry → current.subroutineOf entry = some ⟨place + 1⟩
  /-- A block belongs to no subroutine exactly if the first block does not reach it along any
  edges. -/
  unassigned : ∀ label, current.subroutineOf label = none ↔ ¬ graph.Reachable label
  /-- All subroutines but the body of the method are called by an earlier one. -/
  called : ∀ place entry, entries[place + 1]? = some entry →
    ∃ site ∈ graph.callSites current entry, site.subroutine < place + 2
  /-- Subroutines are numbered in the order of the first calls of their entries. -/
  ordered : entries.tail.Pairwise fun earlier later => ∃ one other,
    IsLeast (graph.callSites current earlier) one ∧ IsLeast (graph.callSites current later) other ∧
      one < other
  /-- There is at most one more subroutine than there are labels that are called. -/
  few : ∀ targets : List Label, (∀ caller entry continuation,
    graph.Calls caller entry continuation → entry ∈ targets) → entries.length ≤ targets.length + 1

/-- Control passes on along an edge. -/
theorem Flows.leads (flows : graph.Flows block label) : graph.Leads block label := by
  obtain ⟨node, labels, known, body, member⟩ := flows
  obtain ⟨edge, inside, same⟩ := List.mem_map.mp (node.mem_of_mem_bodySuccessors body member)
  exact ⟨edge, (edgesOf_of_known known).symm ▸ inside, same⟩

/-- A subroutine is called along an edge. -/
theorem Calls.leads (calls : graph.Calls caller entry continuation) : graph.Leads caller entry := by
  obtain ⟨node, first, second, known, edges, -, same⟩ := calls
  refine ⟨second, ?_, same⟩
  rw [edgesOf_of_known known]
  unfold Node.callEdges at edges
  split at edges
  · rename_i listed
    obtain ⟨-, rfl⟩ := Prod.mk.inj (Except.ok.inj edges)
    simp [listed]
  · simp at edges

/-- Each edge of a block is one along which control passes on, or the call of a subroutine. -/
theorem IsConsistent.flows_or_calls (consistent : graph.IsConsistent)
    (leads : graph.Leads block label) :
    graph.Flows block label ∨ ∃ continuation, graph.Calls block label continuation := by
  obtain ⟨edge, member, rfl⟩ := leads
  cases known : graph.node? block with
  | none => simp [edgesOf, known] at member
  | some node =>
    rw [edgesOf_of_known known] at member
    cases calls : node.flags.callsSubroutine with
    | false => exact .inl ((flows_iff_of_plain known calls).mpr (List.mem_map_of_mem member))
    | true =>
      obtain ⟨continuation, entry, others, edges⟩ := consistent.callers block node known calls
      have called : node.callEdges = .ok (continuation, entry) := by
        rw [Node.callEdges, calls, edges]
      have body : node.bodySuccessors = .ok ((continuation :: others).map (·.successor)) := by
        rw [Node.bodySuccessors, if_pos calls, called, edges]
        rfl
      rw [edges] at member
      rcases List.mem_cons.mp member with rfl | later
      · exact .inl ⟨node, _, known, body, List.mem_map_of_mem List.mem_cons_self⟩
      · rcases List.mem_cons.mp later with rfl | last
        · exact .inr ⟨_, node, _, _, known, called, rfl, rfl⟩
        · exact .inl ⟨node, _, known, body, List.mem_map_of_mem (List.mem_cons_of_mem _ last)⟩

/-- What a reachable block reaches without calling is reachable. -/
theorem Reachable.of_reaches (reachable : graph.Reachable block)
    (reaches : graph.Reaches block label) : graph.Reachable label := by
  obtain ⟨first, begins, path⟩ := reachable
  exact ⟨first, begins,
    path.trans (Relation.ReflTransGen.mono (fun _ _ => Flows.leads) _ _ reaches)⟩

namespace Marked

/-- A block belongs to a subroutine if some entry reaches it. -/
theorem ne_none_iff (marked : graph.Marked entries current) :
    current.subroutineOf label ≠ none ↔ ∃ entry ∈ entries, graph.Reaches entry label := by
  simp only [Ne, marked.eq_none_iff, not_forall, not_not, exists_prop]

/-- The numbers of subroutines count their entries. -/
theorem le_length (marked : graph.Marked entries current)
    (belongs : current.subroutineOf label = some ⟨number⟩) :
    0 < number ∧ number ≤ entries.length := by
  obtain ⟨place, rfl, owns⟩ := (marked.belongs label number).mp belongs
  exact ⟨Nat.succ_pos place, owns.lt_length⟩

/-- A block that belongs to a subroutine stays there. -/
theorem mono (marked : graph.Marked entries current)
    (more : graph.Marked (entries ++ [entry]) after)
    (belongs : current.subroutineOf label = some ⟨number⟩) :
    after.subroutineOf label = some ⟨number⟩ := by
  obtain ⟨place, same, owns⟩ := (marked.belongs label number).mp belongs
  exact (more.belongs label number).mpr ⟨place, same, owns_append_iff.mpr (.inl owns)⟩

/-- A block belongs to the last subroutine, or it belonged where it does before. -/
theorem eq_or_of_append (marked : graph.Marked entries current)
    (more : graph.Marked (entries ++ [entry]) after)
    (belongs : after.subroutineOf label = some ⟨number⟩) :
    current.subroutineOf label = some ⟨number⟩ ∨ number = entries.length + 1 := by
  obtain ⟨place, same, owns⟩ := (more.belongs label number).mp belongs
  rcases owns_append_iff.mp owns with before | ⟨last, -⟩
  · exact .inl ((marked.belongs label number).mpr ⟨place, same, before⟩)
  · exact .inr (by rw [same, last])

/-- A block that belongs to a subroutine belongs to one after another was marked. -/
theorem ne_none_of_append (marked : graph.Marked entries current)
    (more : graph.Marked (entries ++ [entry]) after)
    (assigned : current.subroutineOf label ≠ none) :
    after.subroutineOf label ≠ none := by
  obtain ⟨⟨number⟩, belongs⟩ := Option.ne_none_iff_exists'.mp assigned
  simp [marked.mono more belongs]

/-- A block that calls still does from the same site after another subroutine was marked. -/
theorem callSites_mono (marked : graph.Marked entries current)
    (more : graph.Marked (entries ++ [entry]) after) {target : Label}
    (calls : site ∈ graph.callSites current target) : site ∈ graph.callSites after target := by
  obtain ⟨caller, continuation, placed, belongs, calls⟩ := calls
  exact ⟨caller, continuation, placed, marked.mono more belongs, calls⟩

/-- The blocks of a new subroutine call at later sites than those of the old ones. -/
theorem callSites_of_append (marked : graph.Marked entries current)
    (more : graph.Marked (entries ++ [entry]) after) (known : position.subroutine ≤ entries.length)
    {target : Label} (calls : site ∈ graph.callSites after target) :
    site ∈ graph.callSites current target ∨ position < site := by
  obtain ⟨caller, continuation, placed, belongs, calls⟩ := calls
  rcases marked.eq_or_of_append more belongs with old | new
  · exact .inl ⟨caller, continuation, placed, old, calls⟩
  · exact .inr (Site.lt_iff.mpr (.inl (new ▸ Nat.lt_succ_of_le known)))

/-- An entry is the first that reaches it. -/
theorem own (marked : graph.Marked entries current) (found : entries[place]? = some entry) :
    current.subroutineOf entry = some ⟨place + 1⟩ := by
  refine (marked.belongs entry _).mpr ⟨place, rfl, ⟨entry, found, .refl⟩, ?_⟩
  rintro other ⟨another, here, reaches⟩
  refine Nat.le_of_not_lt fun before => ?_
  obtain ⟨inside, same⟩ := List.getElem?_eq_some_iff.mp found
  obtain ⟨insideToo, sameToo⟩ := List.getElem?_eq_some_iff.mp here
  have apart := List.pairwise_iff_getElem.mp marked.apart other place insideToo inside before
  rw [same, sameToo] at apart
  exact apart reaches

/-- No label is the entry of two subroutines. -/
theorem distinct (marked : graph.Marked entries current) : entries.Nodup := by
  refine marked.apart.imp fun {earlier later} unreached same => ?_
  rw [same] at unreached
  exact unreached .refl

/-- There are no more subroutines than labels. -/
theorem length_le (marked : graph.Marked entries current) : entries.length ≤ graph.nodes.size :=
  length_le_of_known marked.distinct marked.known

end Marked

/-- The calls at the sites before a position have been looked at. -/
structure Scanned (graph : FlowGraph) (first : Label) (position : Site) (found : List Discovery)
    (current : FlowGraph) : Prop where
  /-- The subroutines that were found are marked. -/
  marked : graph.Marked (first :: found.map Discovery.entry) current
  /-- What was called belongs to a subroutine. -/
  handled : ∀ entry, ∀ site ∈ graph.callSites current entry, site < position →
    current.subroutineOf entry ≠ none
  /-- Each subroutine was found at the first call of its entry. -/
  earliest : ∀ discovery ∈ found,
    IsLeast (graph.callSites current discovery.entry) discovery.site
  /-- Subroutines were found before the position. -/
  behind : ∀ discovery ∈ found, discovery.site < position
  /-- Subroutines were found in order. -/
  ordered : found.Pairwise (·.site < ·.site)
  /-- Each subroutine was found in one that had been found before. -/
  within : ∀ place discovery, found[place]? = some discovery → discovery.site.subroutine < place + 2

namespace Scanned

/-- The scan starts with the calls of the body of the method. -/
theorem start (marked : graph.Marked [first] current) : graph.Scanned first ⟨1, 0⟩ [] current where
  marked := marked
  handled entry site calls before := by
    obtain ⟨caller, continuation, -, belongs, -⟩ := calls
    have positive := (marked.le_length belongs).1
    rcases Site.lt_iff.mp before with earlier | ⟨-, earlier⟩
    · exact absurd earlier (Nat.not_lt.mpr positive)
    · exact absurd earlier (Nat.not_lt_zero _)
  earliest := by simp
  behind := by simp
  ordered := .nil
  within := by simp

/-- The scan goes on past calls whose entries belong to subroutines. -/
theorem advance (scanned : graph.Scanned first position found current) {next : Site}
    (ahead : position ≤ next) (handled : ∀ entry, ∀ site ∈ graph.callSites current entry,
      position ≤ site → site < next → current.subroutineOf entry ≠ none) :
    graph.Scanned first next found current where
  marked := scanned.marked
  handled entry site calls before := by
    rcases lt_or_ge site position with behind | here
    · exact scanned.handled entry site calls behind
    · exact handled entry site calls here before
  earliest := scanned.earliest
  behind discovery member := (scanned.behind discovery member).trans_le ahead
  ordered := scanned.ordered
  within := scanned.within

/-- A call whose entry belongs to no subroutine leads to a new one. -/
theorem discover (scanned : graph.Scanned first position found current)
    (here : graph.blocks[position.place]? = some caller)
    (belongs : current.subroutineOf caller = some ⟨position.subroutine⟩)
    (calls : graph.Calls caller entry continuation) (unassigned : current.subroutineOf entry = none)
    (more : graph.Marked ((first :: found.map Discovery.entry) ++ [entry]) after) :
    graph.Scanned first ⟨position.subroutine, position.place + 1⟩ (found ++ [⟨entry, position⟩])
      after := by
  have marked := scanned.marked
  have known := (marked.le_length belongs).2
  have called : position ∈ graph.callSites current entry :=
    ⟨caller, continuation, here, belongs, calls⟩
  have onward : position < ⟨position.subroutine, position.place + 1⟩ :=
    Site.lt_succ_iff.mpr le_rfl
  constructor
  case marked => simpa using more
  case handled =>
    intro target site callsToo before
    have reached := Site.lt_succ_iff.mp before
    rcases marked.callSites_of_append more known callsToo with old | later
    · rcases reached.lt_or_eq with behind | rfl
      · exact marked.ne_none_of_append more (scanned.handled target site old behind)
      · obtain ⟨other, _, hereToo, -, callsToo⟩ := old
        obtain rfl := Option.some.inj (here.symm.trans hereToo)
        obtain ⟨rfl, -⟩ := calls.unique callsToo
        simp [more.own (getElem?_append_singleton_eq_some.mpr (.inr ⟨rfl, rfl⟩))]
    · exact absurd reached later.not_ge
  case earliest =>
    intro discovery member
    rcases List.mem_append.mp member with before | last
    · have earliest := scanned.earliest discovery before
      refine ⟨marked.callSites_mono more earliest.1, fun site calls => ?_⟩
      rcases marked.callSites_of_append more known calls with old | later
      · exact earliest.2 old
      · exact ((scanned.behind discovery before).trans later).le
    · obtain rfl := List.mem_singleton.mp last
      refine ⟨marked.callSites_mono more called, fun site calls => ?_⟩
      rcases marked.callSites_of_append more known calls with old | later
      · refine le_of_not_gt fun behind => ?_
        exact scanned.handled entry site old behind unassigned
      · exact later.le
  case behind =>
    intro discovery member
    rcases List.mem_append.mp member with before | last
    · exact (scanned.behind discovery before).trans onward
    · exact List.mem_singleton.mp last ▸ onward
  case ordered =>
    refine List.pairwise_append.mpr ⟨scanned.ordered, List.pairwise_singleton _ _, ?_⟩
    intro discovery member last only
    exact List.mem_singleton.mp only ▸ scanned.behind discovery member
  case within =>
    intro place discovery is
    rcases getElem?_append_singleton_eq_some.mp is with before | ⟨rfl, rfl⟩
    · exact scanned.within place discovery before
    · rw [List.length_cons, List.length_map] at known
      exact Nat.lt_succ_of_le known

end Scanned

/-- The subroutine that a block calls is found. -/
theorem yields_callee (calls : graph.Calls caller entry continuation) :
    (callee caller).Yields graph entry graph := by
  obtain ⟨node, first, second, known, edges, -, same⟩ := calls
  have read : (graph.node caller >>= (·.callEdges)) = .ok (first, second) :=
    bind_eq_ok.mpr ⟨node, node_of_known known, edges⟩
  exact Action.yields_bind.mpr ⟨_, graph, Action.yields_read.mpr ⟨read, rfl⟩,
    Action.yields_pure.mpr ⟨same, rfl⟩⟩

section Step

variable {node : Node} {identifier last : SubroutineId} {count : Nat}

/-- A block that does not call, or belongs to another subroutine, is passed by. -/
theorem yields_markCallee_of_other (known : graph.node? block = some node)
    (other : node.flags.callsSubroutine = true → node.subroutine ≠ some identifier) :
    (markCallee identifier last block).Yields graph last graph := by
  unfold markCallee
  refine Action.yields_bind.mpr ⟨node, graph, Action.yields_read.mpr ⟨node_of_known known, rfl⟩, ?_⟩
  have passed : (node.flags.callsSubroutine && node.subroutine = some identifier) ≠ true := by
    simpa using other
  rw [if_neg passed]
  exact Action.yields_pure.mpr ⟨rfl, rfl⟩

/-- The subroutine that a block calls is marked if its entry belongs to no subroutine. -/
theorem yields_markCallee_of_calls (calls : graph.Calls caller entry continuation)
    (belongs : graph.subroutineOf caller = some identifier) (known : graph.node? entry = some node)
    {value : SubroutineId} (yields : (if node.subroutine.isNone then do
        let _ ← mark entry last.next
        pure last.next
      else pure last : Action FlowGraph SubroutineId).Yields graph value after) :
    (markCallee identifier last caller).Yields graph value after := by
  have called := yields_callee calls
  obtain ⟨calling, first, second, found, edges, -⟩ := calls
  have looked : (calling.flags.callsSubroutine && calling.subroutine = some identifier) = true := by
    rw [subroutineOf, found, Option.bind_some] at belongs
    simp [callsSubroutine_of_callEdges edges, belongs]
  unfold markCallee
  refine Action.yields_bind.mpr
    ⟨calling, graph, Action.yields_read.mpr ⟨node_of_known found, rfl⟩, ?_⟩
  rw [if_pos looked]
  refine Action.yields_bind.mpr ⟨entry, graph, called, ?_⟩
  exact Action.yields_bind.mpr
    ⟨node, graph, Action.yields_read.mpr ⟨node_of_known known, rfl⟩, yields⟩

end Step

namespace Scanned

/-- The scan goes on past a site where nothing is called that belongs to no subroutine. -/
theorem pass (scanned : graph.Scanned first position found current)
    (handled : ∀ entry, position ∈ graph.callSites current entry →
      current.subroutineOf entry ≠ none) :
    graph.Scanned first ⟨position.subroutine, position.place + 1⟩ found current := by
  refine scanned.advance (Site.lt_succ_iff.mpr le_rfl).le fun entry site calls here before => ?_
  obtain rfl := le_antisymm (Site.lt_succ_iff.mp before) here
  exact handled entry calls

/-- Looking at a block that calls carries the scan on to the next one. -/
theorem exists_yields_of_calls (scanned : graph.Scanned first position found current)
    (consistent : graph.IsConsistent) (here : graph.blocks[position.place]? = some caller)
    (belongs : current.subroutineOf caller = some ⟨position.subroutine⟩)
    (calls : graph.Calls caller entry continuation) (known : (graph.node? entry).isSome) :
    ∃ more after, (markCallee ⟨position.subroutine⟩ ⟨found.length + 1⟩ caller).Yields current
        ⟨more.length + 1⟩ after ∧
      graph.Scanned first ⟨position.subroutine, position.place + 1⟩ more after := by
  have assigns := scanned.marked.assigns
  have currentCalls : current.Calls caller entry continuation := assigns.calls_eq ▸ calls
  obtain ⟨node, currentKnown⟩ :=
    Option.isSome_iff_exists.mp ((assigns.isSome_node? entry).trans known)
  have subroutine : current.subroutineOf entry = node.subroutine := by
    rw [subroutineOf, currentKnown, Option.bind_some]
  cases unassigned : node.subroutine with
  | none =>
    have fresh := subroutine.trans unassigned
    obtain ⟨count, after, marks, more⟩ :=
      scanned.marked.exists_yields_mark consistent known fresh
    rw [List.length_cons, List.length_map] at marks
    refine ⟨found ++ [⟨entry, position⟩], after,
      yields_markCallee_of_calls currentCalls belongs currentKnown ?_,
      scanned.discover here belongs calls fresh more⟩
    rw [if_pos (by simp [unassigned]), List.length_append]
    exact Action.yields_bind.mpr ⟨count, after, marks, Action.yields_pure.mpr ⟨rfl, rfl⟩⟩
  | some other =>
    refine ⟨found, current, yields_markCallee_of_calls currentCalls belongs currentKnown ?_, ?_⟩
    · rw [if_neg (by simp [unassigned])]
      exact Action.yields_pure.mpr ⟨rfl, rfl⟩
    · refine scanned.pass fun target member => ?_
      obtain ⟨same, _, placed, -, called⟩ := member
      obtain rfl := Option.some.inj (here.symm.trans placed)
      obtain ⟨rfl, -⟩ := calls.unique called
      rw [subroutine, unassigned]
      exact Option.some_ne_none other

/-- Looking at a block carries the scan on to the next one. -/
theorem exists_yields_markCallee (scanned : graph.Scanned first position found current)
    (consistent : graph.IsConsistent) (here : graph.blocks[position.place]? = some block) :
    ∃ more after, (markCallee ⟨position.subroutine⟩ ⟨found.length + 1⟩ block).Yields current
        ⟨more.length + 1⟩ after ∧
      graph.Scanned first ⟨position.subroutine, position.place + 1⟩ more after := by
  have assigns := scanned.marked.assigns
  have blockKnown := consistent.blocks block (Array.mem_of_getElem? here)
  rw [← assigns.isSome_node?] at blockKnown
  obtain ⟨node, known⟩ := Option.isSome_iff_exists.mp blockKnown
  by_cases looked : (∃ entry continuation, graph.Calls block entry continuation) ∧
      current.subroutineOf block = some ⟨position.subroutine⟩
  · obtain ⟨⟨entry, continuation, calls⟩, belongs⟩ := looked
    exact scanned.exists_yields_of_calls consistent here belongs calls
      (consistent.isSome_of_yields_callee (yields_callee calls))
  · refine ⟨found, current, yields_markCallee_of_other known fun calls belongs => looked ?_, ?_⟩
    · obtain ⟨⟨toNext, toEntry⟩, edges⟩ :=
        (assigns.isConsistent consistent).exists_callEdges known calls
      refine ⟨⟨toEntry.successor, toNext.successor, ?_⟩, ?_⟩
      · rw [← assigns.calls_eq]
        exact ⟨node, toNext, toEntry, known, edges, rfl, rfl⟩
      · rw [subroutineOf, known]
        exact belongs
    · refine scanned.pass fun entry member => ?_
      obtain ⟨caller, continuation, placed, belongs, called⟩ := member
      obtain rfl := Option.some.inj (here.symm.trans placed)
      exact absurd ⟨⟨entry, continuation, called⟩, belongs⟩ looked

/-- Looking at the blocks of one subroutine carries the scan on to the next one. -/
theorem exists_yields_markCallees (scanned : graph.Scanned first ⟨number, 0⟩ found current)
    (consistent : graph.IsConsistent) :
    ∃ more after, (markCallees graph.blocks.toList ⟨found.length + 1⟩ ⟨number⟩).Yields current
        ⟨more.length + 1⟩ after ∧
      graph.Scanned first ⟨number + 1, 0⟩ more after := by
  have onward (place : Nat) : (⟨number, place⟩ : Site) ≤ ⟨number + 1, 0⟩ :=
    Site.le_iff.mpr (.inl (Nat.lt_succ_self number))
  unfold markCallees
  split
  · let holds (done : List Label) (last : SubroutineId) (reached : FlowGraph) : Prop :=
      ∃ more : List Discovery, last = ⟨more.length + 1⟩ ∧
        graph.Scanned first ⟨number, done.length⟩ more reached
    have steps (done : List Label) (block : Label) (rest : List Label) (last : SubroutineId)
        (reached : FlowGraph) (split : graph.blocks.toList = done ++ block :: rest)
        (held : holds done last reached) :
        ∃ next after, (markCallee ⟨number⟩ last block).Yields reached next after ∧
          holds (done ++ [block]) next after := by
      obtain ⟨more, rfl, scanned⟩ := held
      have here : graph.blocks[done.length]? = some block := by
        rw [← Array.getElem?_toList, split]
        simp
      obtain ⟨others, after, yields, carried⟩ := scanned.exists_yields_markCallee consistent here
      exact ⟨_, after, yields, others, rfl, by simpa using carried⟩
    obtain ⟨last, after, yields, more, rfl, complete⟩ :=
      Action.exists_yields_fold holds steps ⟨found, rfl, scanned⟩
    refine ⟨more, after, yields, complete.advance (onward _) ?_⟩
    rintro entry ⟨subroutine, place⟩ ⟨caller, continuation, placed, -, -⟩ here before
    have inside : place < graph.blocks.size := (Array.getElem?_eq_some_iff.mp placed).1
    rw [Site.le_iff, Array.length_toList] at here
    rw [Site.lt_iff] at before
    simp only at here before
    omega
  · rename_i beyond
    refine ⟨found, current, Action.yields_pure.mpr ⟨rfl, rfl⟩, scanned.advance (onward 0) ?_⟩
    rintro entry ⟨subroutine, place⟩ ⟨caller, continuation, -, belongs, -⟩ here before
    have known := (scanned.marked.le_length belongs).2
    rw [List.length_cons, List.length_map] at known
    rw [Site.le_iff] at here
    simp only at here beyond known
    omega

/-- Looking at the blocks of all subroutines leaves no call to be looked at. -/
theorem exists_yields_subroutineIds (scanned : graph.Scanned first ⟨1, 0⟩ found current)
    (consistent : graph.IsConsistent) (labels : Nat) :
    ∃ more after, (Action.fold (markCallees graph.blocks.toList) ⟨found.length + 1⟩
        ((List.range' 1 (labels + 1)).map SubroutineId.mk)).Yields current ⟨more.length + 1⟩ after ∧
      graph.Scanned first ⟨labels + 2, 0⟩ more after := by
  let holds (done : List SubroutineId) (last : SubroutineId) (reached : FlowGraph) : Prop :=
    ∃ more : List Discovery, last = ⟨more.length + 1⟩ ∧
      graph.Scanned first ⟨done.length + 1, 0⟩ more reached
  have steps (done : List SubroutineId) (identifier : SubroutineId) (rest : List SubroutineId)
      (last : SubroutineId) (reached : FlowGraph)
      (split : (List.range' 1 (labels + 1)).map SubroutineId.mk = done ++ identifier :: rest)
      (held : holds done last reached) :
      ∃ next after, (markCallees graph.blocks.toList last identifier).Yields reached next after ∧
        holds (done ++ [identifier]) next after := by
    obtain ⟨more, rfl, scanned⟩ := held
    obtain rfl : identifier = ⟨done.length + 1⟩ := by
      have here : ((List.range' 1 (labels + 1)).map SubroutineId.mk)[done.length]?
          = some identifier := by
        rw [split]
        simp
      rw [List.getElem?_map] at here
      obtain ⟨number, counted, rfl⟩ := Option.map_eq_some_iff.mp here
      obtain ⟨_, rfl⟩ := List.getElem?_eq_some_iff.mp counted
      rw [List.getElem_range', Nat.one_mul, Nat.add_comm]
    obtain ⟨others, after, yields, carried⟩ := scanned.exists_yields_markCallees consistent
    exact ⟨_, after, yields, others, rfl, by simpa using carried⟩
  obtain ⟨last, after, yields, more, rfl, complete⟩ :=
    Action.exists_yields_fold holds steps ⟨found, rfl, scanned⟩
  exact ⟨more, after, yields, by simpa using complete⟩

/-- Whatever is called by a block of a subroutine belongs to one. -/
theorem ne_none_of_calls (scanned : graph.Scanned first ⟨graph.nodes.size + 2, 0⟩ found current)
    (calls : site ∈ graph.callSites current entry) : current.subroutineOf entry ≠ none := by
  refine scanned.handled entry site calls (Site.lt_iff.mpr (.inl ?_))
  obtain ⟨caller, continuation, -, belongs, -⟩ := calls
  have counted := (scanned.marked.le_length belongs).2
  exact (counted.trans scanned.marked.length_le).trans_lt (Nat.lt_add_of_pos_right (by decide))

/-- The entry of a subroutine besides the body of the method was found at a call. -/
theorem exists_discovery (scanned : graph.Scanned first position found current)
    (here : (first :: found.map Discovery.entry)[place + 1]? = some entry) :
    ∃ site, IsLeast (graph.callSites current entry) site ∧ site.subroutine < place + 2 := by
  rw [List.getElem?_cons_succ, List.getElem?_map] at here
  obtain ⟨discovery, is, rfl⟩ := Option.map_eq_some_iff.mp here
  exact ⟨discovery.site, scanned.earliest discovery (List.mem_of_getElem? is),
    scanned.within place discovery is⟩

/-- The first block reaches the entries of all subroutines. -/
theorem reachable_of_entry (scanned : graph.Scanned first position found current)
    (begins : graph.firstBlock? = some first)
    (here : (first :: found.map Discovery.entry)[place]? = some entry) : graph.Reachable entry := by
  -- The block that calls an entry belongs to a subroutine found before.
  induction place using Nat.strong_induction_on generalizing entry with
  | _ place ih =>
    cases place with
    | zero =>
      obtain rfl := Option.some.inj here
      exact ⟨first, begins, .refl⟩
    | succ place =>
      obtain ⟨site, ⟨⟨caller, continuation, -, belongs, calls⟩, -⟩, earlier⟩ :=
        scanned.exists_discovery here
      obtain ⟨before, same, ⟨other, found, reaches⟩, -⟩ :=
        (scanned.marked.belongs caller site.subroutine).mp belongs
      obtain ⟨edge, member, rfl⟩ := calls.leads
      exact ((ih before (by omega) found).of_reaches reaches).tail member

/-- The blocks that belong to subroutines are those that the first block reaches. -/
theorem ne_none_iff (scanned : graph.Scanned first ⟨graph.nodes.size + 2, 0⟩ found current)
    (begins : graph.firstBlock? = some first) (consistent : graph.IsConsistent)
    (placed : ∀ label node, graph.node? label = some node → node.flags.callsSubroutine = true →
      label ∈ graph.blocks) : current.subroutineOf label ≠ none ↔ graph.Reachable label := by
  have marked := scanned.marked
  constructor
  · intro assigned
    obtain ⟨entry, member, reaches⟩ := marked.ne_none_iff.mp assigned
    obtain ⟨place, here⟩ := List.mem_iff_getElem?.mp member
    exact (scanned.reachable_of_entry begins here).of_reaches reaches
  · rintro ⟨start, same, path⟩
    obtain rfl := Option.some.inj (begins.symm.trans same)
    induction path with
    | refl => exact marked.ne_none_iff.mpr ⟨first, List.mem_cons_self, .refl⟩
    | @tail block next _ leads ih =>
      rcases consistent.flows_or_calls leads with flows | ⟨continuation, calls⟩
      · obtain ⟨entry, member, reaches⟩ := marked.ne_none_iff.mp ih
        exact marked.ne_none_iff.mpr ⟨entry, member, reaches.tail flows⟩
      · obtain ⟨⟨number⟩, belongs⟩ := Option.ne_none_iff_exists'.mp ih
        obtain ⟨node, _, _, known, edges, -⟩ := id calls
        have member := placed block node known (callsSubroutine_of_callEdges edges)
        obtain ⟨place, here⟩ := Array.mem_iff_getElem?.mp member
        have called : (⟨number, place⟩ : Site) ∈ graph.callSites current next :=
          ⟨block, continuation, here, belongs, calls⟩
        exact scanned.ne_none_of_calls called

/-- A scan that has looked at all calls has divided the blocks among the subroutines. -/
theorem partitions (scanned : graph.Scanned first ⟨graph.nodes.size + 2, 0⟩ found current)
    (begins : graph.firstBlock? = some first) (consistent : graph.IsConsistent)
    (placed : ∀ label node, graph.node? label = some node → node.flags.callsSubroutine = true →
      label ∈ graph.blocks) :
    graph.Partitions (first :: found.map Discovery.entry) current := by
  have marked := scanned.marked
  constructor
  case begins => exact begins.symm
  case distinct => exact marked.distinct
  case belongs => exact marked.belongs
  case own => exact fun place entry here => marked.own here
  case unassigned =>
    intro label
    rw [← scanned.ne_none_iff begins consistent placed, not_not]
  case called =>
    intro place entry here
    obtain ⟨site, first, earlier⟩ := scanned.exists_discovery here
    exact ⟨site, first.1, earlier⟩
  case ordered =>
    rw [List.tail_cons, List.pairwise_map]
    refine scanned.ordered.imp_of_mem fun {one other} member memberToo before => ?_
    exact ⟨_, _, scanned.earliest one member, scanned.earliest other memberToo, before⟩
  case few =>
    intro targets all
    have called : found.map Discovery.entry ⊆ targets := by
      intro entry member
      obtain ⟨discovery, is, rfl⟩ := List.mem_map.mp member
      obtain ⟨caller, continuation, -, -, calls⟩ := (scanned.earliest discovery is).1
      exact all caller _ continuation calls
    have distinct := (List.nodup_cons.mp marked.distinct).2
    exact Nat.succ_le_succ (List.Nodup.subperm distinct called).length_le

end Scanned

/-- Blocks are divided in the same way if they belong to the same subroutines. -/
theorem Partitions.of_subroutineOf_eq (partitions : graph.Partitions entries current)
    (same : ∀ label, after.subroutineOf label = current.subroutineOf label) :
    graph.Partitions entries after := by
  have sites (entry : Label) : graph.callSites after entry = graph.callSites current entry := by
    simp only [callSites, same]
  exact
    { begins := partitions.begins
      distinct := partitions.distinct
      belongs := by simpa only [same] using partitions.belongs
      own := by simpa only [same] using partitions.own
      unassigned := by simpa only [same] using partitions.unassigned
      called := by simpa only [sites] using partitions.called
      ordered := by simpa only [sites] using partitions.ordered
      few := partitions.few }

/-- The analysis of subroutines divides the blocks among the subroutines that it counts. -/
theorem partitions_analyzeSubroutines (begins : graph.firstBlock? = some first)
    (consistent : graph.IsConsistent) (fresh : ∀ label, graph.subroutineOf label = none)
    (placed : ∀ label node, graph.node? label = some node → node.flags.callsSubroutine = true →
      label ∈ graph.blocks) :
    ∃ entries after, analyzeSubroutines.Yields graph entries.length after ∧
      graph.Partitions entries after := by
  have firstKnown := consistent.blocks first (Array.mem_of_getElem? begins)
  obtain ⟨count, marked, marks, isMarked⟩ :=
    (Marked.start fresh).exists_yields_mark consistent firstKnown (fresh first)
  have assigns := isMarked.assigns
  obtain ⟨found, assigned, folds, scanned⟩ :=
    (Scanned.start isMarked).exists_yields_subroutineIds consistent graph.nodes.size
  have assignedConsistent := scanned.marked.assigns.isConsistent consistent
  have sameBlocks := congrArg Array.toList scanned.marked.assigns.blocks
  obtain ⟨_, after, closes⟩ :=
    (IsConsistent.failsOnly_closeCalls ⟨assignedConsistent, sameBlocks⟩).exists_yields
  refine ⟨first :: found.map Discovery.entry, after, ?_, ?_⟩
  · unfold analyzeSubroutines
    refine Action.yields_bind.mpr ⟨_, graph, Action.yields_inspect.mpr ⟨begins, rfl⟩, ?_⟩
    refine Action.yields_bind.mpr ⟨count, marked, marks, ?_⟩
    refine Action.yields_bind.mpr ⟨_, marked,
      Action.yields_inspect.mpr ⟨congrArg Array.toList assigns.blocks, rfl⟩, ?_⟩
    refine Action.yields_bind.mpr ⟨subroutineIds marked, marked,
      Action.yields_inspect.mpr ⟨rfl, rfl⟩, ?_⟩
    rw [subroutineIds, assigns.size_eq]
    refine Action.yields_bind.mpr ⟨_, assigned, folds, ?_⟩
    refine Action.yields_bind.mpr ⟨_, after, closes, Action.yields_pure.mpr ⟨?_, rfl⟩⟩
    rw [List.length_cons, List.length_map]
  · have adds := addsReturns_of_forEach assignedConsistent.exclusive closes
    exact (scanned.partitions begins consistent placed).of_subroutineOf_eq adds.subroutineOf_eq

/-- What holds of each label that was created holds of each label that is known. -/
theorem forall_known_of_forall (graph : FlowGraph) (claim : Label → Node → Prop)
    (rows : ∀ index < graph.nodes.size, ∀ node ∈ graph.node? ⟨index⟩, claim ⟨index⟩ node) :
    ∀ label node, graph.node? label = some node → claim label node :=
  fun label node known => rows label.index (Array.getElem?_eq_some_iff.mp known).1 node known

/-- A graph is consistent if that can be seen at each label. -/
theorem IsConsistent.of_forall (blocks : ∀ block ∈ graph.blocks.toList, (graph.node? block).isSome)
    (successors : ∀ index < graph.nodes.size, ∀ node ∈ graph.node? ⟨index⟩,
      ∀ edge ∈ node.edges, (graph.node? edge.successor).isSome)
    (callers : ∀ index < graph.nodes.size, ∀ node ∈ graph.node? ⟨index⟩,
      node.flags.callsSubroutine = true →
        2 ≤ node.edges.length ∧ node.flags.endsSubroutine = false) : graph.IsConsistent := by
  have calling := forall_known_of_forall graph (fun _ node => node.flags.callsSubroutine = true →
    2 ≤ node.edges.length ∧ node.flags.endsSubroutine = false) callers
  constructor
  case blocks => exact fun block member => blocks block (Array.mem_toList_iff.mpr member)
  case successors =>
    intro label edge member
    cases found : graph.node? label with
    | none => simp [edgesOf, found] at member
    | some node =>
      exact forall_known_of_forall graph
        (fun _ node => ∀ edge ∈ node.edges, (graph.node? edge.successor).isSome) successors
        label node found edge (edgesOf_of_known found ▸ member)
  case callers =>
    intro label node found calls
    have long := (calling label node found calls).1
    rcases edges : node.edges with _ | ⟨continuation, _ | ⟨entry, others⟩⟩
    · simp [edges] at long
    · simp [edges] at long
    · exact ⟨continuation, entry, others, rfl⟩
  case exclusive => exact fun label node found calls => (calling label node found calls).2

end FlowGraph

namespace Assembler

open FlowGraph

/-- The body of the method calls two subroutines, the first of which calls the second. -/
theorem partitions_nestedCalls :
    ∃ entries after, analyzeSubroutines.Yields nestedCalls.closeBlock.graph 3 after ∧
      nestedCalls.closeBlock.graph.Partitions entries after ∧ entries.length = 3 ∧
      after.subroutineOf ⟨1⟩ = some ⟨2⟩ ∧ after.subroutineOf ⟨3⟩ = some ⟨3⟩ := by
  have begins : nestedCalls.closeBlock.graph.firstBlock? = some ⟨0⟩ := by decide +kernel
  have consistent : nestedCalls.closeBlock.graph.IsConsistent :=
    .of_forall (by decide +kernel) (by decide +kernel) (by decide +kernel)
  have fresh (label : Label) : nestedCalls.closeBlock.graph.subroutineOf label = none := by
    rw [subroutineOf, Option.bind_eq_none_iff]
    exact forall_known_of_forall _ (fun _ node => node.subroutine = none) (by decide +kernel) label
  have placed := forall_known_of_forall nestedCalls.closeBlock.graph (fun label node =>
    node.flags.callsSubroutine = true → label ∈ nestedCalls.closeBlock.graph.blocks)
    (by decide +kernel)
  obtain ⟨entries, after, yields, partitions⟩ :=
    partitions_analyzeSubroutines begins consistent fresh placed
  have counted : (analyzeSubroutines.run nestedCalls.closeBlock.graph).answer = .ok 3 := by
    decide +kernel
  have length : entries.length = 3 := Except.ok.inj (yields.1.symm.trans counted)
  refine ⟨entries, after, length ▸ yields, partitions, length, ?_⟩
  rw [← yields.2]
  decide +kernel

end Assembler

end MethodBody
