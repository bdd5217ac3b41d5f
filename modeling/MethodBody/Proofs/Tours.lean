import MethodBody.Proofs.Calls
import Mathlib.Data.List.Dedup

/-!
# Tours of the blocks that a call leads to

The walk for a call is taken on the graph as it was, and the edges are added when the walk has
ended. A tour adds an edge as soon as it comes to a return, follows the edges that it has added, and
visits the pending blocks in any order (`Tour.Visits`). Whatever the order, a tour goes on until
nothing is pending, it visits each block once, and in the end it has added the edges that the walk
finds (`Tour.Covers.eq_of_finished`).
-/

namespace MethodBody

/-- How far a tour has come. -/
structure Tour where
  /-- The graph, with the edges added so far. -/
  graph : FlowGraph
  /-- The blocks entered and not visited yet. -/
  pending : List Label
  /-- The blocks entered. -/
  entered : List Label
  /-- The number of edges added. -/
  added : Nat

namespace Tour

open FlowGraph

/-- A tour begins at the entry. -/
def start (graph : FlowGraph) (entry : Label) : Tour := ⟨graph, [entry], [entry], 0⟩

/-- Any pending block is visited. It gets its edge if it returns from another subroutine, and the
successors that it has then are entered in any order, but for those that were entered before. -/
inductive Visits (subroutine : Option SubroutineId) (continuation : Label) : Tour → Tour → Prop
  /-- The block stands anywhere among the pending ones. -/
  | visit {graph : FlowGraph} {block : Label} {front back entered newcomers labels : List Label}
    {added : Nat} {node : Node} (known : graph.node? block = some node)
    (body : (node.addReturn subroutine continuation).bodySuccessors = .ok labels)
    (distinct : newcomers.Nodup)
    (fresh : ∀ label, label ∈ newcomers ↔ label ∈ labels ∧ label ∉ entered) :
    Visits subroutine continuation ⟨graph, front ++ block :: back, entered, added⟩
      ⟨graph.update block (·.addReturn subroutine continuation), newcomers ++ (front ++ back),
        newcomers ++ entered, if node.returnsFromOther subroutine then added + 1 else added⟩

variable {graph : FlowGraph} {caller entry continuation block next : Label} {visited : List Label}
  {tour before after : Tour} {node : Node} {labels : List Label}

/-- A tour of the blocks that a call leads to has visited some of them. -/
structure Covers (graph : FlowGraph) (caller entry continuation : Label) (visited : List Label)
    (tour : Tour) : Prop where
  /-- The tour began at the entry. -/
  begins : entry ∈ tour.entered
  /-- The blocks entered are those that are pending and those that were visited. -/
  entered : tour.entered.Perm (tour.pending ++ visited)
  /-- No block was entered twice. -/
  distinct : tour.entered.Nodup
  /-- Control gets from the entry to each block entered. -/
  reached : ∀ label ∈ tour.entered,
    Relation.ReflTransGen (graph.FlowsBack caller continuation) entry label
  /-- Wherever control gets from a block that was visited has been entered. -/
  left : ∀ block ∈ visited, ∀ next, graph.FlowsBack caller continuation block next →
    next ∈ tour.entered
  /-- The blocks of the graph are the same. -/
  blocks : tour.graph.blocks = graph.blocks
  /-- A block that was visited has its edge if it returns from another subroutine, and nothing else
  has changed. -/
  nodes : ∀ label, tour.graph.node? label =
    if label ∈ visited then
      (graph.node? label).map (·.addReturn (graph.subroutineOf caller) continuation)
    else graph.node? label
  /-- The edges are counted. -/
  added : tour.added = (visited.filter fun block =>
    (graph.node? block).any (·.returnsFromOther (graph.subroutineOf caller))).length

/-- Control gets from a block to its successors, once it has its edge. -/
theorem flowsBack_iff (exclusive : graph.Exclusive) (known : graph.node? block = some node)
    (body : (node.addReturn (graph.subroutineOf caller) continuation).bodySuccessors = .ok labels) :
    graph.FlowsBack caller continuation block next ↔ next ∈ labels := by
  have step : (graph.returnWalk (graph.subroutineOf caller) continuation).next block
      = .ok labels := by
    simpa [Walk.next, returnWalk, FlowGraph.node, known, bind, Except.bind] using body
  rw [← leads_returnWalk_iff exclusive, Walk.Leads, step]
  simp only [Except.ok.injEq, exists_eq_left']

/-- At first, only the entry is pending. -/
theorem covers_start (graph : FlowGraph) (caller entry continuation : Label) :
    Covers graph caller entry continuation [] (start graph entry) where
  begins := List.mem_singleton_self _
  entered := List.Perm.refl _
  distinct := by simp [start]
  reached label member := List.mem_singleton.mp member ▸ .refl
  left := by simp
  blocks := rfl
  nodes := by simp [start]
  added := rfl

/-- A pending block that is visited joins those that were visited. -/
theorem Covers.visit (exclusive : graph.Exclusive)
    (covers : Covers graph caller entry continuation visited before)
    (visits : Visits (graph.subroutineOf caller) continuation before after) :
    ∃ block, Covers graph caller entry continuation (block :: visited) after := by
  obtain ⟨known, body, distinct, fresh⟩ := visits
  rename_i current block front back entered newcomers labels added node
  have perm : entered.Perm (block :: (front ++ back ++ visited)) := by
    refine covers.entered.trans ?_
    simp only [List.append_assoc, List.cons_append]
    exact List.perm_middle
  have apart := perm.nodup_iff.mp covers.distinct
  have unvisited : block ∉ visited := fun member =>
    (List.nodup_cons.mp apart).1 (List.mem_append_right _ member)
  have here : block ∈ entered := perm.mem_iff.mpr List.mem_cons_self
  have was : graph.node? block = some node := by
    rw [← known, covers.nodes block, if_neg unvisited]
  refine ⟨block, ?_⟩
  constructor
  case begins => exact List.mem_append_right _ covers.begins
  case entered =>
    simp only [List.append_assoc] at perm ⊢
    refine (perm.append_left newcomers).trans (List.Perm.append_left newcomers ?_)
    rw [← List.append_assoc, ← List.append_assoc]
    exact List.perm_middle.symm
  case distinct =>
    refine List.nodup_append.mpr ⟨distinct, covers.distinct, ?_⟩
    rintro label new _ old rfl
    exact ((fresh label).mp new).2 old
  case reached =>
    intro label member
    rcases List.mem_append.mp member with new | old
    · exact (covers.reached block here).tail
        ((flowsBack_iff exclusive was body).mpr ((fresh label).mp new).1)
    · exact covers.reached label old
  case left =>
    intro other member next flows
    rcases List.mem_cons.mp member with rfl | earlier
    · have follows := (flowsBack_iff exclusive was body).mp flows
      by_cases old : next ∈ entered
      · exact List.mem_append_right _ old
      · exact List.mem_append_left _ ((fresh next).mpr ⟨follows, old⟩)
    · exact List.mem_append_right _ (covers.left other earlier next flows)
  case blocks => exact covers.blocks
  case nodes =>
    intro label
    rw [node?_update, covers.nodes label]
    by_cases same : block = label
    · subst same
      rw [if_pos rfl, if_neg unvisited, if_pos List.mem_cons_self]
    · rw [if_neg same]
      simp only [List.mem_cons, Ne.symm same, false_or]
  case added =>
    have counted : added = _ := covers.added
    rw [List.filter_cons, was, Option.any_some]
    split
    · rw [List.length_cons, counted]
    · exact counted

/-- All tours from the entry cover the blocks that they visit. -/
theorem exists_covers (exclusive : graph.Exclusive)
    (path : Relation.ReflTransGen (Visits (graph.subroutineOf caller) continuation)
      (start graph entry) tour) :
    ∃ visited, Covers graph caller entry continuation visited tour := by
  induction path with
  | refl => exact ⟨[], covers_start graph caller entry continuation⟩
  | tail _ visits ih =>
    obtain ⟨visited, covers⟩ := ih
    obtain ⟨block, more⟩ := covers.visit exclusive visits
    exact ⟨block :: visited, more⟩

/-- When nothing is pending, all blocks that control gets to have been visited. -/
theorem Covers.mem_visited_iff (covers : Covers graph caller entry continuation visited tour)
    (ended : tour.pending = []) :
    block ∈ visited ↔ Relation.ReflTransGen (graph.FlowsBack caller continuation) entry block := by
  have all (label : Label) : label ∈ tour.entered ↔ label ∈ visited := by
    rw [covers.entered.mem_iff, ended, List.nil_append]
  constructor
  · exact fun member => covers.reached block ((all block).mpr member)
  · intro path
    induction path with
    | refl => exact (all entry).mp covers.begins
    | tail _ flows ih => exact (all _).mp (covers.left _ ih _ flows)

/-- No block is visited twice. -/
theorem Covers.nodup_visited (covers : Covers graph caller entry continuation visited tour) :
    visited.Nodup :=
  (List.nodup_append.mp (covers.entered.nodup_iff.mp covers.distinct)).2.1

section Complete

variable (exclusive : graph.Exclusive) (complete : ((graph.returnWalk (graph.subroutineOf caller)
  continuation).run entry).failure = none)

include exclusive complete

/-- A tour in which nothing is pending has added the edges that the walk finds. -/
theorem Covers.eq_of_finished (covers : Covers graph caller entry continuation visited tour)
    (ended : tour.pending = []) :
    tour.graph = graph.updateAll (graph.returns (graph.subroutineOf caller) continuation entry)
        (·.addReturn (graph.subroutineOf caller) continuation) ∧
      tour.added = (graph.returns (graph.subroutineOf caller) continuation entry).length := by
  have chosen (block : Label) :
      block ∈ graph.returns (graph.subroutineOf caller) continuation entry ↔
        block ∈ visited ∧
          (graph.node? block).any (·.returnsFromOther (graph.subroutineOf caller)) = true := by
    rw [mem_returns_iff exclusive complete, Gains, covers.mem_visited_iff ended, Option.any_eq_true]
    exact And.comm
  have once := covers.nodup_visited
  constructor
  · refine eq_of_node? (covers.blocks.trans ?_) fun label => ?_
    · exact (graph.blocks_updateAll _ _).symm
    · rw [covers.nodes, node?_updateAll (nodup_returns complete)]
      by_cases member : label ∈ visited
      · cases known : graph.node? label with
        | none => simp
        | some node =>
          by_cases returns : node.returnsFromOther (graph.subroutineOf caller) = true
          · rw [if_pos member, if_pos ((chosen label).mpr ⟨member, by simp [known, returns]⟩)]
          · have outside := mt (chosen label).mp (by simp [known, returns])
            rw [if_pos member, if_neg outside, Option.map_some, Node.addReturn, if_neg returns]
      · rw [if_neg member, if_neg (mt (chosen label).mp fun both => member both.1)]
  · rw [covers.added]
    refine ((List.perm_ext_iff_of_nodup (once.filter _) (nodup_returns complete)).mpr
      fun label => ?_).length_eq
    rw [List.mem_filter, chosen]

/-- No more blocks are visited than there are labels. -/
theorem Covers.length_le (covers : Covers graph caller entry continuation visited tour) :
    visited.length ≤ graph.nodes.size := by
  refine length_le_of_known covers.nodup_visited fun block member => ?_
  have reached := covers.reached block (covers.entered.mem_iff.mpr (List.mem_append_right _ member))
  have comes := (mem_visited_returnWalk_iff exclusive complete).mpr reached
  obtain ⟨items, found, -⟩ := (Walk.explores_run complete).closed block comes
  obtain ⟨node, is, -⟩ := bind_eq_ok.mp found
  exact Option.isSome_iff_exists.mpr ⟨node, known_of_node is⟩

/-- As long as something is pending, a tour can go on. -/
theorem Covers.exists_visits (covers : Covers graph caller entry continuation visited tour)
    (unfinished : tour.pending ≠ []) :
    ∃ after, Visits (graph.subroutineOf caller) continuation tour after := by
  obtain ⟨current, pending, entered, added⟩ := tour
  obtain ⟨block, back, rfl⟩ := List.exists_cons_of_ne_nil unfinished
  have inside : block ∈ entered :=
    covers.entered.mem_iff.mpr (List.mem_append_left _ List.mem_cons_self)
  have comes := (mem_visited_returnWalk_iff exclusive complete).mpr (covers.reached block inside)
  obtain ⟨labels, found, -⟩ := (Walk.explores_run complete).closed block comes
  obtain ⟨node, is, body⟩ := bind_eq_ok.mp found
  have apart := covers.entered.nodup_iff.mp covers.distinct
  have unvisited : block ∉ visited := fun member =>
    (List.nodup_append.mp apart).2.2 block List.mem_cons_self block member rfl
  have known : current.node? block = some node := by
    rw [covers.nodes block, if_neg unvisited]
    exact known_of_node is
  have fresh (label : Label) : label ∈ (labels.filter (· ∉ entered)).dedup ↔
      label ∈ labels ∧ label ∉ entered := by
    rw [List.mem_dedup, List.mem_filter, decide_eq_true_eq]
  have anywhere (front : List Label) : ∃ after, Visits (graph.subroutineOf caller) continuation
      ⟨current, front ++ block :: back, entered, added⟩ after :=
    ⟨_, .visit known body (List.nodup_dedup _) fresh⟩
  exact anywhere []

/-- A tour can always be finished. -/
theorem Covers.exists_finished (covers : Covers graph caller entry continuation visited tour) :
    ∃ last, Relation.ReflTransGen (Visits (graph.subroutineOf caller) continuation) tour last ∧
      last.pending = [] := by
  induction left : graph.nodes.size - visited.length generalizing visited tour with
  | zero =>
    -- All labels have been visited, so nothing can be pending.
    refine ⟨tour, .refl, ?_⟩
    by_contra unfinished
    obtain ⟨after, visits⟩ := covers.exists_visits exclusive complete unfinished
    obtain ⟨block, more⟩ := covers.visit exclusive visits
    have fewer := more.length_le exclusive complete
    rw [List.length_cons] at fewer
    omega
  | succ left ih =>
    by_cases ended : tour.pending = []
    · exact ⟨tour, .refl, ended⟩
    · obtain ⟨after, visits⟩ := covers.exists_visits exclusive complete ended
      obtain ⟨block, more⟩ := covers.visit exclusive visits
      obtain ⟨last, path, ended⟩ := ih more (by rw [List.length_cons]; omega)
      exact ⟨last, .head visits path, ended⟩

/-- No tour goes on for ever. -/
theorem not_exists_endless : ¬∃ tours : Nat → Tour, tours 0 = start graph entry ∧
    ∀ place, Visits (graph.subroutineOf caller) continuation (tours place) (tours (place + 1)) := by
  rintro ⟨tours, begins, goesOn⟩
  have covered (place : Nat) : ∃ visited, visited.length = place ∧
      Covers graph caller entry continuation visited (tours place) := by
    induction place with
    | zero => exact ⟨[], rfl, begins ▸ covers_start graph caller entry continuation⟩
    | succ place ih =>
      obtain ⟨visited, size, covers⟩ := ih
      obtain ⟨block, more⟩ := covers.visit exclusive (goesOn place)
      exact ⟨block :: visited, congrArg Nat.succ size, more⟩
  obtain ⟨visited, size, covers⟩ := covered (graph.nodes.size + 1)
  have fewer := covers.length_le exclusive complete
  omega

end Complete

end Tour

end MethodBody
