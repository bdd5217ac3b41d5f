import MethodBody.Walk
import Mathlib.Logic.Relation

/-!
# What a walk comes to

A walk that does not end early visits what can be reached from its start, one item for each label
(`Explores`). If items are no more than their labels, then it visits exactly what can be reached
(`mem_visited_iff`).
-/

namespace MethodBody.Walk

variable {ι : Type} {walk : Walk ι} {start item : ι} {frontier : Frontier ι}

/-- One item follows another. -/
def Leads (walk : Walk ι) (item next : ι) : Prop :=
  ∃ items, walk.next item = .ok items ∧ next ∈ items

/-- The item can be reached from the start. -/
abbrev Reaches (walk : Walk ι) (start item : ι) : Prop :=
  Relation.ReflTransGen walk.Leads start item

/-- The frontier of a walk that has not ended: what follows the items that were visited has been
entered. -/
structure Advances (walk : Walk ι) (start : ι) (frontier : Frontier ι) : Prop where
  /-- The walk began with the start. -/
  begins : start ∈ frontier.pending ++ frontier.visited
  /-- The labels entered are those of the items entered. -/
  entered : ∀ label, label ∈ frontier.entered ↔
    ∃ item ∈ frontier.pending ++ frontier.visited, walk.label item = label
  /-- No label was entered twice. -/
  distinct : ((frontier.pending ++ frontier.visited).map walk.label).Nodup
  /-- Every item entered can be reached. -/
  reached : ∀ item ∈ frontier.pending ++ frontier.visited, walk.Reaches start item
  /-- Every item but the start was not refused. -/
  accepted : ∀ item ∈ frontier.pending ++ frontier.visited,
    item = start ∨ walk.refusal item = none
  /-- What follows an item that was visited has been entered. -/
  left : ∀ item ∈ frontier.visited, ∃ items, walk.next item = .ok items ∧
    ∀ next ∈ items, walk.label next ∈ frontier.entered

/-- The end of a walk that did not end early. -/
structure Explores (walk : Walk ι) (start : ι) (sweep : Sweep ι) : Prop where
  /-- The start was visited. -/
  begins : start ∈ sweep.visited
  /-- Nothing is left to be visited. -/
  pending : sweep.pending = []
  /-- No label was visited twice. -/
  distinct : (sweep.visited.map walk.label).Nodup
  /-- Every item visited can be reached. -/
  reached : ∀ item ∈ sweep.visited, walk.Reaches start item
  /-- Every item but the start was not refused. -/
  accepted : ∀ item ∈ sweep.visited, item = start ∨ walk.refusal item = none
  /-- What follows an item that was visited has a label that was visited. -/
  closed : ∀ item ∈ sweep.visited, ∃ items, walk.next item = .ok items ∧
    ∀ next ∈ items, ∃ other ∈ sweep.visited, walk.label other = walk.label next

/-- Some of the items were put in front of the pending items, one for each of their labels that was
not entered before. -/
structure Enters (walk : Walk ι) (before : Frontier ι) (items added : List ι) (after : Frontier ι) :
    Prop where
  /-- The items that were added are visited before those that were pending. -/
  pending : after.pending = added ++ before.pending
  /-- The same items were visited. -/
  visited : after.visited = before.visited
  /-- None of the items added was refused. -/
  origin : ∀ item ∈ added, item ∈ items ∧ walk.refusal item = none
  /-- No label was added twice. -/
  distinct : (added.map walk.label).Nodup
  /-- The labels added were not entered before. -/
  fresh : ∀ item ∈ added, walk.label item ∉ before.entered
  /-- The labels added are entered. -/
  entered : ∀ label, label ∈ after.entered ↔
    label ∈ before.entered ∨ ∃ item ∈ added, walk.label item = label
  /-- The labels of all items are entered. -/
  all : ∀ item ∈ items, walk.label item ∈ after.entered

namespace Enters

variable {after : Frontier ι} {items added rest : List ι}

/-- Nothing is entered. -/
theorem nil (walk : Walk ι) (frontier : Frontier ι) : walk.Enters frontier [] [] frontier :=
  ⟨rfl, rfl, by simp, by simp, by simp, by simp, by simp⟩

/-- An item whose label was entered before is passed over. -/
theorem skip (enters : walk.Enters frontier rest added after)
    (known : walk.label item ∈ frontier.entered) :
    walk.Enters frontier (item :: rest) added after := by
  refine { enters with origin := fun other member => ?_, all := fun other member => ?_ }
  · have found := enters.origin other member
    exact ⟨List.mem_cons_of_mem _ found.1, found.2⟩
  · rcases List.mem_cons.mp member with rfl | later
    · exact (enters.entered _).mpr (.inl known)
    · exact enters.all other later

/-- An item whose label was not entered before is added, and the others are added in front of it. -/
theorem enter (enters : walk.Enters (walk.enter frontier item) rest added after)
    (fresh : walk.label item ∉ frontier.entered) (accepted : walk.refusal item = none) :
    walk.Enters frontier (item :: rest) (added ++ [item]) after := by
  have apart (other : ι) (member : other ∈ added) :
      walk.label other ≠ walk.label item ∧ walk.label other ∉ frontier.entered := by
    have outside := enters.fresh other member
    simp only [Walk.enter, LabelSet.mem_insert, not_or] at outside
    exact outside
  have entered (label : Label) : label ∈ after.entered ↔
      label ∈ frontier.entered ∨ ∃ other ∈ added ++ [item], walk.label other = label := by
    rw [enters.entered]
    simp only [Walk.enter, LabelSet.mem_insert, List.mem_append, List.mem_singleton, or_and_right,
      exists_or, exists_eq_left]
    rw [or_assoc, or_left_comm, or_comm (a := label = walk.label item), eq_comm (a := label)]
  constructor
  case pending => simp [enters.pending, Walk.enter]
  case visited => exact enters.visited
  case origin =>
    intro other member
    rcases List.mem_append.mp member with before | last
    · have found := enters.origin other before
      exact ⟨List.mem_cons_of_mem _ found.1, found.2⟩
    · obtain rfl : other = item := by simpa using last
      exact ⟨List.mem_cons_self, accepted⟩
  case distinct =>
    rw [List.map_append, List.nodup_append]
    refine ⟨enters.distinct, by simp, ?_⟩
    intro one before two last
    obtain ⟨other, member, rfl⟩ := List.mem_map.mp before
    obtain rfl : two = walk.label item := by simpa using last
    exact (apart other member).1
  case fresh =>
    intro other member
    rcases List.mem_append.mp member with before | last
    · exact (apart other before).2
    · obtain rfl : other = item := by simpa using last
      exact fresh
  case entered => exact entered
  case all =>
    intro other member
    rcases List.mem_cons.mp member with rfl | later
    · exact (entered _).mpr (.inr ⟨other, by simp, rfl⟩)
    · exact enters.all other later

/-- The items entered are those that were added and those that were entered before. -/
theorem perm (enters : walk.Enters frontier items added after) :
    (after.pending ++ after.visited).Perm (added ++ (frontier.pending ++ frontier.visited)) := by
  rw [enters.pending, enters.visited, List.append_assoc]

end Enters

/-- Entering items without a refusal adds those that are to be added. -/
theorem exists_enters {items : List ι} (unrefused : (walk.enterAll frontier items).2 = none) :
    ∃ added, walk.Enters frontier items added (walk.enterAll frontier items).1 := by
  induction items generalizing frontier with
  | nil => exact ⟨[], .nil walk frontier⟩
  | cons item rest ih =>
    unfold enterAll at unrefused ⊢
    split at unrefused
    · rename_i known
      rw [if_pos known]
      obtain ⟨added, enters⟩ := ih unrefused
      exact ⟨added, enters.skip known⟩
    · rename_i fresh
      rw [if_neg fresh]
      cases refusal : walk.refusal item with
      | some cause => simp [refusal] at unrefused
      | none =>
        simp only [refusal] at unrefused ⊢
        obtain ⟨added, enters⟩ := ih unrefused
        exact ⟨added ++ [item], enters.enter fresh refusal⟩

/-- An item is visited, and what follows it is entered. -/
theorem Advances.visit {pending visited : List ι} {entered : LabelSet} {items : List ι}
    (advances : walk.Advances start ⟨item :: pending, entered, visited⟩)
    (found : walk.next item = .ok items)
    (unrefused : (walk.enterAll ⟨pending, entered, item :: visited⟩ items).2 = none) :
    walk.Advances start (walk.enterAll ⟨pending, entered, item :: visited⟩ items).1 := by
  obtain ⟨added, enters⟩ := exists_enters unrefused
  generalize (walk.enterAll ⟨pending, entered, item :: visited⟩ items).1 = after at enters
  have order : (after.pending ++ after.visited).Perm (added ++ (item :: pending ++ visited)) :=
    enters.perm.trans (List.perm_middle.append_left added)
  have members (other : ι) : other ∈ after.pending ++ after.visited ↔
      other ∈ added ∨ other ∈ item :: pending ++ visited :=
    order.mem_iff.trans List.mem_append
  constructor
  case begins => exact (members start).mpr (.inr advances.begins)
  case entered =>
    intro label
    rw [enters.entered, advances.entered]
    simp only [members, or_and_right, exists_or]
    exact or_comm
  case distinct =>
    rw [(order.map walk.label).nodup_iff, List.map_append, List.nodup_append]
    refine ⟨enters.distinct, advances.distinct, ?_⟩
    rintro _ new _ old rfl
    obtain ⟨other, member, same⟩ := List.mem_map.mp new
    obtain ⟨known, before, sameToo⟩ := List.mem_map.mp old
    exact enters.fresh other member
      ((advances.entered _).mpr ⟨known, before, sameToo.trans same.symm⟩)
  case reached =>
    intro other member
    rcases (members other).mp member with new | old
    · exact (advances.reached item List.mem_cons_self).tail
        ⟨items, found, (enters.origin other new).1⟩
    · exact advances.reached other old
  case accepted =>
    intro other member
    rcases (members other).mp member with new | old
    · exact .inr (enters.origin other new).2
    · exact advances.accepted other old
  case left =>
    intro other member
    rw [enters.visited] at member
    rcases List.mem_cons.mp member with rfl | before
    · exact ⟨items, found, enters.all⟩
    · obtain ⟨others, follows, inside⟩ := advances.left other before
      exact ⟨others, follows, fun next member => (enters.entered _).mpr (.inl (inside next member))⟩

/-- A walk that goes on to its end explores everything. -/
theorem explores_sweep (advances : walk.Advances start frontier)
    (complete : (walk.sweep frontier).failure = none) :
    walk.Explores start (walk.sweep frontier) := by
  fun_induction walk.sweep frontier with
  | case1 entered visited =>
    have visits : (Frontier.stop (⟨[], entered, visited⟩ : Frontier ι) none).visited
        = visited.reverse := rfl
    constructor
    case begins =>
      rw [visits]
      exact List.mem_reverse.mpr advances.begins
    case pending => rfl
    case distinct =>
      rw [visits, List.map_reverse, (List.reverse_perm _).nodup_iff]
      exact advances.distinct
    case reached =>
      intro item member
      rw [visits] at member
      exact advances.reached item (List.mem_reverse.mp member)
    case accepted =>
      intro item member
      rw [visits] at member
      exact advances.accepted item (List.mem_reverse.mp member)
    case closed =>
      intro item member
      rw [visits] at member ⊢
      obtain ⟨items, found, inside⟩ := advances.left item (List.mem_reverse.mp member)
      refine ⟨items, found, fun next follows => ?_⟩
      obtain ⟨other, member, same⟩ := (advances.entered _).mp (inside next follows)
      exact ⟨other, List.mem_reverse.mpr member, same⟩
  | case2 item pending entered visited cause found => simp [Frontier.stop] at complete
  | case3 item pending entered visited items found after cause refused =>
    simp [Frontier.stop] at complete
  | case4 item pending entered visited items found after unrefused ih =>
    exact ih (advances.visit found unrefused) complete

/-- An item that may not be entered is one of the items to be entered. -/
theorem exists_of_enterAll_eq_some {items : List ι} {cause : Error}
    (refused : (walk.enterAll frontier items).2 = some cause) :
    ∃ item ∈ items, walk.refusal item = some cause := by
  induction items generalizing frontier with
  | nil => simp [enterAll] at refused
  | cons item rest ih =>
    unfold enterAll at refused
    split at refused
    · obtain ⟨other, member, found⟩ := ih refused
      exact ⟨other, List.mem_cons_of_mem _ member, found⟩
    · cases refusal : walk.refusal item with
      | some other =>
        rw [refusal] at refused
        exact ⟨item, List.mem_cons_self, refusal.trans refused⟩
      | none =>
        rw [refusal] at refused
        obtain ⟨other, member, found⟩ := ih refused
        exact ⟨other, List.mem_cons_of_mem _ member, found⟩

/-- A walk that ends early came to an item that could not be left, or that may not be entered. -/
theorem exists_of_failure_sweep (advances : walk.Advances start frontier) {cause : Error}
    (failed : (walk.sweep frontier).failure = some cause) :
    ∃ item, walk.Reaches start item ∧
      (walk.next item = .error cause ∨ walk.refusal item = some cause) := by
  fun_induction walk.sweep frontier with
  | case1 entered visited => simp [Frontier.stop] at failed
  | case2 item pending entered visited other found =>
    obtain rfl : other = cause := Option.some.inj failed
    exact ⟨item, advances.reached item List.mem_cons_self, .inl found⟩
  | case3 item pending entered visited items found after other refused =>
    obtain rfl : other = cause := Option.some.inj failed
    obtain ⟨next, member, refusal⟩ := exists_of_enterAll_eq_some refused
    exact ⟨next, (advances.reached item List.mem_cons_self).tail ⟨items, found, member⟩,
      .inr refusal⟩
  | case4 item pending entered visited items found after unrefused ih =>
    exact ih (advances.visit found unrefused) failed

/-- A walk begins at its start. -/
theorem advances_start (walk : Walk ι) (start : ι) :
    walk.Advances start (walk.enter ⟨[], .empty walk.graph.nodes.size, []⟩ start) := by
  have only (item : ι) (member : item ∈ [start] ++ ([] : List ι)) : item = start := by
    simpa using member
  constructor
  case begins => exact List.mem_cons_self
  case entered =>
    intro label
    simp only [enter, LabelSet.mem_insert, LabelSet.not_mem_empty, or_false]
    constructor
    · rintro rfl
      exact ⟨start, List.mem_cons_self, rfl⟩
    · rintro ⟨item, member, rfl⟩
      rw [only item member]
  case distinct => simp [enter]
  case reached =>
    intro item member
    rw [only item member]
  case accepted => exact fun item member => .inl (only item member)
  case left => simp [enter]

/-- A walk that does not end early explores everything. -/
theorem explores_run (complete : (walk.run start).failure = none) :
    walk.Explores start (walk.run start) :=
  explores_sweep (walk.advances_start start) complete

/-- A walk that ends early came to an item that could not be left, or that may not be entered. -/
theorem exists_of_failure_run {cause : Error} (failed : (walk.run start).failure = some cause) :
    ∃ item, walk.Reaches start item ∧
      (walk.next item = .error cause ∨ walk.refusal item = some cause) :=
  exists_of_failure_sweep (walk.advances_start start) failed

/-- An item cannot be left if its label is unknown, or for a cause found at the label. -/
theorem next_eq_error {cause : Error} (failed : walk.next item = .error cause) :
    walk.graph.node? (walk.label item) = none ∧ cause = .unknownLabel (walk.label item) ∨
      ∃ node, walk.graph.node? (walk.label item) = some node ∧
        walk.follow node item = .error cause := by
  unfold Walk.next FlowGraph.node at failed
  cases known : walk.graph.node? (walk.label item) with
  | none =>
    rw [known] at failed
    exact .inl ⟨rfl, (Except.error.inj failed).symm⟩
  | some node =>
    rw [known] at failed
    exact .inr ⟨node, rfl, failed⟩

/-- Each item is the start or follows an item that was visited. -/
def Traced (walk : Walk ι) (start : ι) (items visited : List ι) : Prop :=
  ∀ item ∈ items, item = start ∨ ∃ source ∈ visited, walk.Leads source item

/-- If that holds of the items entered so far, it holds of the items visited in the end. -/
theorem traced_sweep
  (traced : walk.Traced start (frontier.pending ++ frontier.visited) frontier.visited)
    (complete : (walk.sweep frontier).failure = none) :
    walk.Traced start (walk.sweep frontier).visited (walk.sweep frontier).visited := by
  fun_induction walk.sweep frontier with
  | case1 entered visited =>
    intro item member
    rcases traced item (List.mem_reverse.mp member) with same | ⟨source, before, leads⟩
    · exact .inl same
    · exact .inr ⟨source, List.mem_reverse.mpr before, leads⟩
  | case2 item pending entered visited cause found => simp [Frontier.stop] at complete
  | case3 item pending entered visited items found after cause refused =>
    simp [Frontier.stop] at complete
  | case4 item pending entered visited items found after unrefused ih =>
    refine ih (fun other member => ?_) complete
    obtain ⟨added, enters⟩ := exists_enters unrefused
    rw [enters.visited]
    rcases List.mem_append.mp (enters.perm.mem_iff.mp member) with new | old
    · exact .inr ⟨item, List.mem_cons_self, items, found, (enters.origin other new).1⟩
    · rcases traced other (List.perm_middle.mem_iff.mp old) with same | ⟨source, before, leads⟩
      · exact .inl same
      · exact .inr ⟨source, List.mem_cons_of_mem _ before, leads⟩

/-- Each item that a walk visits follows another one that it visits, but for its start. -/
theorem traced_run (complete : (walk.run start).failure = none) :
    walk.Traced start (walk.run start).visited (walk.run start).visited := by
  refine traced_sweep (fun item member => ?_) complete
  exact .inl (by simpa [enter] using member)

/-- If items are no more than their labels, a walk visits what can be reached. -/
theorem Explores.mem_visited_iff {sweep : Sweep ι} (explores : walk.Explores start sweep)
    (distinct : ∀ first second, walk.label first = walk.label second → first = second) :
    item ∈ sweep.visited ↔ walk.Reaches start item := by
  refine ⟨explores.reached item, fun reached => ?_⟩
  induction reached with
  | refl => exact explores.begins
  | tail _ leads ih =>
    obtain ⟨items, found, follows⟩ := leads
    obtain ⟨others, foundToo, closed⟩ := explores.closed _ ih
    obtain rfl := Except.ok.inj (found.symm.trans foundToo)
    obtain ⟨other, visited, same⟩ := closed _ follows
    exact distinct _ _ same ▸ visited

end MethodBody.Walk
