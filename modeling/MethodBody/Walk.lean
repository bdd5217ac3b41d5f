import MethodBody.FlowGraph
import MethodBody.LabelSet

/-!
# Walks over a flow graph

A walk starts with one item and goes on with the items that follow those it has visited. An item
names a label, and no label is entered twice. Of the items that were entered and not visited yet,
the newest is visited next. A walk ends when no item is left, or with the first failure.

What follows an item is found along the edges of its label, so a walk can come to finitely many
labels only. Entering an item takes its label out of those not entered yet, and visiting one takes
it out of the pending items. So each visit brings the end nearer (`weight_enterAll_le`).
-/

namespace MethodBody

/-- What a walk over items of one type looks for. -/
structure Walk (ι : Type) where
  /-- The graph. -/
  graph : FlowGraph
  /-- The labels besides successors that the walk may come to. -/
  extra : List Label
  /-- The label that an item names. -/
  label : ι → Label
  /-- Why an item may not be entered. -/
  refusal : ι → Option Error
  /-- The items that follow a visited one, given what is known about its label. -/
  follow : Node → ι → Except Error (List ι)
  /-- Items follow along edges. -/
  follow_mem : ∀ {node item items}, follow node item = .ok items → ∀ next ∈ items,
    label next ∈ node.edges.map (·.successor) ++ extra

/-- How far a walk has come. -/
structure Frontier (ι : Type) where
  /-- The items entered and not visited yet, newest first. -/
  pending : List ι
  /-- The labels of the items entered. -/
  entered : LabelSet
  /-- The items visited, newest first. -/
  visited : List ι

/-- What a walk came to. -/
structure Sweep (ι : Type) where
  /-- The items visited, in order, with the one that could not be left. -/
  visited : List ι
  /-- The items entered and not visited. -/
  pending : List ι
  /-- Why the walk ended early. -/
  failure : Option Error

namespace Frontier

variable {ι : Type}

/-- The end of a walk. -/
def stop (frontier : Frontier ι) (failure : Option Error) : Sweep ι where
  visited := frontier.visited.reverse
  pending := frontier.pending
  failure := failure

end Frontier

namespace Sweep

variable {ι : Type}

/-- All items entered. -/
def entered (sweep : Sweep ι) : List ι := sweep.visited ++ sweep.pending

end Sweep

namespace Walk

variable {ι : Type}

/-- The items that follow a visited one. -/
def next (walk : Walk ι) (item : ι) : Except Error (List ι) := do
  walk.follow (← walk.graph.node (walk.label item)) item

/-- The labels that the walk can come to. -/
def labels (walk : Walk ι) : List Label := walk.graph.mentioned ++ walk.extra

/-- The number of labels that the walk can still come to. -/
def remaining (walk : Walk ι) (entered : LabelSet) : Nat :=
  (walk.labels.filter fun label => label ∉ entered).length

/-- The number of visits that are still possible. -/
def weight (walk : Walk ι) (frontier : Frontier ι) : Nat :=
  frontier.pending.length + walk.remaining frontier.entered

/-- Enter an item. -/
def enter (walk : Walk ι) (frontier : Frontier ι) (item : ι) : Frontier ι :=
  { frontier with
    pending := item :: frontier.pending
    entered := frontier.entered.insert (walk.label item) }

/-- Enter those of the items in order whose labels were not entered yet, up to the first refusal. -/
def enterAll (walk : Walk ι) (frontier : Frontier ι) : List ι → Frontier ι × Option Error
  | [] => (frontier, none)
  | item :: items =>
    if walk.label item ∈ frontier.entered then enterAll walk frontier items
    else
      match walk.refusal item with
      | some cause => (frontier, some cause)
      | none => enterAll walk (walk.enter frontier item) items

/-- What follows an item names labels that the walk can come to. -/
theorem label_mem_labels {walk : Walk ι} {item : ι} {items : List ι}
    (found : walk.next item = .ok items) {next : ι} (member : next ∈ items) :
    walk.label next ∈ walk.labels := by
  unfold Walk.next FlowGraph.node at found
  cases known : walk.graph.node? (walk.label item) with
  | none => simp [known, bind, Except.bind] at found
  | some node =>
    rw [known] at found
    rcases List.mem_append.mp (walk.follow_mem found next member) with successor | extra
    · obtain ⟨edge, leads, same⟩ := List.mem_map.mp successor
      rw [← same]
      exact List.mem_append_left _ (FlowGraph.successor_mem_mentioned known leads)
    · exact List.mem_append_right _ extra

/-- A label that is entered is one less to come to. -/
theorem remaining_insert_lt {walk : Walk ι} {entered : LabelSet} {label : Label}
    (possible : label ∈ walk.labels) (fresh : label ∉ entered) :
    walk.remaining (entered.insert label) < walk.remaining entered := by
  have fewer : walk.labels.filter (fun other => other ∉ entered.insert label)
      = (walk.labels.filter (fun other => other ∉ entered)).filter (· ≠ label) := by
    rw [List.filter_filter]
    congr 1
    funext other
    by_cases same : other = label <;> simp [LabelSet.mem_insert, same]
  unfold remaining
  rw [fewer]
  exact List.length_filter_lt_length_iff_exists.mpr
    ⟨label, List.mem_filter.mpr ⟨possible, by simpa using fresh⟩, by simp⟩

/-- Entering items does not make more visits possible. -/
theorem weight_enterAll_le (walk : Walk ι) (frontier : Frontier ι) {items : List ι}
    (possible : ∀ item ∈ items, walk.label item ∈ walk.labels) :
    walk.weight (walk.enterAll frontier items).1 ≤ walk.weight frontier := by
  induction items generalizing frontier with
  | nil => exact Nat.le_refl _
  | cons item items ih =>
    have others := fun next member => possible next (List.mem_cons_of_mem item member)
    rw [enterAll]
    split
    · exact ih frontier others
    · rename_i fresh
      split
      · exact Nat.le_refl _
      · refine Nat.le_trans (ih _ others) ?_
        have fewer := remaining_insert_lt (possible item List.mem_cons_self) fresh
        simp only [weight, enter, List.length_cons]
        omega

/-- Visit the pending items and whatever follows them. -/
def sweep (walk : Walk ι) (frontier : Frontier ι) : Sweep ι :=
  match frontier with
  | ⟨[], entered, visited⟩ => Frontier.stop ⟨[], entered, visited⟩ none
  | ⟨item :: pending, entered, visited⟩ =>
    match _found : walk.next item with
    | .error cause => Frontier.stop ⟨pending, entered, item :: visited⟩ (some cause)
    | .ok items =>
      let after := walk.enterAll ⟨pending, entered, item :: visited⟩ items
      match after.2 with
      | some cause => after.1.stop (some cause)
      | none => sweep walk after.1
termination_by walk.weight frontier
decreasing_by
  have lighter := weight_enterAll_le walk ⟨pending, entered, item :: visited⟩
    fun _ member => label_mem_labels _found member
  simp only [weight, List.length_cons] at lighter ⊢
  omega

/-- Walk from an item. -/
def run (walk : Walk ι) (start : ι) : Sweep ι :=
  walk.sweep (walk.enter ⟨[], .empty walk.graph.nodes.size, []⟩ start)

end Walk

end MethodBody
