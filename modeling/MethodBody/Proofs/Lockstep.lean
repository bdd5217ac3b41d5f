import MethodBody.Proofs.Outcome
import MethodBody.Walk

/-!
# Two runs side by side

An action runs in step from related states if both runs give the same answer, report the same events
and come to related states again (`Action.InStep`). So the relation says in what the two states may
differ without anyone noticing. Actions in a row run in step if each of them does, whether they fail
or not. Walks run in step if the same items follow each item in both graphs (`Walk.run_congr`).
-/

namespace MethodBody

/-- Two outcomes with the same answer and the same events, and with related states. -/
structure Outcome.Matches {σ α : Type} (related : σ → σ → Prop) (first second : Outcome σ α) :
    Prop where
  /-- The answer is the same. -/
  answer : second.answer = first.answer
  /-- The events are the same. -/
  events : second.events = first.events
  /-- The states are related. -/
  state : related first.state second.state

namespace Action

variable {σ τ α β : Type}

/-- From related states, two runs of the action cannot be told apart. -/
def InStep (related : σ → σ → Prop) (action : Action σ α) : Prop :=
  ∀ first second, related first second → (action.run first).Matches related (action.run second)

namespace InStep

variable {related : σ → σ → Prop} {action : Action σ α} {next : α → Action σ β}

/-- A value. -/
theorem pure (value : α) : InStep related (pure value) := fun _ _ states => ⟨rfl, rfl, states⟩

/-- A failure. -/
theorem throw (cause : Error) : InStep related (throw cause : Action σ α) :=
  fun _ _ states => ⟨rfl, rfl, states⟩

/-- An event. -/
theorem report (event : Event) : InStep related (Action.report event) :=
  fun _ _ states => ⟨rfl, rfl, states⟩

/-- A result of its own. -/
theorem ofExcept (result : Except Error α) : InStep related (Action.ofExcept result) :=
  fun _ _ states => ⟨rfl, rfl, states⟩

/-- A check. -/
theorem check (cause : Option Error) : InStep related (Action.check cause) := by
  cases cause with
  | none => exact pure ()
  | some cause => exact throw cause

/-- A view that does not depend on what may differ. -/
theorem inspect {view : σ → α} (same : ∀ {first second}, related first second →
    view second = view first) : InStep related (Action.inspect view) :=
  fun _ _ states => ⟨congrArg Except.ok (same states), rfl, states⟩

/-- A view that may not exist and does not depend on what may differ. -/
theorem read {view : σ → Except Error α} (same : ∀ {first second}, related first second →
    view second = view first) : InStep related (Action.read view) :=
  fun _ _ states => ⟨same states, rfl, states⟩

/-- A change of the state. -/
theorem modify {change : σ → σ} (same : ∀ {first second}, related first second →
    related (change first) (change second)) : InStep related (modify change : Action σ Unit) :=
  fun _ _ states => ⟨rfl, rfl, same states⟩

/-- Two actions in a row, of which the second is known to follow the first. -/
theorem bind_of_answer (first : InStep related action)
    (second : ∀ {one other value}, related one other → (action.run one).answer = .ok value →
      InStep related (next value)) : InStep related (action >>= next) := by
  intro one other states
  obtain ⟨answer, events, reached⟩ := first one other states
  rw [run_bind, run_bind]
  have onward {value : α} := @second one other value states
  generalize action.run one = outcome at answer events reached onward
  generalize action.run other = outcome' at answer events reached
  obtain ⟨value, middle, reported⟩ := outcome
  obtain ⟨value', middle', reported'⟩ := outcome'
  obtain rfl : value' = value := answer
  obtain rfl : reported' = reported := events
  cases value' with
  | error cause => exact ⟨rfl, rfl, reached⟩
  | ok value =>
    obtain ⟨answer, events, reached⟩ := onward rfl middle middle' reached
    exact ⟨answer, congrArg (reported' ++ ·) events, reached⟩

/-- Two actions in a row. -/
theorem bind (first : InStep related action) (second : ∀ value, InStep related (next value)) :
    InStep related (action >>= next) :=
  first.bind_of_answer fun _ _ => second _

/-- A fold over a list. -/
theorem fold {step : β → α → Action σ β} {items : List α}
    (each : ∀ item ∈ items, ∀ value, InStep related (step value item)) (start : β) :
    InStep related (Action.fold step start items) := by
  induction items generalizing start with
  | nil => exact pure start
  | cons item rest ih =>
    rw [fold_cons]
    exact (each item List.mem_cons_self start).bind
      (ih fun other member => each other (List.mem_cons_of_mem _ member))

/-- An action for each item. -/
theorem forEach {items : List α} {each : α → Action σ Unit}
    (all : ∀ item ∈ items, InStep related (each item)) :
    InStep related (Action.forEach items each) :=
  fold (fun item member _ => all item member) ()

/-- An action on a part of the state, if states with related parts are related. -/
theorem focus [Inhabited τ] {view : σ → τ} {replace : σ → τ → σ} {parts : τ → τ → Prop}
    {onPart : Action τ α} (part : InStep parts onPart)
    (views : ∀ {first second}, related first second → parts (view first) (view second))
    (replaces : ∀ {first second one other}, related first second → parts one other →
      related (replace (replace first default) one) (replace (replace second default) other)) :
    InStep related (Action.focus view replace onPart) := by
  intro first second states
  obtain ⟨answer, events, reached⟩ := part _ _ (views states)
  simp only [run_focus]
  exact ⟨answer, events, replaces states reached⟩

end InStep

end Action

namespace Walk

variable {ι : Type} {first second : Walk ι}

/-- The same items are entered, if the same ones are refused. -/
theorem enterAll_congr (label : second.label = first.label)
    (refusal : second.refusal = first.refusal) (frontier : Frontier ι) (items : List ι) :
    second.enterAll frontier items = first.enterAll frontier items := by
  induction items generalizing frontier with
  | nil => rfl
  | cons item rest ih => simp only [enterAll, enter, label, refusal, ih]

/-- A walk ends at an item that cannot be left. -/
theorem sweep_of_error {walk : Walk ι} {item : ι} {cause : Error}
    (failed : walk.next item = .error cause) (pending : List ι)
    (entered : LabelSet) (visited : List ι) :
    walk.sweep ⟨item :: pending, entered, visited⟩
      = Frontier.stop ⟨pending, entered, item :: visited⟩ (some cause) := by
  rw [sweep]
  split
  · rename_i other found
    obtain rfl := Except.error.inj (found.symm.trans failed)
    rfl
  · rename_i items found
    cases failed.symm.trans found

/-- A walk goes on from an item with what follows it, up to the first refusal. -/
theorem sweep_of_ok {walk : Walk ι} {item : ι} {items : List ι} (found : walk.next item = .ok items)
    (pending : List ι) (entered : LabelSet) (visited : List ι) :
    walk.sweep ⟨item :: pending, entered, visited⟩ =
      let after := walk.enterAll ⟨pending, entered, item :: visited⟩ items
      match after.2 with
      | some cause => after.1.stop (some cause)
      | none => walk.sweep after.1 := by
  rw [sweep]
  split
  · rename_i cause failed
    cases failed.symm.trans found
  · rename_i others foundToo
    obtain rfl := Except.ok.inj (foundToo.symm.trans found)
    rfl

/-- Two walks go on in the same way if the same items follow each item. -/
theorem sweep_congr (label : second.label = first.label) (refusal : second.refusal = first.refusal)
    (next : second.next = first.next) (frontier : Frontier ι) :
    second.sweep frontier = first.sweep frontier := by
  have enters := enterAll_congr label refusal
  fun_induction second.sweep frontier with
  | case1 entered visited => rw [sweep]
  | case2 item pending entered visited cause failed => rw [sweep_of_error (next ▸ failed)]
  | case3 item pending entered visited items found after cause refused =>
    simp only [after, enters] at refused ⊢
    rw [sweep_of_ok (next ▸ found)]
    simp only [refused]
  | case4 item pending entered visited items found after unrefused ih =>
    simp only [after, enters] at unrefused ih ⊢
    rw [sweep_of_ok (next ▸ found)]
    simp only [unrefused, ih]

/-- Two walks are the same if the same items follow each item. -/
theorem run_congr (label : second.label = first.label) (refusal : second.refusal = first.refusal)
    (next : second.next = first.next)
    (size : second.graph.nodes.size = first.graph.nodes.size) (start : ι) :
    second.run start = first.run start := by
  simp only [run, enter, label, size]
  exact sweep_congr label refusal next _

end Walk

end MethodBody
