import MethodBody.Action
import Mathlib.Data.List.Forall2
import Mathlib.Order.Defs.Unbundled

/-!
# Successes and failures

What can be said about a computation that may fail from the fact that it did not, and what every
outcome of an action has in common. A relation between states that holds of each step holds of a
whole action, whether it failed or not (`Action.Follows`).
-/

namespace MethodBody

section Except

variable {ε α β : Type}

/-- A computation that succeeds succeeds in both parts. -/
theorem bind_eq_ok {first : Except ε α} {next : α → Except ε β} {value : β} :
    (first >>= next) = .ok value ↔ ∃ middle, first = .ok middle ∧ next middle = .ok value := by
  cases first <;> simp [bind, Except.bind]

/-- A computation that fails fails in one of both parts. -/
theorem bind_eq_error {first : Except ε α} {next : α → Except ε β} {cause : ε} :
    (first >>= next) = .error cause ↔
      first = .error cause ∨ ∃ middle, first = .ok middle ∧ next middle = .error cause := by
  cases first <;> simp [bind, Except.bind]

/-- A result that was changed was a result before. -/
theorem map_eq_ok {first : Except ε α} {change : α → β} {value : β} :
    change <$> first = .ok value ↔ ∃ middle, first = .ok middle ∧ change middle = value := by
  cases first <;> simp [Functor.map, Except.map]

/-- A failure that was changed was the same failure before. -/
theorem map_eq_error {first : Except ε α} {change : α → β} {cause : ε} :
    change <$> first = .error cause ↔ first = .error cause := by
  cases first <;> simp [Functor.map, Except.map]

/-- A list is mapped if its first item and the others are. -/
theorem mapM_cons_eq_ok {action : α → Except ε β} {item : α} {rest : List α} {values : List β} :
    (item :: rest).mapM action = .ok values ↔
      ∃ value others, action item = .ok value ∧ rest.mapM action = .ok others ∧
        value :: others = values := by
  rw [List.mapM_cons, bind_eq_ok]
  constructor
  · rintro ⟨value, first, found⟩
    obtain ⟨others, mapped, same⟩ := bind_eq_ok.mp found
    exact ⟨value, others, first, mapped, Except.ok.inj same⟩
  · rintro ⟨value, others, first, mapped, rfl⟩
    exact ⟨value, first, bind_eq_ok.mpr ⟨others, mapped, rfl⟩⟩

/-- A list is mapped in the same way by actions that are the same for its items. -/
theorem mapM_congr {action other : α → Except ε β} {items : List α}
    (same : ∀ item ∈ items, action item = other item) : items.mapM action = items.mapM other := by
  induction items with
  | nil => rfl
  | cons item rest ih =>
    rw [List.mapM_cons, List.mapM_cons, same item List.mem_cons_self,
      ih fun one member => same one (List.mem_cons_of_mem _ member)]

/-- A list is not mapped if its first item is not, or it is and the others are not. -/
theorem mapM_cons_eq_error {action : α → Except ε β} {item : α} {rest : List α} {cause : ε} :
    (item :: rest).mapM action = .error cause ↔ action item = .error cause ∨
      ∃ value, action item = .ok value ∧ rest.mapM action = .error cause := by
  rw [List.mapM_cons, bind_eq_error]
  refine or_congr_right (exists_congr fun value => and_congr_right fun _ => ?_)
  rw [bind_eq_error]
  constructor
  · rintro (failed | ⟨_, -, impossible⟩)
    · exact failed
    · cases impossible
  · exact Or.inl

/-- The values of a mapped list come from its items one by one. -/
theorem forall₂_of_mapM {action : α → Except ε β} {items : List α} {values : List β}
    (mapped : items.mapM action = .ok values) :
    List.Forall₂ (fun item value => action item = .ok value) items values := by
  induction items generalizing values with
  | nil =>
    obtain rfl : [] = values := Except.ok.inj mapped
    exact .nil
  | cons item rest ih =>
    obtain ⟨value, others, found, rest, rfl⟩ := mapM_cons_eq_ok.mp mapped
    exact .cons found (ih rest)

/-- What is related item by item to a list has its items related to items of the list. -/
theorem exists_of_mem_forall₂ {related : α → β → Prop} {items : List α} {values : List β}
    (each : List.Forall₂ related items values) {value : β} (member : value ∈ values) :
    ∃ item ∈ items, related item value := by
  induction each with
  | nil => simp at member
  | @cons item first _ _ found _ ih =>
    rcases List.mem_cons.mp member with rfl | later
    · exact ⟨item, List.mem_cons_self, found⟩
    · obtain ⟨other, inside, found⟩ := ih later
      exact ⟨other, List.mem_cons_of_mem _ inside, found⟩

/-- Each value of a mapped list comes from an item. -/
theorem exists_of_mem_mapM {action : α → Except ε β} {items : List α} {values : List β}
    (mapped : items.mapM action = .ok values) {value : β} (member : value ∈ values) :
    ∃ item ∈ items, action item = .ok value :=
  exists_of_mem_forall₂ (forall₂_of_mapM mapped) member

/-- A list is mapped if each item is. -/
theorem exists_mapM_eq_ok {action : α → Except ε β} {items : List α}
    (each : ∀ item ∈ items, ∃ value, action item = .ok value) :
    ∃ values, items.mapM action = .ok values := by
  induction items with
  | nil => exact ⟨[], rfl⟩
  | cons item rest ih =>
    obtain ⟨value, first⟩ := each item List.mem_cons_self
    obtain ⟨others, mapped⟩ := ih fun other member => each other (List.mem_cons_of_mem _ member)
    exact ⟨_, mapM_cons_eq_ok.mpr ⟨value, others, first, mapped, rfl⟩⟩

/-- A list is not mapped if some item is not. The cause is known if it is the only one there is. -/
theorem mapM_eq_error {action : α → Except ε β} {items : List α} {cause : ε}
    (only : ∀ item ∈ items, ∀ other, action item = .error other → other = cause)
    (fails : ∃ item ∈ items, action item = .error cause) : items.mapM action = .error cause := by
  induction items with
  | nil => simp at fails
  | cons item rest ih =>
    rw [List.mapM_cons]
    cases first : action item with
    | error other => rw [only item List.mem_cons_self other first]; rfl
    | ok value =>
      obtain ⟨failing, member, failure⟩ := fails
      have later : failing ∈ rest := by
        rcases List.mem_cons.mp member with rfl | later
        · simp [first] at failure
        · exact later
      have others := ih (fun other inside => only other (List.mem_cons_of_mem _ inside))
        ⟨failing, later, failure⟩
      simp only [others, bind, Except.bind]

/-- A list that is not mapped has an item that is not. -/
theorem exists_of_mapM_eq_error {action : α → Except ε β} {items : List α} {cause : ε}
    (fails : items.mapM action = .error cause) : ∃ item ∈ items, action item = .error cause := by
  induction items with
  | nil => cases fails
  | cons item rest ih =>
    rcases mapM_cons_eq_error.mp fails with here | ⟨value, -, later⟩
    · exact ⟨item, List.mem_cons_self, here⟩
    · obtain ⟨failing, member, failure⟩ := ih later
      exact ⟨failing, List.mem_cons_of_mem _ member, failure⟩

/-- A value that is there is the result of a computation that succeeds. -/
theorem eq_ok_of_mem_toOption {result : Except ε α} {value : α} (found : value ∈ result.toOption) :
    result = .ok value := by
  cases result with
  | error cause => simp [Except.toOption] at found
  | ok other => simpa [Except.toOption] using found

end Except

namespace Action

variable {σ τ α β : Type}

/-- A changed answer. -/
@[simp]
theorem run_map (change : α → β) (action : Action σ α) (state : σ) :
    (change <$> action).run state = (action.run state).andThen fun value => pure (change value) :=
  rfl

/-- Two actions in a row succeed if the first does, and the second does after it. -/
theorem answer_bind_eq_ok {action : Action σ α} {next : α → Action σ β} {state : σ} {value : β} :
    ((action >>= next).run state).answer = .ok value ↔
      ∃ middle, (action.run state).answer = .ok middle ∧
        ((next middle).run (action.run state).state).answer = .ok value := by
  rw [run_bind]
  obtain ⟨answer, after, events⟩ := action.run state
  cases answer <;> simp [Outcome.andThen]

/-- Two actions in a row fail if the first does, or the second after it. -/
theorem answer_bind_eq_error {action : Action σ α} {next : α → Action σ β} {state : σ}
    {cause : Error} :
    ((action >>= next).run state).answer = .error cause ↔
      (action.run state).answer = .error cause ∨
        ∃ value, (action.run state).answer = .ok value ∧
          ((next value).run (action.run state).state).answer = .error cause := by
  rw [run_bind]
  obtain ⟨answer, after, events⟩ := action.run state
  cases answer <;> simp [Outcome.andThen]

/-- The state after two actions in a row, of which the first succeeds. -/
theorem state_bind {action : Action σ α} (next : α → Action σ β) {state : σ} {middle : α}
    (succeeds : (action.run state).answer = .ok middle) :
    ((action >>= next).run state).state = ((next middle).run (action.run state).state).state := by
  rw [run_bind]
  generalize action.run state = outcome at succeeds
  obtain ⟨answer, after, events⟩ := outcome
  obtain rfl : answer = .ok middle := succeeds
  rfl

/-- The state after an action that fails is the state after what follows it, too. -/
theorem state_bind_of_error {action : Action σ α} (next : α → Action σ β)
    {state : σ} {cause : Error} (fails : (action.run state).answer = .error cause) :
    ((action >>= next).run state).state = (action.run state).state := by
  rw [run_bind]
  generalize action.run state = outcome at fails
  obtain ⟨answer, after, events⟩ := outcome
  obtain rfl : answer = .error cause := fails
  rfl

/-- The action succeeds with the value and leaves the state. -/
def Yields (action : Action σ α) (before : σ) (value : α) (after : σ) : Prop :=
  (action.run before).answer = .ok value ∧ (action.run before).state = after

section Yields

variable {action : Action σ α} {before after : σ} {value : α}

/-- An action that succeeds yields its value and leaves its state. -/
theorem yields_of_answer (succeeds : (action.run before).answer = .ok value) :
    action.Yields before value (action.run before).state :=
  ⟨succeeds, rfl⟩

/-- An action that yields something runs to it. -/
theorem run_of_yields (yields : action.Yields before value after) :
    ∃ events, action.run before = ⟨.ok value, after, events⟩ := by
  obtain ⟨answered, rfl⟩ := yields
  exact ⟨_, by rw [← answered]⟩

/-- Two actions in a row yield what the second does where the first leads. -/
theorem yields_bind {next : α → Action σ β} {last : β} :
    (action >>= next).Yields before last after ↔
      ∃ value middle, action.Yields before value middle ∧
        (next value).Yields middle last after := by
  constructor
  · rintro ⟨succeeds, rfl⟩
    obtain ⟨value, first, second⟩ := answer_bind_eq_ok.mp succeeds
    refine ⟨value, _, yields_of_answer first, second, ?_⟩
    rw [state_bind next first]
  · rintro ⟨value, middle, ⟨first, rfl⟩, second, rfl⟩
    exact ⟨answer_bind_eq_ok.mpr ⟨value, first, second⟩, state_bind next first⟩

/-- A value is yielded as it is. -/
@[simp]
theorem yields_pure {given : α} :
    (pure given : Action σ α).Yields before value after ↔ given = value ∧ before = after := by
  simp [Yields]

/-- A view of the state is yielded as it is. -/
@[simp]
theorem yields_inspect {view : σ → α} :
    (inspect view).Yields before value after ↔ view before = value ∧ before = after := by
  simp [Yields]

/-- A view of the state that exists is yielded as it is. -/
@[simp]
theorem yields_read {view : σ → Except Error α} :
    (read view).Yields before value after ↔ view before = .ok value ∧ before = after := by
  simp [Yields]

/-- A result of its own is yielded as it is. -/
@[simp]
theorem yields_ofExcept {result : Except Error α} :
    (ofExcept result : Action σ α).Yields before value after ↔
      result = .ok value ∧ before = after := by
  simp [Yields]

/-- A change of the state leads to the changed state. -/
@[simp]
theorem yields_modify {change : σ → σ} {answer : Unit} :
    (modify change : Action σ Unit).Yields before answer after ↔ change before = after := by
  simp [Yields]

/-- A report leads to the same state. -/
@[simp]
theorem yields_report {event : Event} {answer : Unit} :
    (report event : Action σ Unit).Yields before answer after ↔ before = after := by
  simp [Yields]

/-- A check is passed if there is no cause to fail. -/
@[simp]
theorem yields_check {cause : Option Error} {answer : Unit} :
    (check cause : Action σ Unit).Yields before answer after ↔ cause = none ∧ before = after := by
  cases cause <;> simp [Yields, check]

/-- A failure yields nothing. -/
@[simp]
theorem not_yields_throw {cause : Error} :
    ¬ (throw cause : Action σ α).Yields before value after := by
  simp [Yields]

/-- Actions for the items of a list are done one after the other. -/
theorem yields_forEach_cons {item : β} {rest : List β} {each : β → Action σ Unit} {answer : Unit} :
    (forEach (item :: rest) each).Yields before answer after ↔
      ∃ middle, (each item).Yields before () middle ∧
        (forEach rest each).Yields middle () after := by
  rw [forEach_cons, yields_bind]
  constructor
  · rintro ⟨_, middle, first, others⟩
    exact ⟨middle, first, others⟩
  · rintro ⟨middle, first, others⟩
    exact ⟨(), middle, first, others⟩

/-- Actions for the items of two lists are done for the first list and then for the second. -/
theorem yields_forEach_append {first second : List β} {each : β → Action σ Unit} :
    (forEach (first ++ second) each).Yields before () after ↔
      ∃ middle, (forEach first each).Yields before () middle ∧
        (forEach second each).Yields middle () after := by
  induction first generalizing before with
  | nil =>
    rw [List.nil_append, forEach_nil]
    constructor
    · exact fun all => ⟨before, yields_pure.mpr ⟨rfl, rfl⟩, all⟩
    · rintro ⟨middle, none, all⟩
      obtain ⟨-, rfl⟩ := yields_pure.mp none
      exact all
  | cons item rest ih =>
    simp only [List.cons_append, yields_forEach_cons, ih]
    constructor
    · rintro ⟨next, one, middle, others, all⟩
      exact ⟨middle, ⟨next, one, others⟩, all⟩
    · rintro ⟨middle, ⟨next, one, others⟩, all⟩
      exact ⟨next, one, middle, others, all⟩

/-- A fold leads to its end if each step leads on, given what holds of the items done before it. -/
theorem exists_yields_fold {step : β → α → Action σ β} (holds : List α → β → σ → Prop)
    {items : List α} (each : ∀ done item rest value before, items = done ++ item :: rest →
      holds done value before → ∃ next after, (step value item).Yields before next after ∧
        holds (done ++ [item]) next after) {start : β} (held : holds [] start before) :
    ∃ last after, (fold step start items).Yields before last after ∧ holds items last after := by
  have onward (rest done : List α) (value : β) (state : σ) (split : items = done ++ rest)
      (held : holds done value state) :
      ∃ last after, (fold step value rest).Yields state last after ∧ holds items last after := by
    induction rest generalizing done value state with
    | nil =>
      rw [List.append_nil] at split
      exact ⟨value, state, yields_pure.mpr ⟨rfl, rfl⟩, split ▸ held⟩
    | cons item rest ih =>
      obtain ⟨next, middle, first, heldToo⟩ := each done item rest value state split held
      have splitToo : items = (done ++ [item]) ++ rest := by
        rw [split, List.append_assoc, List.singleton_append]
      obtain ⟨last, after, others, ended⟩ := ih (done ++ [item]) next middle splitToo heldToo
      rw [fold_cons]
      exact ⟨last, after, yields_bind.mpr ⟨next, middle, first, others⟩, ended⟩
  exact onward items [] start before rfl held

end Yields

/-- Whatever an action does, the state after it is related to the state before. -/
def Follows (relation : σ → σ → Prop) (action : Action σ α) : Prop :=
  ∀ state, relation state (action.run state).state

namespace Follows

variable {relation : σ → σ → Prop}

/-- An action that changes nothing. -/
theorem of_state [Std.Refl relation] {action : Action σ α}
    (same : ∀ state, (action.run state).state = state) : Follows relation action := by
  intro state
  rw [same]
  exact Std.Refl.refl state

/-- A change of the state. -/
theorem of_modify {change : σ → σ} (related : ∀ state, relation state (change state)) :
    Follows relation (modify change : Action σ Unit) := related

/-- Where an action leads is related to where it started. -/
theorem of_yields {action : Action σ α} (follows : Follows relation action)
    {before after : σ} {value : α} (yields : action.Yields before value after) :
    relation before after := by
  rw [← yields.2]
  exact follows before

/-- Two actions in a row. -/
theorem bind [IsTrans σ relation] {action : Action σ α} {next : α → Action σ β}
    (first : Follows relation action) (second : ∀ value, Follows relation (next value)) :
    Follows relation (action >>= next) := by
  intro state
  cases answer : (action.run state).answer with
  | error cause =>
    rw [state_bind_of_error next answer]
    exact first state
  | ok value =>
    rw [state_bind next answer]
    exact IsTrans.trans _ _ _ (first state) (second value _)

/-- What follows an action leads on from where the action leads. -/
theorem state_bind [IsPreorder σ relation] {action : Action σ α} {next : α → Action σ β}
    (second : ∀ value, Follows relation (next value)) (state : σ) :
    relation (action.run state).state ((action >>= next).run state).state := by
  cases answer : (action.run state).answer with
  | error cause =>
    rw [state_bind_of_error next answer]
    exact Std.Refl.refl _
  | ok value =>
    rw [Action.state_bind next answer]
    exact second value _

/-- A fold over a list. -/
theorem fold [IsPreorder σ relation] (items : List α) {step : β → α → Action σ β}
    (each : ∀ item ∈ items, ∀ value, Follows relation (step value item)) (start : β) :
    Follows relation (Action.fold step start items) := by
  induction items generalizing start with
  | nil => exact of_state fun _ => rfl
  | cons item rest ih =>
    rw [fold_cons]
    exact (each item List.mem_cons_self start).bind
      (ih fun other member => each other (List.mem_cons_of_mem _ member))

/-- An action for each item. -/
theorem forEach [IsPreorder σ relation] (items : List α) {action : α → Action σ Unit}
    (each : ∀ item ∈ items, Follows relation (action item)) :
    Follows relation (Action.forEach items action) :=
  fold items (fun item member _ => each item member) ()

end Follows

end Action

end MethodBody
