import MethodBody.Error
import MethodBody.Event

/-!
# Actions

An action works on a state, reports events and may fail. What it changed and reported before it
failed stays, so a caller can go on after a failure. An action cannot see the events reported before
it, so the events of two actions in a row are those of the first followed by those of the second
(`run_bind`).
-/

namespace MethodBody

/-- What an action leaves behind. -/
structure Outcome (σ α : Type) where
  /-- The value, or the cause of the failure. -/
  answer : Except Error α
  /-- The state after the action. -/
  state : σ
  /-- The events reported, in order. -/
  events : List Event

/-- A computation on a state that reports events and may fail. -/
structure Action (σ α : Type) where
  /-- Run the action from a state. -/
  run : σ → Outcome σ α

namespace Outcome

variable {σ α β : Type}

/-- The outcome with the given events reported before. -/
def after (outcome : Outcome σ α) (events : List Event) : Outcome σ α :=
  { outcome with events := events ++ outcome.events }

/-- Go on from a success with its value and its state. A failure stays what it is. -/
def andThen (outcome : Outcome σ α) (next : α → Action σ β) : Outcome σ β :=
  match outcome with
  | ⟨.ok value, state, events⟩ => ((next value).run state).after events
  | ⟨.error cause, state, events⟩ => ⟨.error cause, state, events⟩

/-- Earlier events do not change the answer. -/
@[simp]
theorem answer_after (outcome : Outcome σ α) (events : List Event) :
    (outcome.after events).answer = outcome.answer := rfl

/-- Earlier events do not change the state. -/
@[simp]
theorem state_after (outcome : Outcome σ α) (events : List Event) :
    (outcome.after events).state = outcome.state := rfl

/-- Earlier events come first. -/
@[simp]
theorem events_after (outcome : Outcome σ α) (events : List Event) :
    (outcome.after events).events = events ++ outcome.events := rfl

/-- No event is reported before the outcome. -/
@[simp]
theorem after_nil (outcome : Outcome σ α) : outcome.after [] = outcome := rfl

/-- Events are reported in order. -/
@[simp]
theorem after_after (outcome : Outcome σ α) (first second : List Event) :
    (outcome.after second).after first = outcome.after (first ++ second) := by
  simp [after, List.append_assoc]

/-- Going on from a success. -/
@[simp]
theorem andThen_ok (value : α) (state : σ) (events : List Event) (next : α → Action σ β) :
    andThen ⟨.ok value, state, events⟩ next = ((next value).run state).after events := rfl

/-- Going on from a failure. -/
@[simp]
theorem andThen_error (cause : Error) (state : σ) (events : List Event) (next : α → Action σ β) :
    andThen ⟨.error cause, state, events⟩ next = ⟨.error cause, state, events⟩ := rfl

/-- Events reported before an outcome are reported before whatever follows it. -/
@[simp]
theorem andThen_after (outcome : Outcome σ α) (events : List Event) (next : α → Action σ β) :
    (outcome.after events).andThen next = (outcome.andThen next).after events := by
  obtain ⟨answer, state, reported⟩ := outcome
  cases answer
  · rfl
  · exact (after_after _ _ _).symm

end Outcome

namespace Action

variable {σ τ α β : Type}

instance : Monad (Action σ) where
  pure value := ⟨fun state => ⟨.ok value, state, []⟩⟩
  bind action next := ⟨fun state => (action.run state).andThen next⟩

instance : MonadStateOf σ (Action σ) where
  get := ⟨fun state => ⟨.ok state, state, []⟩⟩
  set state := ⟨fun _ => ⟨.ok (), state, []⟩⟩
  modifyGet change := ⟨fun state =>
    let (value, state) := change state
    ⟨.ok value, state, []⟩⟩

instance : MonadExceptOf Error (Action σ) where
  throw cause := ⟨fun state => ⟨.error cause, state, []⟩⟩
  tryCatch action recover := ⟨fun state =>
    match action.run state with
    | ⟨.ok value, state, events⟩ => ⟨.ok value, state, events⟩
    | ⟨.error cause, state, events⟩ => ((recover cause).run state).after events⟩

/-- Report events in order. -/
def reportAll (events : List Event) : Action σ Unit :=
  ⟨fun state => ⟨.ok (), state, events⟩⟩

/-- Report an event. -/
def report (event : Event) : Action σ Unit :=
  reportAll [event]

/-- Fail where the given computation failed. -/
def ofExcept (result : Except Error α) : Action σ α :=
  ⟨fun state => ⟨result, state, []⟩⟩

/-- Fail with the cause, if there is one. -/
def check (cause : Option Error) : Action σ Unit :=
  match cause with
  | none => pure ()
  | some cause => throw cause

/-- A view of the state. -/
def inspect (view : σ → α) : Action σ α :=
  ⟨fun state => ⟨.ok (view state), state, []⟩⟩

/-- A view of the state that may not exist. -/
def read (view : σ → Except Error α) : Action σ α :=
  ⟨fun state => ⟨view state, state, []⟩⟩

/-- A part of a state, and the state without it. The two are made in one step, so that the state has
let go of the part before the part is used. -/
@[noinline]
def detach [Inhabited τ] (view : σ → τ) (replace : σ → τ → σ) (state : σ) : τ × σ :=
  (view state, replace state default)

/-- Run an action on a part of the state. The part is out of the state while the action runs, so it
can be changed in place. -/
def focus [Inhabited τ] (view : σ → τ) (replace : σ → τ → σ) (action : Action τ α) : Action σ α :=
  ⟨fun state =>
    match detach view replace state with
    | (part, others) =>
      match action.run part with
      | ⟨answer, part, events⟩ => ⟨answer, replace others part, events⟩⟩

/-- Do a step for each item in order, each with the value of the one before. The work is a loop, so
the number of items is not bounded by the depth of calls. -/
def fold (step : β → α → Action σ β) (start : β) (items : List α) : Action σ β :=
  ⟨fun state => go items start state []⟩
where
  /-- The rest of the loop, given the events reported so far, newest first. -/
  go : List α → β → σ → List Event → Outcome σ β
    | [], value, state, events => ⟨.ok value, state, events.reverse⟩
    | item :: rest, value, state, events =>
      match (step value item).run state with
      | ⟨.ok value, state, reported⟩ => go rest value state (reported.reverseAux events)
      | ⟨.error cause, state, reported⟩ =>
        ⟨.error cause, state, events.reverseAux reported⟩

/-- Run an action for each item in order. -/
def forEach (items : List α) (action : α → Action σ Unit) : Action σ Unit :=
  fold (fun _ item => action item) () items

/-- Two actions are the same if they leave the same behind from every state. -/
@[ext]
theorem ext {first second : Action σ α} (same : ∀ state, first.run state = second.run state) :
    first = second := by
  obtain ⟨first⟩ := first
  obtain ⟨second⟩ := second
  exact congrArg mk (funext same)

/-- A value changes nothing. -/
@[simp]
theorem run_pure (value : α) (state : σ) :
    (pure value : Action σ α).run state = ⟨.ok value, state, []⟩ := rfl

/-- Two actions in a row. -/
@[simp]
theorem run_bind (action : Action σ α) (next : α → Action σ β) (state : σ) :
    (action >>= next).run state = (action.run state).andThen next := rfl

/-- Reading the state changes nothing. -/
@[simp]
theorem run_get (state : σ) : (get : Action σ σ).run state = ⟨.ok state, state, []⟩ := rfl

/-- Setting the state forgets the old one. -/
@[simp]
theorem run_set (old new : σ) : (set new : Action σ Unit).run old = ⟨.ok (), new, []⟩ := rfl

/-- Changing the state. -/
@[simp]
theorem run_modify (change : σ → σ) (state : σ) :
    (modify change : Action σ Unit).run state = ⟨.ok (), change state, []⟩ := rfl

/-- Failing changes nothing. -/
@[simp]
theorem run_throw (cause : Error) (state : σ) :
    (throw cause : Action σ α).run state = ⟨.error cause, state, []⟩ := rfl

/-- Reporting events changes nothing. -/
@[simp]
theorem run_reportAll (events : List Event) (state : σ) :
    (reportAll events : Action σ Unit).run state = ⟨.ok (), state, events⟩ := rfl

/-- Reporting an event changes nothing. -/
@[simp]
theorem run_report (event : Event) (state : σ) :
    (report event : Action σ Unit).run state = ⟨.ok (), state, [event]⟩ := rfl

/-- A result of its own changes nothing. -/
@[simp]
theorem run_ofExcept (result : Except Error α) (state : σ) :
    (ofExcept result : Action σ α).run state = ⟨result, state, []⟩ := rfl

/-- Viewing the state changes nothing. -/
@[simp]
theorem run_inspect (view : σ → α) (state : σ) :
    (inspect view).run state = ⟨.ok (view state), state, []⟩ := rfl

/-- Viewing the state changes nothing. -/
@[simp]
theorem run_read (view : σ → Except Error α) (state : σ) :
    (read view).run state = ⟨view state, state, []⟩ := rfl

/-- Running on a part of the state changes that part only. -/
@[simp]
theorem run_focus [Inhabited τ] (view : σ → τ) (replace : σ → τ → σ) (action : Action τ α)
    (state : σ) :
    (focus view replace action).run state =
      ⟨(action.run (view state)).answer,
        replace (replace state default) (action.run (view state)).state,
        (action.run (view state)).events⟩ := rfl

/-- The events reported before the rest of a loop come first. -/
theorem fold_go_eq (step : β → α → Action σ β) (items : List α) (value : β) (state : σ)
    (events : List Event) :
    fold.go step items value state events
      = (fold.go step items value state []).after events.reverse := by
  induction items generalizing value state events with
  | nil => simp [fold.go, Outcome.after]
  | cons item rest ih =>
    simp only [fold.go]
    obtain ⟨answer, after, reported⟩ := (step value item).run state
    cases answer with
    | error cause => simp [Outcome.after, List.reverseAux_eq]
    | ok next =>
      simp only
      rw [ih next after (reported.reverseAux events), ih next after (reported.reverseAux [])]
      simp [List.reverseAux_eq]

/-- Without items nothing is done. -/
@[simp]
theorem fold_nil (step : β → α → Action σ β) (start : β) : fold step start [] = pure start := rfl

/-- The first item is followed by the others. -/
theorem fold_cons (step : β → α → Action σ β) (start : β) (item : α) (rest : List α) :
    fold step start (item :: rest) = step start item >>= fun value => fold step value rest := by
  ext state
  simp only [fold, fold.go, run_bind]
  obtain ⟨answer, after, reported⟩ := (step start item).run state
  cases answer with
  | error cause => rfl
  | ok next =>
    simp only [Outcome.andThen_ok]
    rw [fold_go_eq]
    simp [List.reverseAux_eq]

/-- Without items nothing is done. -/
@[simp]
theorem forEach_nil (action : α → Action σ Unit) : forEach [] action = pure () := rfl

/-- The first item is followed by the others. -/
theorem forEach_cons (item : α) (rest : List α) (action : α → Action σ Unit) :
    forEach (item :: rest) action = action item >>= fun _ => forEach rest action :=
  fold_cons _ _ item rest

/-- Going on with the value only leaves the same behind. -/
theorem bind_pure_value (action : Action σ α) : action >>= pure = action := by
  ext state
  rw [run_bind]
  obtain ⟨answer, after, events⟩ := action.run state
  cases answer <;> simp [Outcome.after]

/-- Three actions in a row. -/
theorem bind_bind {γ : Type} (action : Action σ α) (next : α → Action σ β) (last : β → Action σ γ) :
    action >>= next >>= last = action >>= fun value => next value >>= last := by
  ext state
  simp only [run_bind]
  obtain ⟨answer, after, events⟩ := action.run state
  cases answer <;> simp

instance : LawfulMonad (Action σ) :=
  LawfulMonad.mk' (Action σ) bind_pure_value (fun _ _ => rfl) bind_bind

end Action

end MethodBody
