import Mathlib.Logic.Basic
import Mathlib.Data.List.Basic

/-!
# Fallible transitions and their runs

A system is a transition function `step : σ → α → Except ε σ`: an action either yields the next
state or fails. `run` performs a list of actions. A property that the initial state has and that
every transition preserves holds after every run (`run_invariant`), also when the transitions of
the run are restricted to allowed actions. `Outcome` says what a result satisfies and which
failures remain possible; `run_outcome` carries it from one transition to a run. `observe` keeps a
history beside a run, such as what was seen in it, for properties that the state alone does not
show (`observe_invariant`).
-/

namespace Feuer.Lib

/-! ## Sequencing -/

section Except

variable {ε α β : Type}

/-- A success goes on. -/
@[simp] theorem ok_bind (value : α) (next : α → Except ε β) :
    (Except.ok value >>= next) = next value := rfl

/-- A failure ends the rest. -/
@[simp] theorem error_bind (failure : ε) (next : α → Except ε β) :
    ((Except.error failure : Except ε α) >>= next) = Except.error failure := rfl

/-- A sequence succeeds when its first part does and the rest succeeds on its result. -/
theorem bind_eq_ok {first : Except ε α} {next : α → Except ε β} {result : β} :
    (first >>= next) = .ok result ↔ ∃ value, first = .ok value ∧ next value = .ok result := by
  cases first with
  | error failure => simp
  | ok value => simp

/-- A sequence fails in its first part, or in the rest. -/
theorem bind_eq_error {first : Except ε α} {next : α → Except ε β} {failure : ε} :
    (first >>= next) = .error failure ↔
      first = .error failure ∨ ∃ value, first = .ok value ∧ next value = .error failure := by
  cases first with
  | error failure => simp
  | ok value => simp

/-- A returned value is a success. -/
@[simp] theorem pure_eq_ok {value result : α} :
    (pure value : Except ε α) = .ok result ↔ value = result := by
  simp [pure, Except.pure]

/-- A successful result is `good`, and a failure is a `tolerated` one. -/
def Outcome (tolerated : ε → Prop) (good : α → Prop) : Except ε α → Prop
  | .ok value => good value
  | .error failure => tolerated failure

variable {tolerated : ε → Prop} {good : α → Prop}

/-- A success of an outcome is good. -/
theorem Outcome.of_ok {result : Except ε α} {value : α} (h : Outcome tolerated good result)
    (hresult : result = .ok value) : good value := by
  subst hresult
  exact h

/-- A good result is the value that was returned. -/
theorem Outcome.eq_ok {result : Except ε α} (h : Outcome tolerated good result) :
    Outcome tolerated (fun value => good value ∧ result = .ok value) result := by
  cases result with
  | ok value => exact ⟨h, rfl⟩
  | error failure => exact h

/-- A result for which no failure is tolerated is a good value. -/
theorem Outcome.exists_ok {result : Except ε α} (h : Outcome (fun _ => False) good result) :
    ∃ value, result = .ok value ∧ good value := by
  cases result with
  | ok value => exact ⟨value, rfl, h⟩
  | error failure => exact h.elim

/-- An outcome is an outcome for less. -/
theorem Outcome.mono {better : α → Prop} {result : Except ε α} (h : Outcome tolerated good result)
    (hbetter : ∀ value, good value → better value) : Outcome tolerated better result := by
  cases result with
  | ok value => exact hbetter value h
  | error failure => exact h

/-- More failures may be tolerated. -/
theorem Outcome.weaken {allowed : ε → Prop} {result : Except ε α}
    (h : Outcome tolerated good result)
    (hallowed : ∀ failure, tolerated failure → allowed failure) :
    Outcome allowed good result := by
  cases result with
  | ok value => exact h
  | error failure => exact hallowed failure h

/-- A sequence has an outcome when its second part has it on every good result of the first. -/
theorem Outcome.bind {final : β → Prop} {first : Except ε α} {next : α → Except ε β}
    (hfirst : Outcome tolerated good first)
    (hnext : ∀ value, good value → Outcome tolerated final (next value)) :
    Outcome tolerated final (first >>= next) := by
  cases first with
  | ok value => exact hnext value hfirst
  | error failure => exact hfirst

end Except

/-! ## Runs -/

section Runs

variable {σ α ε : Type}

/-- Performs the actions in order and stops at the first failure. -/
def run (step : σ → α → Except ε σ) : σ → List α → Except ε σ
  | state, [] => .ok state
  | state, action :: rest => step state action >>= fun next => run step next rest

variable {step : σ → α → Except ε σ}

/-- A run of two lists of actions is a run of the first followed by a run of the second. -/
theorem run_append (state : σ) (first second : List α) :
    run step state (first ++ second) =
      (run step state first >>= fun next => run step next second) := by
  induction first generalizing state with
  | nil => rfl
  | cons action rest ih =>
      simp only [List.cons_append, run]
      cases step state action with
      | error failure => rfl
      | ok next => exact ih next

/-- An invariant of the allowed transitions holds after every run of allowed actions. -/
theorem run_invariant (Invariant : σ → Prop) (Allowed : α → Prop)
    (hstep : ∀ state action next, Invariant state → Allowed action →
      step state action = .ok next → Invariant next)
    {state final : σ} {actions : List α} (hinit : Invariant state)
    (hallowed : ∀ action ∈ actions, Allowed action)
    (hrun : run step state actions = .ok final) : Invariant final := by
  induction actions generalizing state with
  | nil =>
      cases hrun
      exact hinit
  | cons action rest ih =>
      obtain ⟨next, hnext, hrest⟩ := bind_eq_ok.mp hrun
      exact ih (hstep _ _ _ hinit (hallowed action (by simp)) hnext)
        (fun other hother => hallowed other (by simp [hother])) hrest

/-- A run of allowed actions keeps the invariant and fails only in tolerated ways when every
allowed transition does. -/
theorem run_outcome {Invariant : σ → Prop} (Allowed : α → Prop) {tolerated : ε → Prop}
    (hstep : ∀ state action, Invariant state → Allowed action →
      Outcome tolerated Invariant (step state action))
    {state : σ} {actions : List α} (hinit : Invariant state)
    (hallowed : ∀ action ∈ actions, Allowed action) :
    Outcome tolerated Invariant (run step state actions) := by
  induction actions generalizing state with
  | nil => exact hinit
  | cons action rest ih =>
      refine (hstep state action hinit (hallowed action (by simp))).bind fun next hnext => ?_
      exact ih hnext fun other hother => hallowed other (by simp [hother])

/-- A loop over a list: an invariant that speaks about the part already done holds at the end for
the whole list. -/
theorem run_outcome_done {Invariant : List α → σ → Prop} {tolerated : ε → Prop}
    {done rest : List α} {state : σ}
    (hstep : ∀ before action after state, done ++ rest = before ++ action :: after →
      Invariant before state →
      Outcome tolerated (Invariant (before ++ [action])) (step state action))
    (hinit : Invariant done state) :
    Outcome tolerated (Invariant (done ++ rest)) (run step state rest) := by
  induction rest generalizing done state with
  | nil =>
      rw [List.append_nil]
      exact hinit
  | cons action rest ih =>
      refine (hstep done action rest state rfl hinit).bind fun next hnext => ?_
      have hassoc : done ++ action :: rest = done ++ [action] ++ rest := by simp
      rw [hassoc]
      exact ih (fun before other after state heq => hstep before other after state
        (hassoc.trans heq)) hnext

/-- Progress: when some transition leads to the goal or to a smaller state, a run reaches the
goal. -/
theorem run_reaches {Invariant Goal : σ → Prop} (measure : σ → Nat)
    (hadvance : ∀ state, Invariant state → ∃ action next, step state action = .ok next ∧
      (Goal next ∨ Invariant next ∧ measure next < measure state))
    {state : σ} (hinit : Invariant state) :
    ∃ actions final, run step state actions = .ok final ∧ Goal final := by
  induction hsize : measure state using Nat.strongRecOn generalizing state with
  | ind size ih =>
    obtain ⟨action, next, hstep, hgoal | ⟨hnext, hless⟩⟩ := hadvance state hinit
    · exact ⟨[action], next, by rw [run, hstep]; rfl, hgoal⟩
    · obtain ⟨actions, final, hrun, hfinal⟩ := ih _ (hsize ▸ hless) hnext rfl
      exact ⟨action :: actions, final, by rw [run, hstep]; exact hrun, hfinal⟩

/-- The history that an observer of a run has at its end. -/
def observe {η : Type} (step : σ → α → Except ε σ) (record : σ → α → σ → η → η) :
    σ → η → List α → η
  | _, history, [] => history
  | state, history, action :: rest =>
      match step state action with
      | .ok next => observe step record next (record state action next history) rest
      | .error _ => history

/-- An invariant of the state and the history of a run of allowed actions. -/
theorem observe_invariant {η : Type} {record : σ → α → σ → η → η} (Invariant : σ → η → Prop)
    (Allowed : α → Prop)
    (hstep : ∀ state history action next, Invariant state history → Allowed action →
      step state action = .ok next → Invariant next (record state action next history))
    {state final : σ} {history : η} {actions : List α} (hinit : Invariant state history)
    (hallowed : ∀ action ∈ actions, Allowed action)
    (hrun : run step state actions = .ok final) :
    Invariant final (observe step record state history actions) := by
  induction actions generalizing state history with
  | nil =>
      cases hrun
      exact hinit
  | cons action rest ih =>
      obtain ⟨next, hnext, hrest⟩ := bind_eq_ok.mp hrun
      rw [observe, hnext]
      exact ih (hstep _ _ _ _ hinit (hallowed action (by simp)) hnext)
        (fun other hother => hallowed other (by simp [hother])) hrest

end Runs

end Feuer.Lib
