import Mathlib.Data.List.Basic

namespace Wadjet.Data

variable {State Event : Type}

inductive Reachable (start : State → Prop) (step : State → Event → Option State) : State → Prop where
  | start {state : State} (h : start state) : Reachable start step state
  | step {state next : State} (event : Event) (h : Reachable start step state)
      (hstep : step state event = some next) : Reachable start step next

def runEvents (step : State → Event → Option State) (state : State) : List Event → Option State
  | [] => some state
  | event :: rest => (step state event).bind (runEvents step · rest)

variable {start : State → Prop} {step : State → Event → Option State}

-- What holds at the start and is kept by every step holds in every run.
theorem Reachable.invariant {Inv : State → Prop} (hstart : ∀ state, start state → Inv state)
    (hstep : ∀ state event next, Inv state → step state event = some next → Inv next)
    {state : State} (h : Reachable start step state) : Inv state := by
  induction h with
  | start h => exact hstart _ h
  | step event _ hnext ih => exact hstep _ event _ ih hnext

theorem Reachable.run {state next : State} (h : Reachable start step state) (events : List Event)
    (hrun : runEvents step state events = some next) : Reachable start step next := by
  induction events generalizing state with
  | nil =>
    obtain rfl : state = next := Option.some.inj hrun
    exact h
  | cons event rest ih =>
    obtain ⟨middle, hmiddle, hrest⟩ := Option.bind_eq_some_iff.mp hrun
    exact ih (h.step event hmiddle) hrest

end Wadjet.Data
