import Mathlib.Logic.Function.Basic
import Mathlib.Tactic.SplitIfs

namespace Wadjet.Data

-- Callers that share a store and advance one at a time, in any order.
structure Threads (Caller Store Phase : Type) where
  store : Store
  phase : Caller → Phase

namespace Threads

variable {Caller Store Phase : Type} [DecidableEq Caller]

def step (advance : Caller → Store → Phase → Option (Store × Phase))
    (state : Threads Caller Store Phase) (caller : Caller) :
    Option (Threads Caller Store Phase) :=
  (advance caller state.store (state.phase caller)).map fun (store, phase) =>
    ⟨store, Function.update state.phase caller phase⟩

inductive Run (advance : Caller → Store → Phase → Option (Store × Phase))
    (allowed : Threads Caller Store Phase → Caller → Prop) (start : Threads Caller Store Phase) :
    Threads Caller Store Phase → Prop where
  | start : Run advance allowed start start
  | step {state next : Threads Caller Store Phase} (caller : Caller)
      (h : Run advance allowed start state) (hallowed : allowed state caller)
      (hstep : state.step advance caller = some next) : Run advance allowed start next

def runCallers (advance : Caller → Store → Phase → Option (Store × Phase))
    (allowed : Threads Caller Store Phase → Caller → Prop)
    [∀ state caller, Decidable (allowed state caller)] (state : Threads Caller Store Phase) :
    List Caller → Option (Threads Caller Store Phase)
  | [] => some state
  | caller :: rest =>
    if allowed state caller then (state.step advance caller).bind (runCallers advance allowed · rest)
    else none

variable {advance : Caller → Store → Phase → Option (Store × Phase)}
  {allowed : Threads Caller Store Phase → Caller → Prop}
  {start state next : Threads Caller Store Phase}

theorem step_eq_some {caller : Caller} (h : state.step advance caller = some next) :
    ∃ store phase, advance caller state.store (state.phase caller) = some (store, phase) ∧
      next = ⟨store, Function.update state.phase caller phase⟩ := by
  obtain ⟨⟨store, phase⟩, hadvance, hnext⟩ := Option.map_eq_some_iff.mp h
  exact ⟨store, phase, hadvance, hnext.symm⟩

theorem Run.invariant {P : Threads Caller Store Phase → Prop} (hstart : P start)
    (hstep : ∀ state caller store phase, P state → allowed state caller →
      advance caller state.store (state.phase caller) = some (store, phase) →
      P ⟨store, Function.update state.phase caller phase⟩)
    (h : Run advance allowed start state) : P state := by
  induction h with
  | start => exact hstart
  | step caller _ hallowed hnext ih =>
    obtain ⟨store, phase, hadvance, rfl⟩ := step_eq_some hnext
    exact hstep _ caller store phase ih hallowed hadvance

theorem Run.runCallers [∀ state caller, Decidable (allowed state caller)] (callers : List Caller)
    (h : Run advance allowed start state)
    (hrun : state.runCallers advance allowed callers = some next) :
    Run advance allowed start next := by
  induction callers generalizing state with
  | nil =>
    obtain rfl : state = next := Option.some.inj hrun
    exact h
  | cons caller rest ih =>
    rw [Threads.runCallers] at hrun
    split_ifs at hrun with hallowed
    obtain ⟨middle, hmiddle, hrest⟩ := Option.bind_eq_some_iff.mp hrun
    exact ih (h.step caller hallowed hmiddle) hrest

end Threads

end Wadjet.Data
