import Mathlib.Data.List.Nodup
import Wadjet.Data.Machine

namespace Wadjet.Data

open Option List Function

structure Versioned (V : Type) where
  value : V
  revision : Nat

inductive CasPhase (V Error : Type) where
  | ready (attempt : Nat)
  | seen (attempt : Nat) (read : Versioned V)
  | succeeded
  | failed (error : Error)

structure CasState (Caller V Error : Type) where
  cell : Versioned V
  -- The store numbers the writes of all its keys together.
  nextRevision : Nat
  phase : Caller → CasPhase V Error
  -- The callers in the order they succeeded.
  succeeded : List Caller

inductive CasEvent (Caller Error : Type) where
  | advance (caller : Caller)
  | refuse (caller : Caller) (error : Error)
  | writeElsewhere

-- A caller reads the cell, computes the next value and swaps it in if the
-- revision stands; if it does not, the caller starts over, up to a number of
-- attempts. A call that asks for nothing returns before it reads.
structure CasLoop (Caller V Error : Type) where
  attempts : Nat
  exhausted : Error
  asksNothing : Caller → Bool
  mutate : Caller → V → Except Error V

variable {Caller V Error : Type} [DecidableEq Caller]

namespace CasState

variable (state : CasState Caller V Error) (caller : Caller)

def enter (phase : CasPhase V Error) : CasState Caller V Error :=
  { state with phase := update state.phase caller phase }

def succeed : CasState Caller V Error :=
  { state.enter caller .succeeded with succeeded := state.succeeded ++ [caller] }

def swap (value : V) : CasState Caller V Error :=
  { state.succeed caller with
    cell := ⟨value, state.nextRevision⟩
    nextRevision := state.nextRevision + 1 }

end CasState

namespace CasLoop

variable (loop : CasLoop Caller V Error)

def advance (state : CasState Caller V Error) (caller : Caller) :
    Option (CasState Caller V Error) :=
  match state.phase caller with
  | .ready attempt =>
    if loop.asksNothing caller then some (state.succeed caller)
    else if attempt < loop.attempts then some (state.enter caller (.seen attempt state.cell))
    else some (state.enter caller (.failed loop.exhausted))
  | .seen attempt read =>
    match loop.mutate caller read.value with
    | .error error => some (state.enter caller (.failed error))
    | .ok value =>
      if state.cell.revision = read.revision then some (state.swap caller value)
      else some (state.enter caller (.ready (attempt + 1)))
  | .succeeded => none
  | .failed _ => none

def step (state : CasState Caller V Error) :
    CasEvent Caller Error → Option (CasState Caller V Error)
  | .advance caller => loop.advance state caller
  | .refuse caller error =>
    match state.phase caller with
    | .ready _ => some (state.enter caller (.failed error))
    | _ => none
  | .writeElsewhere => some { state with nextRevision := state.nextRevision + 1 }

def starts (value : V) (state : CasState Caller V Error) : Prop :=
  state.cell.value = value ∧ state.cell.revision < state.nextRevision ∧
    (∀ caller, state.phase caller = .ready 0) ∧ state.succeeded = []

variable {state next : CasState Caller V Error} {event : CasEvent Caller Error}

theorem step_cases (h : loop.step state event = some next) :
    (∃ caller, loop.asksNothing caller ∧ (∃ attempt, state.phase caller = .ready attempt) ∧
        next = state.succeed caller) ∨
      (∃ caller attempt, state.phase caller = .ready attempt ∧
        next = state.enter caller (.seen attempt state.cell)) ∨
      (∃ caller attempt, state.phase caller ≠ .succeeded ∧
        next = state.enter caller (.ready attempt)) ∨
      (∃ caller error, state.phase caller ≠ .succeeded ∧
        next = state.enter caller (.failed error)) ∨
      (∃ caller attempt read value, state.phase caller = .seen attempt read ∧
        loop.mutate caller read.value = .ok value ∧ state.cell.revision = read.revision ∧
        next = state.swap caller value) ∨
      next = { state with nextRevision := state.nextRevision + 1 } := by
  cases event with
  | writeElsewhere => exact .inr (.inr (.inr (.inr (.inr (some.inj h).symm))))
  | refuse caller error =>
    simp only [step] at h
    split at h
    case h_1 attempt hphase =>
      refine .inr (.inr (.inr (.inl ⟨caller, error, ?_, (some.inj h).symm⟩)))
      simp [hphase]
    case h_2 => simp at h
  | advance caller =>
    simp only [step, advance] at h
    split at h
    case h_1 attempt hphase =>
      split_ifs at h with hnothing hattempt
      · exact .inl ⟨caller, hnothing, ⟨attempt, hphase⟩, (some.inj h).symm⟩
      · exact .inr (.inl ⟨caller, attempt, hphase, (some.inj h).symm⟩)
      · refine .inr (.inr (.inr (.inl ⟨caller, _, ?_, (some.inj h).symm⟩)))
        simp [hphase]
    case h_2 attempt read hphase =>
      split at h
      case h_1 error _ =>
        refine .inr (.inr (.inr (.inl ⟨caller, error, ?_, (some.inj h).symm⟩)))
        simp [hphase]
      case h_2 value hvalue =>
        split_ifs at h with hrevision
        · exact .inr (.inr (.inr (.inr (.inl ⟨caller, attempt, read, value, hphase, hvalue,
            hrevision, (some.inj h).symm⟩))))
        · refine .inr (.inr (.inl ⟨caller, attempt + 1, ?_, (some.inj h).symm⟩))
          simp [hphase]
    case h_3 => simp at h
    case h_4 => simp at h

def replay (callers : List Caller) (value : V) : Except Error V :=
  callers.foldlM (fun value caller => loop.mutate caller value) value

variable {value : V}

omit [DecidableEq Caller] in
theorem replay_append (callers : List Caller) (caller : Caller) {middle : V}
    (h : loop.replay callers value = .ok middle) :
    loop.replay (callers ++ [caller]) value = loop.mutate caller middle := by
  unfold replay at *
  rw [foldlM_append, h]
  simp only [foldlM_cons, foldlM_nil, bind_pure]
  rfl

structure Linear (start : V) (state : CasState Caller V Error) : Prop where
  replays : loop.replay state.succeeded start = .ok state.cell.value
  nodup : state.succeeded.Nodup
  mem_iff : ∀ caller, caller ∈ state.succeeded ↔ state.phase caller = .succeeded
  fresh : state.cell.revision < state.nextRevision
  bounded : ∀ caller attempt read, state.phase caller = .seen attempt read →
    read.revision < state.nextRevision
  current : ∀ caller attempt read, state.phase caller = .seen attempt read →
    read.revision = state.cell.revision → read.value = state.cell.value

variable {loop}

omit [DecidableEq Caller] in
theorem Linear.start (h : starts value state) : loop.Linear value state := by
  obtain ⟨hvalue, hfresh, hphase, hnone⟩ := h
  constructor
  case replays => rw [hnone, hvalue]; rfl
  case nodup => rw [hnone]; exact nodup_nil
  case mem_iff => intro caller; simp [hnone, hphase]
  case fresh => exact hfresh
  case bounded => intro caller; simp [hphase]
  case current => intro caller; simp [hphase]

variable {caller : Caller} {start : V}

theorem Linear.enter (h : loop.Linear start state) {phase : CasPhase V Error}
    (hbefore : state.phase caller ≠ .succeeded) (hafter : phase ≠ .succeeded)
    (hread : ∀ attempt read, phase = .seen attempt read → read = state.cell) :
    loop.Linear start (state.enter caller phase) := by
  constructor
  case replays => exact h.replays
  case nodup => exact h.nodup
  case mem_iff =>
    intro other
    rw [show (state.enter caller phase).succeeded = state.succeeded from rfl, h.mem_iff other]
    by_cases heq : other = caller
    · subst heq
      simp [CasState.enter, hbefore, hafter]
    · simp [CasState.enter, heq]
  case fresh => exact h.fresh
  case bounded =>
    intro other attempt read hother
    by_cases heq : other = caller
    · subst heq
      simp only [CasState.enter, update_self] at hother
      rw [hread attempt read hother]
      exact h.fresh
    · simp only [CasState.enter, update_of_ne heq] at hother
      exact h.bounded other attempt read hother
  case current =>
    intro other attempt read hother hrevision
    by_cases heq : other = caller
    · subst heq
      simp only [CasState.enter, update_self] at hother
      rw [hread attempt read hother]
      rfl
    · simp only [CasState.enter, update_of_ne heq] at hother
      exact h.current other attempt read hother hrevision

private theorem mem_succeed_iff
    (h : ∀ other, other ∈ state.succeeded ↔ state.phase other = .succeeded) (other : Caller) :
    other ∈ (state.succeed caller).succeeded ↔
      (state.succeed caller).phase other = .succeeded := by
  by_cases heq : other = caller
  · subst heq
    simp [CasState.succeed, CasState.enter]
  · simp [CasState.succeed, CasState.enter, heq, h]

private theorem nodup_succeed (hnodup : state.succeeded.Nodup) (h : caller ∉ state.succeeded) :
    (state.succeed caller).succeeded.Nodup := by
  refine List.Nodup.append hnodup (nodup_singleton caller) ?_
  simpa using h

variable {attempt : Nat} {read : Versioned V}

private theorem phase_of_succeed {caller other : Caller}
    (h : (state.succeed caller).phase other = .seen attempt read) :
    state.phase other = .seen attempt read := by
  by_cases heq : other = caller
  · subst heq
    simp [CasState.succeed, CasState.enter] at h
  · simpa [CasState.succeed, CasState.enter, heq] using h

section

variable (h : loop.Linear start state)

include h

theorem Linear.swap (hphase : state.phase caller = .seen attempt read)
    (hvalue : loop.mutate caller read.value = .ok value)
    (hrevision : state.cell.revision = read.revision) :
    loop.Linear start (state.swap caller value) := by
  have hcurrent := h.current caller attempt read hphase hrevision.symm
  constructor
  case replays =>
    have hreplay := loop.replay_append _ caller h.replays
    rw [← hcurrent, hvalue] at hreplay
    exact hreplay
  case nodup => exact nodup_succeed h.nodup (by simp [h.mem_iff, hphase])
  case mem_iff => exact mem_succeed_iff h.mem_iff
  case fresh => exact Nat.lt_succ_self _
  case bounded =>
    intro other attempt read hother
    exact Nat.lt_succ_of_lt (h.bounded other attempt read (phase_of_succeed hother))
  case current =>
    intro other attempt read hother hrevision
    have hold := h.bounded other attempt read (phase_of_succeed hother)
    exact absurd hrevision (Nat.ne_of_lt hold)

theorem Linear.succeed (hphase : state.phase caller = .ready attempt)
    (hvalue : loop.mutate caller state.cell.value = .ok state.cell.value) :
    loop.Linear start (state.succeed caller) := by
  constructor
  case replays => exact (loop.replay_append _ caller h.replays).trans hvalue
  case nodup => exact nodup_succeed h.nodup (by simp [h.mem_iff, hphase])
  case mem_iff => exact mem_succeed_iff h.mem_iff
  case fresh => exact h.fresh
  case bounded =>
    intro other attempt read hother
    exact h.bounded other attempt read (phase_of_succeed hother)
  case current =>
    intro other attempt read hother
    exact h.current other attempt read (phase_of_succeed hother)

theorem Linear.step (hnothing : ∀ caller value, loop.asksNothing caller →
      loop.mutate caller value = .ok value)
    (hstep : loop.step state event = some next) : loop.Linear start next := by
  obtain ⟨caller, hasks, ⟨attempt, hphase⟩, rfl⟩ | ⟨caller, attempt, hphase, rfl⟩ |
    ⟨caller, attempt, hphase, rfl⟩ | ⟨caller, error, hphase, rfl⟩ |
    ⟨caller, attempt, read, value, hphase, hvalue, hrevision, rfl⟩ | rfl := loop.step_cases hstep
  · exact h.succeed hphase (hnothing caller _ hasks)
  · refine h.enter (by simp [hphase]) nofun ?_
    rintro _ read ⟨⟩
    rfl
  · exact h.enter hphase nofun nofun
  · exact h.enter hphase nofun nofun
  · exact h.swap hphase hvalue hrevision
  · exact ⟨h.replays, h.nodup, h.mem_iff, Nat.lt_succ_of_lt h.fresh,
      fun other attempt read hother => Nat.lt_succ_of_lt (h.bounded other attempt read hother),
      h.current⟩

end

-- Every run has the outcome of its successful calls made one at a time.
theorem linear_of_reachable (hnothing : ∀ caller value, loop.asksNothing caller →
      loop.mutate caller value = .ok value)
    (h : Reachable (starts start) loop.step state) : loop.Linear start state :=
  h.invariant (fun _ => Linear.start) fun _ _ _ hlinear => hlinear.step hnothing

end CasLoop

end Wadjet.Data
