import Mathlib.Algebra.Order.Group.Multiset
import Wadjet.Data.Machine

namespace Wadjet.Data

open List

variable {ρ : Type}

inductive Outcome (ρ : Type) where
  | items (list : List ρ)
  | error

def Outcome.list : Outcome ρ → List ρ
  | .items list => list
  | .error => []

def Outcome.isError : Outcome ρ → Bool
  | .items _ => false
  | .error => true

-- Workers that take units from a shared counter, send what they produce on a
-- bounded channel and report errors on a channel with one slot, without
-- waiting for it. A worker that meets an error may stop there.
structure WorkPool (ρ : Type) where
  units : List (Outcome ρ)
  stopsOnError : Bool
  workers : Nat
  workers_pos : 0 < workers
  capacity : Nat
  capacity_pos : 0 < capacity

namespace WorkPool

inductive Worker (ρ : Type) where
  | free
  | holding (items : List ρ)
  | stopped

def Worker.held : Worker ρ → List ρ
  | .holding items => items
  | .free | .stopped => []

def Worker.isStopped : Worker ρ → Bool
  | .stopped => true
  | .free | .holding _ => false

-- `errors` is the error slot; `failed` and `ended` say what the consumer got.
structure State (ρ : Type) where
  nextIdx : Nat
  workers : List (Worker ρ)
  queue : List (List ρ)
  errors : Bool
  delivered : List (List ρ)
  failed : Bool
  ended : Bool

variable (pool : WorkPool ρ)

def initial : State ρ :=
  ⟨0, replicate pool.workers .free, [], false, [], false, false⟩

inductive Event where
  | take (w : Nat)
  | send (w : Nat)
  | receive
  | receiveError
  | finish

def take (state : State ρ) (w : Nat) : State ρ :=
  let next := { state with nextIdx := state.nextIdx + 1 }
  match pool.units[state.nextIdx]? with
  | none => { next with workers := state.workers.set w .stopped }
  | some (.items []) => next
  | some (.items items) => { next with workers := state.workers.set w (.holding items) }
  | some .error =>
    { next with
      errors := true
      workers := if pool.stopsOnError then state.workers.set w .stopped else state.workers }

-- The channel is closed once every worker has stopped; its receiver then looks
-- at the error slot a last time.
def step (state : State ρ) : Event → Option (State ρ)
  | .take w =>
    match state.workers[w]? with
    | some .free => some (take pool state w)
    | _ => none
  | .send w =>
    match state.workers[w]? with
    | some (.holding items) =>
      if state.queue.length < pool.capacity then
        some { state with
          workers := state.workers.set w .free
          queue := state.queue ++ [items] }
      else none
    | _ => none
  | .receive =>
    match state.queue with
    | [] => none
    | items :: rest => some { state with queue := rest, delivered := state.delivered ++ [items] }
  | .receiveError =>
    if state.errors then some { state with errors := false, failed := true } else none
  | .finish =>
    if state.queue.isEmpty && state.workers.all Worker.isStopped then
      if state.errors then some { state with errors := false, failed := true }
      else some { state with ended := true }
    else none

def Reachable : State ρ → Prop := Data.Reachable (· = initial pool) (step pool)

def held (workers : List (Worker ρ)) : List ρ := workers.flatMap Worker.held

-- Everything taken from the counter is delivered, queued or held, and an error
-- that was met is reported or lies in the slot.
structure Inv (pool : WorkPool ρ) (state : State ρ) : Prop where
  size : state.workers.length = pool.workers
  moved : (state.delivered.flatten ++ state.queue.flatten ++ held state.workers).Perm
    ((pool.units.take state.nextIdx).flatMap Outcome.list)
  reported : (∃ unit ∈ pool.units.take state.nextIdx, unit.isError) →
    state.errors ∨ state.failed
  stopped : (∃ worker ∈ state.workers, worker.isStopped) →
    pool.units.length ≤ state.nextIdx ∨ ∃ unit ∈ pool.units.take state.nextIdx, unit.isError
  closed : state.ended →
    state.queue = [] ∧ state.workers.all Worker.isStopped ∧ state.errors = false

section Workers

variable {workers : List (Worker ρ)} {w : Nat} {old new : Worker ρ}

private theorem held_set (h : workers[w]? = some old) :
    (old.held ++ held (workers.set w new)).Perm (new.held ++ held workers) := by
  obtain ⟨hw, rfl⟩ := List.getElem?_eq_some_iff.mp h
  have hsplit : workers = workers.take w ++ workers[w] :: workers.drop (w + 1) := by
    rw [← drop_eq_getElem_cons hw, take_append_drop]
  rw [set_eq_take_append_cons_drop, if_pos hw]
  conv_rhs => rw [hsplit]
  simp only [held, flatMap_append, flatMap_cons]
  rw [← Multiset.coe_eq_coe]
  simp only [← Multiset.coe_add]
  ac_rfl

private theorem mem_set_stopped (h : ∃ worker ∈ workers.set w new, worker.isStopped)
    (hnew : new.isStopped = false) : ∃ worker ∈ workers, worker.isStopped := by
  obtain ⟨worker, hmem, hstopped⟩ := h
  rcases mem_or_eq_of_mem_set hmem with hold | rfl
  · exact ⟨worker, hold, hstopped⟩
  · simp [hnew] at hstopped

end Workers

variable {pool : WorkPool ρ} {state next : State ρ}

theorem initial_inv (pool : WorkPool ρ) : Inv pool (initial pool) where
  size := by simp [initial]
  moved := by
    have hheld : held (replicate pool.workers (Worker.free (ρ := ρ))) = [] := by
      simp [held, Worker.held]
    simp [initial, hheld]
  reported := by simp [initial]
  stopped := by simp [initial, Worker.isStopped]
  closed := by simp [initial]

private theorem take_of_none (h : pool.units[state.nextIdx]? = none) :
    pool.units.take (state.nextIdx + 1) = pool.units.take state.nextIdx := by
  have hlength := getElem?_eq_none_iff.mp h
  rw [take_of_length_le hlength, take_of_length_le (by omega)]

private theorem take_of_some {unit : Outcome ρ} (h : pool.units[state.nextIdx]? = some unit) :
    pool.units.take (state.nextIdx + 1) = pool.units.take state.nextIdx ++ [unit] := by
  rw [take_add_one, h, Option.toList_some]

theorem Inv.not_ended (h : Inv pool state) {w : Nat} {worker : Worker ρ}
    (hw : state.workers[w]? = some worker) (hworker : worker.isStopped = false) :
    state.ended = false := by
  by_contra hended
  have hall := all_eq_true.mp (h.closed (by simpa using hended)).2.1 worker (mem_of_getElem? hw)
  rw [hworker] at hall
  cases hall

theorem Inv.take (h : Inv pool state) {w : Nat} (hw : state.workers[w]? = some .free) :
    Inv pool (WorkPool.take pool state w) := by
  have hopen := h.not_ended hw rfl
  have hidle : ∀ new : Worker ρ, List.Perm (held (state.workers.set w new)) (new.held ++ held state.workers) :=
    fun new => held_set hw
  cases hunit : pool.units[state.nextIdx]? with
  | none =>
    simp only [WorkPool.take, hunit]
    refine ⟨by simpa using h.size, ?_, ?_, ?_, by simp [hopen]⟩
    · rw [take_of_none hunit]
      exact ((hidle .stopped).append_left _).trans h.moved
    · rw [take_of_none hunit]
      exact h.reported
    · exact fun _ => Or.inl (Nat.le_succ_of_le (getElem?_eq_none_iff.mp hunit))
  | some unit =>
    have htake := take_of_some hunit
    have hstopped : (∃ worker ∈ state.workers, worker.isStopped) →
        pool.units.length ≤ state.nextIdx + 1 ∨
          ∃ unit ∈ pool.units.take (state.nextIdx + 1), unit.isError := by
      intro hsome
      rcases h.stopped hsome with hlength | ⟨failing, hmem, herror⟩
      · exact Or.inl (Nat.le_succ_of_le hlength)
      · exact Or.inr ⟨failing, by rw [htake]; exact mem_append_left _ hmem, herror⟩
    have hmoved : ∀ workers : List (Worker ρ), List.Perm (held workers) (unit.list ++ held state.workers) →
        (state.delivered.flatten ++ state.queue.flatten ++ held workers).Perm
          ((pool.units.take (state.nextIdx + 1)).flatMap Outcome.list) := by
      intro workers hheld
      rw [htake, flatMap_append, flatMap_singleton]
      have hflow := (hheld.append_left (state.delivered.flatten ++ state.queue.flatten)).trans
        (perm_append_comm.append_left _)
      rw [← append_assoc] at hflow
      exact hflow.trans (h.moved.append_right _)
    cases unit with
    | items list =>
      have hreported : (∃ unit ∈ pool.units.take (state.nextIdx + 1), unit.isError) →
          state.errors ∨ state.failed := by
        rintro ⟨failing, hmem, herror⟩
        rw [htake, mem_append, mem_singleton] at hmem
        rcases hmem with hmem | rfl
        · exact h.reported ⟨failing, hmem, herror⟩
        · cases herror
      cases list with
      | nil =>
        simp only [WorkPool.take, hunit]
        exact ⟨h.size, hmoved _ (List.Perm.refl _), hreported, hstopped, by simp [hopen]⟩
      | cons item items =>
        simp only [WorkPool.take, hunit]
        exact ⟨by simpa using h.size, hmoved _ (hidle _), hreported,
          fun hsome => hstopped (mem_set_stopped hsome rfl), by simp [hopen]⟩
    | error =>
      have herror : ∃ unit ∈ pool.units.take (state.nextIdx + 1), unit.isError :=
        ⟨.error, by rw [htake]; simp, rfl⟩
      simp only [WorkPool.take, hunit]
      refine ⟨?_, hmoved _ ?_, fun _ => Or.inl rfl, fun _ => Or.inr herror, by simp [hopen]⟩
      · split
        · simpa using h.size
        · exact h.size
      · split
        · exact hidle .stopped
        · exact List.Perm.refl _

theorem Inv.step (h : Inv pool state) {event : Event} (hstep : step pool state event = some next) :
    Inv pool next := by
  cases event with
  | take w =>
    simp only [WorkPool.step] at hstep
    split at hstep
    · rename_i hw
      cases hstep
      exact h.take hw
    · cases hstep
  | send w =>
    simp only [WorkPool.step] at hstep
    split at hstep
    · rename_i items hw
      split at hstep
      · cases hstep
        refine ⟨by simpa using h.size, ?_, h.reported, fun hsome => h.stopped (mem_set_stopped hsome rfl),
          by simp [h.not_ended hw rfl]⟩
        have hheld : ((Worker.holding items).held ++ held (state.workers.set w .free)).Perm
            (Worker.free.held ++ held state.workers) := held_set hw
        simp only [flatten_append, flatten_cons, flatten_nil, append_nil]
        rw [append_assoc, append_assoc, ← append_assoc state.delivered.flatten]
        exact (hheld.append_left _).trans h.moved
      · cases hstep
    · cases hstep
  | receive =>
    simp only [WorkPool.step] at hstep
    split at hstep
    · cases hstep
    · rename_i items rest hqueue
      cases hstep
      refine ⟨h.size, ?_, h.reported, h.stopped, ?_⟩
      · have hmoved := h.moved
        rw [hqueue] at hmoved
        simpa using hmoved
      · intro hended
        simp [(h.closed hended).1] at hqueue
  | receiveError =>
    simp only [WorkPool.step] at hstep
    split at hstep
    · cases hstep
      refine ⟨h.size, h.moved, fun _ => Or.inr rfl, h.stopped, fun hended => ?_⟩
      obtain ⟨hqueue, hall, -⟩ := h.closed hended
      exact ⟨hqueue, hall, rfl⟩
    · cases hstep
  | finish =>
    simp only [WorkPool.step] at hstep
    split at hstep
    · rename_i hclosed
      obtain ⟨hqueue, hall⟩ := Bool.and_eq_true_iff.mp hclosed
      have hqueue : state.queue = [] := by simpa using hqueue
      split at hstep
      · cases hstep
        exact ⟨h.size, h.moved, fun _ => Or.inr rfl, h.stopped, fun _ => ⟨hqueue, hall, rfl⟩⟩
      · rename_i herrors
        cases hstep
        exact ⟨h.size, h.moved, h.reported, h.stopped, fun _ => ⟨hqueue, hall, by simpa using herrors⟩⟩
    · cases hstep

theorem Reachable.inv (h : Reachable pool state) : Inv pool state :=
  Data.Reachable.invariant (fun _ hstart => hstart ▸ initial_inv pool) (fun _ _ _ hinv hstep => hinv.step hstep) h

-- A consumer that sees the end and no error has all items of all units.
theorem Reachable.delivered (h : Reachable pool state) (hended : state.ended)
    (hfailed : state.failed = false) :
    (∀ unit ∈ pool.units, unit.isError = false) ∧
      state.delivered.flatten.Perm (pool.units.flatMap Outcome.list) := by
  have hinv := h.inv
  obtain ⟨hqueue, hall, herrors⟩ := hinv.closed hended
  have hnone : ¬ ∃ unit ∈ pool.units.take state.nextIdx, unit.isError := by
    intro hsome
    rcases hinv.reported hsome with hslot | hseen
    · simp [herrors] at hslot
    · simp [hfailed] at hseen
  have htaken : pool.units.length ≤ state.nextIdx := by
    have hpos := pool.workers_pos
    obtain ⟨worker, hworker⟩ : ∃ worker, worker ∈ state.workers :=
      exists_mem_of_length_pos (by rw [hinv.size]; exact hpos)
    rcases hinv.stopped ⟨worker, hworker, all_eq_true.mp hall worker hworker⟩ with hlength | hsome
    · exact hlength
    · exact absurd hsome hnone
  rw [take_of_length_le htaken] at hnone
  refine ⟨?_, ?_⟩
  · intro unit hunit
    by_contra herror
    exact hnone ⟨unit, hunit, by simpa using herror⟩
  · have hheld : held state.workers = [] := by
      apply flatMap_eq_nil_iff.mpr
      intro worker hworker
      have hstopped := all_eq_true.mp hall worker hworker
      cases worker <;> simp_all [Worker.isStopped, Worker.held]
    have hmoved := hinv.moved
    rw [hqueue, hheld, take_of_length_le htaken] at hmoved
    simpa using hmoved

private def Calm (state : State ρ) : Prop := state.queue = [] ∧ state.errors = false ∧ state.failed = false

variable (hok : ∀ unit ∈ pool.units, unit.isError = false)

include hok

private theorem exists_taken (k : Nat) (hk : k ≤ pool.units.length) :
    ∃ state, Reachable pool state ∧ Calm state ∧ state.nextIdx = k ∧
      state.workers = replicate pool.workers .free := by
  induction k with
  | zero => exact ⟨initial pool, .start rfl, ⟨rfl, rfl, rfl⟩, rfl, rfl⟩
  | succ k ih =>
    obtain ⟨state, hstate, ⟨hqueue, herrors, hfailed⟩, hidx, hworkers⟩ := ih (by omega)
    have hfree : state.workers[0]? = some .free := by
      rw [hworkers, getElem?_replicate, if_pos pool.workers_pos]
    have hunit : pool.units[state.nextIdx]? = some (pool.units.get ⟨k, hk⟩) := by
      rw [hidx]
      exact getElem?_eq_getElem hk
    have hplain := hok _ (get_mem pool.units ⟨k, hk⟩)
    cases hlist : pool.units.get ⟨k, hk⟩ with
    | error =>
      rw [hlist] at hplain
      cases hplain
    | items list =>
      rw [hlist] at hunit
      cases list with
      | nil =>
        have hstep : step pool state (.take 0) = some { state with nextIdx := state.nextIdx + 1 } := by
          simp only [step, hfree, take, hunit]
        exact ⟨_, hstate.step _ hstep, ⟨hqueue, herrors, hfailed⟩, congrArg (· + 1) hidx, hworkers⟩
      | cons item items =>
        let sent : State ρ := { state with
          nextIdx := state.nextIdx + 1
          delivered := state.delivered ++ [item :: items] }
        have hrun : runEvents (step pool) state [.take 0, .send 0, .receive] = some sent := by
          have hholding : (state.workers.set 0 (.holding (item :: items)))[0]? =
              some (.holding (item :: items)) := by
            rw [getElem?_set_self (by rw [hworkers]; simpa using pool.workers_pos)]
          have hback : (state.workers.set 0 (.holding (item :: items))).set 0 .free = state.workers := by
            rw [set_set, hworkers, set_replicate_self]
          simp [runEvents, step, hfree, take, hunit, hholding, hqueue, pool.capacity_pos, hback, sent]
        exact ⟨sent, Data.Reachable.run hstate _ hrun, ⟨hqueue, herrors, hfailed⟩,
          congrArg (· + 1) hidx, hworkers⟩

private theorem exists_stopped (j : Nat) (hj : j ≤ pool.workers) :
    ∃ state, Reachable pool state ∧ Calm state ∧ pool.units.length ≤ state.nextIdx ∧
      state.workers = replicate j .stopped ++ replicate (pool.workers - j) .free := by
  induction j with
  | zero =>
    obtain ⟨state, hstate, hcalm, hidx, hworkers⟩ := exists_taken hok _ (Nat.le_refl _)
    exact ⟨state, hstate, hcalm, Nat.le_of_eq hidx.symm, by simpa using hworkers⟩
  | succ j ih =>
    obtain ⟨state, hstate, hcalm, hidx, hworkers⟩ := ih (by omega)
    obtain ⟨rest, hrest⟩ : ∃ rest, pool.workers - j = rest + 1 := ⟨pool.workers - j - 1, by omega⟩
    have hafter : pool.workers - (j + 1) = rest := by omega
    have hfree : state.workers[j]? = some .free := by
      rw [hworkers, hrest]
      simp
    have hnone : pool.units[state.nextIdx]? = none := getElem?_eq_none_iff.mpr hidx
    have hstep : step pool state (.take j) = some { state with
        nextIdx := state.nextIdx + 1
        workers := state.workers.set j .stopped } := by
      simp only [step, hfree, take, hnone]
    refine ⟨_, hstate.step _ hstep, hcalm, Nat.le_succ_of_le hidx, ?_⟩
    rw [hworkers, hrest, hafter, replicate_succ' (n := j)]
    simp [replicate_succ]

-- Without an error some run comes to its end.
theorem exists_ended :
    ∃ state, Reachable pool state ∧ state.ended ∧ state.failed = false := by
  obtain ⟨state, hstate, ⟨hqueue, herrors, hfailed⟩, -, hworkers⟩ := exists_stopped hok _ (Nat.le_refl _)
  have hall : state.workers.all Worker.isStopped := by
    rw [hworkers]
    simp [Worker.isStopped]
  have hstep : step pool state .finish = some { state with ended := true } := by
    simp [step, hqueue, hall, herrors]
  exact ⟨_, hstate.step _ hstep, rfl, hfailed⟩

end WorkPool

end Wadjet.Data
