import Mathlib.Data.List.Dedup
import Mathlib.Data.List.Perm.Subperm

namespace Wadjet.Coordinator.TaskRetry

open List Function

def maxTaskAttempts : Nat := 3

structure DynamicFilterPartialRef where
  filterID : String
  bucket : String
  key : String

structure Task where
  id : String
  attempt : Nat
  estimatedBytes : Int64

-- A worker's answer for one task. It does not say of which attempt it is.
structure ResultNotification where
  taskID : String
  workerID : String := ""
  success : Bool
  error : String := ""
  panicked : Bool := false
  planRefused : Bool := false
  sqlState : String := ""
  sqlMessage : String := ""
  missingInputKey : String := ""
  resultFiles : List String := []
  dynamicFilterPartials : List DynamicFilterPartialRef := []
  sizeBytes : Int64 := 0
  partitionRows : List Int64 := []
  partitionBytes : List Int64 := []

structure TaskAttemptState where
  files : List String := []
  partials : List DynamicFilterPartialRef := []
  bytes : Int64 := 0
  partRows : List Int64 := []
  partBytes : List Int64 := []
  errMsg : String := ""
  panicked : Bool := false
  sqlState : String := ""
  sqlMsg : String := ""
  attempts : Nat := 1
  terminal : Bool := false

structure TaskFailure where
  taskID : String
  message : String
  panicked : Bool
  sqlState : String
  sqlMessage : String

structure SuccessCall where
  taskID : String
  attempt : Nat
  files : List String
  workerID : String
  final : Bool
  partBytes : List Int64

-- Of a task only the estimate changes. The last three fields are history: the tasks sent to
-- workers, the hook's calls, and the notifications that made a task terminal.
structure TaskRetrier where
  states : String → TaskAttemptState
  estimates : String → Int64
  order : List String
  terminal : Nat
  retryEnabled : Bool
  fatal : Option (ResultNotification → Bool)
  dispatched : List Task
  calls : List SuccessCall
  ended : List ResultNotification

def newTaskRetrier (tasks : List Task) (retryEnabled : Bool)
    (fatal : Option (ResultNotification → Bool)) : TaskRetrier where
  states _ := {}
  estimates id := ((tasks.find? (·.id = id)).map (·.estimatedBytes)).getD 0
  order := tasks.map (·.id)
  terminal := 0
  retryEnabled := retryEnabled
  fatal := fatal
  dispatched := tasks
  calls := []
  ended := []

def inputLostMarker : String := "streaming-exchange input lost"

def invalidParameterValue : String := "22023"

def isDeterministicRefusal (r : ResultNotification) : Bool :=
  r.sqlState = invalidParameterValue && r.missingInputKey = ""

def fatalNow (fatal : Option (ResultNotification → Bool)) (r : ResultNotification) : Bool :=
  r.panicked || r.planRefused || isDeterministicRefusal r || fatal.any (· r)

def ResultNotification.errMsg (r : ResultNotification) : String :=
  if r.missingInputKey = "" then r.error
  else inputLostMarker ++ " (" ++ r.missingInputKey ++ "): " ++ r.error

namespace TaskRetrier

def allDone (tr : TaskRetrier) : Bool := tr.order.length ≤ tr.terminal

def growEstimate (bytes : Int64) : Int64 :=
  if 0 < bytes then bytes * 2 else bytes

def redispatch (tr : TaskRetrier) (id : String) : TaskRetrier :=
  let st := tr.states id
  let bytes := growEstimate (tr.estimates id)
  { tr with
    states := update tr.states id { st with attempts := st.attempts + 1 }
    estimates := update tr.estimates id bytes
    dispatched := tr.dispatched ++ [⟨id, st.attempts + 1, bytes⟩] }

def finish (tr : TaskRetrier) (r : ResultNotification) (st : TaskAttemptState) : TaskRetrier :=
  { tr with
    states := update tr.states r.taskID { st with terminal := true }
    terminal := tr.terminal + 1
    ended := tr.ended ++ [r] }

def succeed (tr : TaskRetrier) (r : ResultNotification) : TaskRetrier :=
  let st := tr.states r.taskID
  let tr := tr.finish r { st with
    files := r.resultFiles
    partials := r.dynamicFilterPartials
    bytes := r.sizeBytes
    partRows := r.partitionRows
    partBytes := r.partitionBytes
    errMsg := "" }
  { tr with calls := tr.calls ++
    [⟨r.taskID, st.attempts, r.resultFiles, r.workerID, tr.allDone, r.partitionBytes⟩] }

def fail (tr : TaskRetrier) (r : ResultNotification) : TaskRetrier :=
  tr.finish r { tr.states r.taskID with
    errMsg := r.errMsg
    panicked := r.panicked
    sqlState := r.sqlState
    sqlMsg := r.sqlMessage }

def observe (tr : TaskRetrier) (r : ResultNotification) : TaskRetrier × Bool :=
  let st := tr.states r.taskID
  if r.taskID ∉ tr.order ∨ st.terminal then (tr, tr.allDone)
  else if r.success then (tr.succeed r, (tr.succeed r).allDone)
  else if fatalNow tr.fatal r = false ∧ tr.retryEnabled ∧ st.attempts < maxTaskAttempts then
    (tr.redispatch r.taskID, false)
  else (tr.fail r, (tr.fail r).allDone)

-- One round of the loop of `RetryStuck`, which holds the lock for one task at a time.
def retryStuck (tr : TaskRetrier) (id : String) : TaskRetrier :=
  let st := tr.states id
  if id ∉ tr.order ∨ st.terminal ∨ tr.retryEnabled = false ∨ maxTaskAttempts ≤ st.attempts then tr
  else tr.redispatch id

def firstError (tr : TaskRetrier) : Option TaskFailure :=
  tr.order.findSome? fun id =>
    let st := tr.states id
    if st.terminal ∧ st.errMsg ≠ "" then some ⟨id, st.errMsg, st.panicked, st.sqlState, st.sqlMsg⟩
    else none

def files (tr : TaskRetrier) : List (List String) :=
  tr.order.map fun id => (tr.states id).files

end TaskRetrier

-- The calls in the order in which they take the lock; a result is of some attempt.
inductive Event where
  | observe (attempt : Nat) (r : ResultNotification)
  | stuck (id : String)

def step (tr : TaskRetrier) : Event → TaskRetrier
  | .observe _ r => (tr.observe r).1
  | .stuck id => tr.retryStuck id

def run (tr : TaskRetrier) (events : List Event) : TaskRetrier :=
  events.foldl step tr

def failures (events : List Event) (id : String) : List Nat :=
  events.filterMap fun
    | .observe attempt r => if r.taskID = id ∧ r.success = false then some attempt else none
    | .stuck _ => none

def Event.burns (id : String) : Event → Bool
  | .observe _ r => r.taskID = id && !r.success
  | .stuck other => other = id

def TaskRetrier.AllTerminal (tr : TaskRetrier) : Prop :=
  ∀ id ∈ tr.order, (tr.states id).terminal

def Records (r : ResultNotification) (st : TaskAttemptState) : Prop :=
  if r.success then st.files = r.resultFiles ∧ st.partials = r.dynamicFilterPartials ∧
    st.bytes = r.sizeBytes ∧ st.partRows = r.partitionRows ∧ st.partBytes = r.partitionBytes ∧
    st.errMsg = ""
  else st.errMsg = r.errMsg

structure Accounts (events : List Event) (tr : TaskRetrier) : Prop where
  once : (tr.ended.map (·.taskID)).Nodup
  terminal : ∀ id, (tr.states id).terminal ↔ id ∈ tr.ended.map (·.taskID)
  observed : ∀ r ∈ tr.ended, ∃ attempt, .observe attempt r ∈ events
  kept : ∀ r ∈ tr.ended, Records r (tr.states r.taskID)
  calls : tr.calls.map (·.taskID) = (tr.ended.filter (·.success)).map (·.taskID)
  dispatches : ∀ id ∈ tr.order, (tr.dispatched.filter (·.id = id)).length ≤ maxTaskAttempts

-- Every attempt beyond the first was burned by a failure or a stuck round.
structure Inv (events : List Event) (tr : TaskRetrier) : Prop extends Accounts events tr where
  nodup : tr.order.Nodup
  enabled : tr.retryEnabled
  known : ∀ r ∈ tr.ended, r.taskID ∈ tr.order
  count : tr.terminal = tr.ended.length
  sent : ∀ id ∈ tr.order, (tr.dispatched.filter (·.id = id)).length = (tr.states id).attempts
  burned : ∀ id, (tr.states id).attempts ≤ 1 + events.countP (Event.burns id)
  exhausted : ∀ r ∈ tr.ended, r.success = false → fatalNow tr.fatal r ∨
    maxTaskAttempts ≤ events.countP (Event.burns r.taskID)

theorem inv_new {tasks : List Task} (hids : (tasks.map (·.id)).Nodup)
    (fatal : Option (ResultNotification → Bool)) : Inv [] (newTaskRetrier tasks true fatal) := by
  have hsent : ∀ id ∈ tasks.map (·.id), (tasks.filter (·.id = id)).length = 1 := by
    intro id hid
    have hone := count_eq_one_of_mem hids hid
    rwa [count, countP_map, countP_eq_length_filter] at hone
  constructor
  case toAccounts =>
    refine ⟨nodup_nil, fun _ => iff_of_false nofun nofun, nofun, nofun, rfl, fun id hid => ?_⟩
    exact Nat.le_trans (Nat.le_of_eq (hsent id hid)) (by decide)
  case nodup => exact hids
  case enabled => rfl
  case count => rfl
  case sent => exact hsent
  case burned => exact fun _ => Nat.le_refl 1
  all_goals nofun

variable {events : List Event} {tr : TaskRetrier} {event : Event}

theorem countP_le (p : Event → Bool) : events.countP p ≤ (events ++ [event]).countP p := by
  rw [countP_append]
  omega

namespace Inv

variable (h : Inv events tr)

include h

theorem idle : Inv (events ++ [event]) tr :=
  { h with
    observed := fun r hr => (h.observed r hr).imp fun _ => mem_append_left _
    burned := fun id => Nat.le_trans (h.burned id) (Nat.add_le_add_left (countP_le _) 1)
    exhausted := fun r hr hfail =>
      (h.exhausted r hr hfail).imp_right (Nat.le_trans · (countP_le _)) }

variable {id : String} (hlive : (tr.states id).terminal = false)

include hlive

theorem ne_of_live {r : ResultNotification} (hr : r ∈ tr.ended) : r.taskID ≠ id := by
  rintro rfl
  have hended := (h.terminal r.taskID).mpr (mem_map_of_mem hr)
  rw [hlive] at hended
  cases hended

theorem redispatch (hroom : (tr.states id).attempts < maxTaskAttempts) (hburns : event.burns id) :
    Inv (events ++ [event]) (tr.redispatch id) := by
  have hidle : Inv (events ++ [event]) tr := h.idle
  have hstate : ∀ r ∈ tr.ended, (tr.redispatch id).states r.taskID = tr.states r.taskID :=
    fun r hr => update_of_ne (h.ne_of_live hlive hr) _ _
  have hsent : ∀ other ∈ tr.order, ((tr.redispatch id).dispatched.filter (·.id = other)).length =
      ((tr.redispatch id).states other).attempts := by
    refine (forall_update_iff tr.states (p := fun other st => other ∈ tr.order →
      ((tr.redispatch id).dispatched.filter (·.id = other)).length = st.attempts)).mpr ⟨?_, ?_⟩
    · intro hid
      simp [TaskRetrier.redispatch, h.sent id hid]
    · intro other hne hother
      simp [TaskRetrier.redispatch, h.sent other hother, hne.symm]
  have hcapped : ∀ other ∈ tr.order,
      ((tr.redispatch id).states other).attempts ≤ maxTaskAttempts := by
    refine (forall_update_iff tr.states (p := fun other st =>
      other ∈ tr.order → st.attempts ≤ maxTaskAttempts)).mpr ⟨fun _ => hroom, ?_⟩
    exact fun other _ hother => h.sent other hother ▸ h.dispatches other hother
  refine { hidle with
    terminal := (forall_update_iff tr.states (p := fun other st => st.terminal ↔
      other ∈ tr.ended.map ResultNotification.taskID)).mpr
      ⟨h.terminal id, fun other _ => h.terminal other⟩
    kept := fun r hr => hstate r hr ▸ h.kept r hr
    sent := hsent
    dispatches := fun other hother => hsent other hother ▸ hcapped other hother
    burned := (forall_update_iff tr.states (p := fun other st =>
      st.attempts ≤ 1 + (events ++ [event]).countP (Event.burns other))).mpr
      ⟨?_, fun other _ => hidle.burned other⟩ }
  have hbefore := h.burned id
  rw [countP_append, countP_singleton, if_pos hburns]
  dsimp only
  omega

end Inv

-- A task that ends keeps its attempts, and the notification that ended it is recorded.
theorem Inv.finish (h : Inv events tr) {r : ResultNotification} {st : TaskAttemptState}
    {calls : List SuccessCall} (hid : r.taskID ∈ tr.order)
    (hlive : (tr.states r.taskID).terminal = false)
    (hattempts : st.attempts = (tr.states r.taskID).attempts) (hkept : Records r st)
    (hcalls : calls.map (·.taskID) =
      tr.calls.map (·.taskID) ++ if r.success then [r.taskID] else [])
    (hexhausted : r.success = false → fatalNow tr.fatal r ∨
      maxTaskAttempts ≤ (tr.states r.taskID).attempts) (attempt : Nat) :
    Inv (events ++ [.observe attempt r]) { tr.finish r st with calls := calls } := by
  have hidle : Inv (events ++ [.observe attempt r]) tr := h.idle
  have hstate : ∀ r' ∈ tr.ended, (tr.finish r st).states r'.taskID = tr.states r'.taskID :=
    fun r' hr => update_of_ne (h.ne_of_live hlive hr) _ _
  have hown : (tr.finish r st).states r.taskID = { st with terminal := true } := update_self ..
  have hsame : ∀ id, ((tr.finish r st).states id).attempts = (tr.states id).attempts :=
    (forall_update_iff tr.states (p := fun id st => st.attempts = (tr.states id).attempts)).mpr
      ⟨hattempts, fun _ _ => rfl⟩
  constructor
  case toAccounts =>
    refine ⟨?_, ?_, ?_, ?_, ?_, h.dispatches⟩
    · rw [TaskRetrier.finish, map_append]
      refine h.once.append (nodup_singleton _) (disjoint_singleton.mpr fun hmem => ?_)
      obtain ⟨r', hr', heq⟩ := mem_map.mp hmem
      exact h.ne_of_live hlive hr' heq
    · refine (forall_update_iff tr.states (p := fun id st => st.terminal ↔
        id ∈ (tr.ended ++ [r]).map ResultNotification.taskID)).mpr ⟨by simp, fun id hne => ?_⟩
      rw [h.terminal, map_append, mem_append, map_singleton, mem_singleton, or_iff_left hne]
    · refine forall_mem_append.mpr ⟨hidle.observed, forall_mem_singleton.mpr ⟨attempt, ?_⟩⟩
      exact mem_append_right _ mem_cons_self
    · refine forall_mem_append.mpr ⟨fun r' hr => hstate r' hr ▸ h.kept r' hr, ?_⟩
      exact forall_mem_singleton.mpr (hown ▸ hkept)
    · rw [hcalls, h.calls, TaskRetrier.finish, filter_append, map_append]
      cases hok : r.success <;> simp [hok]
  case nodup => exact h.nodup
  case enabled => exact h.enabled
  case known => exact forall_mem_append.mpr ⟨h.known, forall_mem_singleton.mpr hid⟩
  case count => simp [TaskRetrier.finish, h.count]
  case sent => exact fun id hid => (h.sent id hid).trans (hsame id).symm
  case burned => exact fun id => hsame id ▸ hidle.burned id
  case exhausted =>
    refine forall_mem_append.mpr ⟨hidle.exhausted, forall_mem_singleton.mpr fun hfail => ?_⟩
    refine (hexhausted hfail).imp_right fun hlast => ?_
    have hbefore := h.burned r.taskID
    rw [countP_append, countP_singleton, if_pos (by simp [Event.burns, hfail])]
    omega

theorem Inv.step (h : Inv events tr) (event : Event) : Inv (events ++ [event]) (step tr event) := by
  cases event with
  | observe attempt r =>
    simp only [TaskRetry.step, TaskRetrier.observe]
    split_ifs with hskip hok hretry
    · exact h.idle
    all_goals
      simp only [not_or, not_not, Bool.not_eq_true] at hskip
      obtain ⟨hid, hlive⟩ := hskip
    · refine h.finish hid hlive ?_ ?_ ?_ ?_ attempt
      · rfl
      · exact (if_pos hok).mpr ⟨rfl, rfl, rfl, rfl, rfl, rfl⟩
      · simp [hok, TaskRetrier.finish]
      · simp [hok]
    · exact h.redispatch hlive hretry.2.2 (by simp [Event.burns, hok])
    · refine h.finish hid hlive ?_ ?_ ?_ (fun _ => ?_) attempt
      · rfl
      · exact (if_neg hok).mpr rfl
      · simp [hok]
      · simpa [h.enabled, Decidable.or_iff_not_imp_left] using hretry
  | stuck id =>
    simp only [TaskRetry.step, TaskRetrier.retryStuck]
    split_ifs with hskip
    · exact h.idle
    · simp only [not_or, Nat.not_le, Bool.not_eq_true] at hskip
      exact h.redispatch hskip.2.1 hskip.2.2.2 (by simp [Event.burns])

theorem Inv.run (h : Inv events tr) (later : List Event) :
    Inv (events ++ later) (run tr later) := by
  induction later generalizing events tr with
  | nil => rwa [append_nil]
  | cons event later ih => exact append_cons events event later ▸ ih (h.step event)

-- The identifiers and the classifier are fixed, and no task ends twice.
structure Extends (tr later : TaskRetrier) : Prop where
  order : later.order = tr.order
  fatal : later.fatal = tr.fatal
  ended : tr.ended <+: later.ended

theorem extends_step (event : Event) : Extends tr (step tr event) := by
  cases event with
  | observe attempt r =>
    simp only [step, TaskRetrier.observe]
    split_ifs
    · exact ⟨rfl, rfl, prefix_rfl⟩
    · exact ⟨rfl, rfl, prefix_append ..⟩
    · exact ⟨rfl, rfl, prefix_rfl⟩
    · exact ⟨rfl, rfl, prefix_append ..⟩
  | stuck id =>
    simp only [step, TaskRetrier.retryStuck]
    split_ifs <;> exact ⟨rfl, rfl, prefix_rfl⟩

theorem extends_run (events : List Event) : Extends tr (run tr events) := by
  induction events generalizing tr with
  | nil => exact ⟨rfl, rfl, prefix_rfl⟩
  | cons event events ih =>
    have hstep : Extends tr (step tr event) := extends_step event
    have hrest : Extends (step tr event) (run (step tr event) events) := ih
    exact ⟨hrest.order.trans hstep.order, hrest.fatal.trans hstep.fatal,
      hstep.ended.trans hrest.ended⟩

theorem Inv.allDone_iff (h : Inv events tr) : tr.allDone ↔ tr.AllTerminal := by
  have hlen : (tr.ended.map (·.taskID)).length = tr.terminal := (length_map _).trans h.count.symm
  have hall : tr.AllTerminal ↔ tr.order ⊆ tr.ended.map (·.taskID) := by
    simp only [TaskRetrier.AllTerminal, h.terminal]
    rfl
  rw [hall, TaskRetrier.allDone, decide_eq_true_eq, ← hlen]
  constructor
  · intro hle
    have hsub := subperm_of_subset h.once fun id hid => by
      obtain ⟨r, hr, rfl⟩ := mem_map.mp hid
      exact h.known r hr
    exact (hsub.perm_of_length_le hle).symm.subset
  · exact fun hsub => (subperm_of_subset h.nodup hsub).length_le

theorem Inv.observe_done (h : Inv events tr) (r : ResultNotification) :
    (tr.observe r).2 ↔ (tr.observe r).1.AllTerminal := by
  refine Iff.trans ?_ (h.step (.observe 0 r)).allDone_iff
  rw [TaskRetry.step, TaskRetrier.observe]
  split_ifs with hskip
  · rfl
  · rfl
  · -- The task of a retry is not terminal.
    obtain ⟨hid, hlive⟩ := not_or.mp hskip
    exact iff_of_false id fun hdone => hlive (h.allDone_iff.mp hdone r.taskID (not_not.mp hid))
  · rfl

theorem Inv.firstError_iff (h : Inv events tr) :
    tr.firstError.isSome ↔ ∃ r ∈ tr.ended, r.success = false ∧ r.errMsg ≠ "" := by
  have hrecorded : ∀ r ∈ tr.ended,
      (tr.states r.taskID).errMsg ≠ "" ↔ r.success = false ∧ r.errMsg ≠ "" := by
    intro r hr
    have hkept := h.kept r hr
    cases hok : r.success <;> simp_all [Records]
  rw [TaskRetrier.firstError, findSome?_isSome_iff]
  constructor
  · rintro ⟨id, -, hsome⟩
    obtain ⟨hend, htext⟩ : (tr.states id).terminal ∧ (tr.states id).errMsg ≠ "" := by
      simpa using hsome
    obtain ⟨r, hr, rfl⟩ := mem_map.mp ((h.terminal id).mp hend)
    exact ⟨r, hr, (hrecorded r hr).mp htext⟩
  · rintro ⟨r, hr, hfail⟩
    have hend := (h.terminal r.taskID).mpr (mem_map_of_mem hr)
    exact ⟨r.taskID, h.known r hr, by simp [hend, (hrecorded r hr).mpr hfail]⟩

theorem length_failures {id : String} (hstuck : .stuck id ∉ events) :
    (failures events id).length = events.countP (Event.burns id) := by
  rw [failures, length_filterMap_eq_countP]
  refine countP_congr fun event hevent => ?_
  cases event with
  | observe attempt r => simp [Event.burns]
  | stuck other =>
    have hne : other ≠ id := fun heq => hstuck (heq ▸ hevent)
    simp [Event.burns, hne]

theorem retrier_accounts (tasks : List Task) (hids : (tasks.map (·.id)).Nodup)
    (fatal : Option (ResultNotification → Bool)) (events : List Event) :
    let tr := run (newTaskRetrier tasks true fatal) events
    tr.order = tasks.map (·.id) ∧ Accounts events tr ∧
    (∀ later, tr.ended <+: (run tr later).ended) ∧
    (∀ r, (tr.observe r).2 ↔ (tr.observe r).1.AllTerminal) ∧
    (tr.firstError.isSome ↔ ∃ r ∈ tr.ended, r.success = false ∧ r.errMsg ≠ "") ∧
    ∀ r ∈ tr.ended, r.success = false → .stuck r.taskID ∉ events →
      (failures events r.taskID).Nodup →
      fatalNow fatal r ∨ maxTaskAttempts ≤ (failures events r.taskID).dedup.length := by
  intro tr
  have hinv : Inv events tr := (inv_new hids fatal).run events
  have hext : Extends (newTaskRetrier tasks true fatal) tr := extends_run events
  refine ⟨hext.order, hinv.toAccounts, fun later => (extends_run later).ended, hinv.observe_done,
    hinv.firstError_iff, fun r hr hfail hstuck honce => ?_⟩
  rw [honce.dedup, length_failures hstuck, ← show tr.fatal = fatal from hext.fatal]
  exact hinv.exhausted r hr hfail

def single (events : List Event) : TaskRetrier :=
  run (newTaskRetrier [⟨"t", 1, 0⟩] true none) events

def boom : ResultNotification where
  taskID := "t"
  success := false
  error := "boom"

theorem retrier_accounts_retried :
    let events := [.observe 1 boom, .observe 2 { boom with success := true, resultFiles := ["f"] }]
    (single events).files = [["f"]] ∧ (single events).dispatched.length = 2 ∧
      Accounts events (single events) :=
  ⟨by decide, by decide, (retrier_accounts [⟨"t", 1, 0⟩] (by decide) none _).2.1⟩

-- A failure without a text is not reported, and a failed attempt that is delivered three times,
-- or after two stuck rounds, ends the task.
theorem unreported_failure :
    (let tr := single [.observe 1 { boom with error := "", planRefused := true }]
    tr.allDone ∧ tr.firstError.isNone ∧ tr.files = [[]]) ∧
    fatalNow none boom = false ∧
    ∀ events ∈ [replicate 3 (.observe 1 boom), [.stuck "t", .stuck "t", .observe 1 boom]],
      (single events).allDone ∧ (single events).firstError.isSome ∧
        (failures events "t").dedup = [1] := by
  decide

end Wadjet.Coordinator.TaskRetry
