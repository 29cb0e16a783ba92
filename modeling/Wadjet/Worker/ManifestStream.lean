import Mathlib.Data.List.Dedup
import Mathlib.Data.List.Induction
import Mathlib.Data.List.Perm.Subperm
import Wadjet.Data.Results
import Wadjet.Logical.PartitionPruning.Model

-- The consumer of an eager exchange: manifests reach it in any order and any number of times.
namespace Wadjet.Worker.ManifestStream

open List Function Wadjet.Logical.PartitionPruning

structure ProducerTaskManifest where
  taskID : String
  attempt : Int
  files : List String

structure EagerInput where
  producerTaskIDs : List String
  partitionStart : Int
  partitionEnd : Int

-- A `manifestFileSet` has the fields of a manifest, with only the files in range. Of the
-- manifests in `resolved`, one for each task, the code keeps the attempts. `read` is history:
-- the sets that were read to their end.
structure Source where
  resolved : List ProducerTaskManifest
  consumed : String → Option Int
  queue : List ProducerTaskManifest
  poisoned : Option (ProducerTaskManifest × Int)
  inner : Option ProducerTaskManifest
  read : List ProducerTaskManifest

def newManifestStreamSource : Source :=
  ⟨[], fun _ => none, [], none, none, []⟩

inductive Failure where
  | stale (m : ProducerTaskManifest) (pinned : Int)
  | reader
  | cancelled

inductive Answer where
  | batch
  | again
  | eof
  | waits

-- What comes back from the reader of a file set, from opening one, or from waiting.
inductive Io where
  | batch
  | drained
  | fails
deriving DecidableEq

inductive Event where
  | observe (m : ProducerTaskManifest)
  | next (io : Io)

def Event.manifest : Event → Option ProducerTaskManifest
  | .observe m => some m
  | .next _ => none

def partitionOfKey (key : String) : Option Int :=
  (key.toList.tails.find? "partition=".toList.isPrefixOf).bind fun rest =>
    parseInt64 (String.ofList ((rest.drop 10).takeWhile (· ≠ '/')))

-- The place of a task in dispatch order.
def ordinal (ids : List String) (id : String) : Option Int :=
  (ids.reverse.idxOf? id).map fun i => (ids.length : Int) - 1 - i

section Stream

variable (spec : EagerInput)

def filesInRange (m : ProducerTaskManifest) : List String :=
  m.files.filter fun f =>
    ((partitionOfKey f).or (ordinal spec.producerTaskIDs m.taskID)).any fun p =>
      spec.partitionStart ≤ p ∧ p ≤ spec.partitionEnd

def fileSets (m : ProducerTaskManifest) : List ProducerTaskManifest :=
  if filesInRange spec m = [] then [] else [{ m with files := filesInRange spec m }]

-- The set of an earlier attempt that is still in the queue is dropped.
def Source.resolve (s : Source) (m : ProducerTaskManifest) : Source :=
  { s with
    resolved := m :: s.resolved.filter (·.taskID ≠ m.taskID)
    queue := (if s.resolved.any (·.taskID = m.taskID) then s.queue.eraseP (·.taskID = m.taskID)
      else s.queue) ++ fileSets spec m }

-- A later attempt replaces a set that was not read, and poisons the source otherwise.
def observe (s : Source) (m : ProducerTaskManifest) : Source :=
  if m.taskID ∉ spec.producerTaskIDs ∨ s.poisoned.isSome then s
  else if (s.consumed m.taskID).any (· < m.attempt) then
    { s with poisoned := some (m, (s.consumed m.taskID).getD 0) }
  else if s.resolved.any fun r => r.taskID = m.taskID ∧ m.attempt ≤ r.attempt then s
  else s.resolve spec m

-- One round of the loop. A set whose reader does not open is off the queue and pinned.
def next (s : Source) (io : Io) : Except Failure (Source × Answer) :=
  match s.inner, s.poisoned, s.queue with
  | some current, _, _ =>
    match io with
    | .batch => .ok (s, .batch)
    | .drained => .ok ({ s with inner := none, read := s.read ++ [current] }, .again)
    | .fails => .error .reader
  | none, some (m, pinned), _ => .error (.stale m pinned)
  | none, none, current :: queue =>
    if io = .fails then .error .reader
    else
      .ok ({ s with
        queue := queue
        consumed := update s.consumed current.taskID (some current.attempt)
        inner := some current }, .again)
  | none, none, [] =>
    if spec.producerTaskIDs.dedup.length ≤ s.resolved.length then .ok (s, .eof)
    else if io = .fails then .error .cancelled
    else .ok (s, .waits)

def step (s : Source) : Event → Except Failure Source
  | .observe m => .ok (observe spec s m)
  | .next io => (next spec s io).map Prod.fst

-- The pipeline stops at the first error.
def run (events : List Event) : Except Failure Source :=
  events.foldlM (step spec) newManifestStreamSource

-- The sets that were taken off the queue.
def Source.taken (s : Source) : List ProducerTaskManifest :=
  s.read ++ s.inner.toList

def Source.held (s : Source) (id : String) : List ProducerTaskManifest :=
  (s.taken ++ s.queue).filter (·.taskID = id)

structure Inv (ms : List ProducerTaskManifest) (s : Source) : Prop where
  top : s.poisoned = none → ∀ m ∈ ms, m.taskID ∈ spec.producerTaskIDs →
    ∃ m' ∈ s.resolved, m'.taskID = m.taskID ∧ m.attempt ≤ m'.attempt
  resolved : ∀ m ∈ s.resolved, m ∈ ms ∧ m.taskID ∈ spec.producerTaskIDs
  unique : (s.resolved.map (·.taskID)).Nodup
  held : ∀ id, s.held id = (s.resolved.filter (·.taskID = id)).flatMap (fileSets spec)
  pinned : ∀ id, s.consumed id = (s.taken.filter (·.taskID = id)).getLast?.map (·.attempt)
  superseded : ∀ m a, s.poisoned = some (m, a) → m ∈ ms ∧ s.consumed m.taskID = some a ∧
    a < m.attempt

variable {spec} {ms : List ProducerTaskManifest} {s : Source} {m set : ProducerTaskManifest}

theorem mem_fileSets (h : set ∈ fileSets spec m) :
    set.taskID = m.taskID ∧ set.attempt = m.attempt := by
  unfold fileSets at h
  split_ifs at h <;> simp_all

theorem Inv.attempt_of_mem (h : Inv spec ms s) (hset : set ∈ s.taken ++ s.queue) :
    ∃ m ∈ s.resolved, m.taskID = set.taskID ∧ m.attempt = set.attempt := by
  have hmem : set ∈ s.held set.taskID := mem_filter.mpr ⟨hset, by simp⟩
  rw [h.held] at hmem
  obtain ⟨m, hm, hfiles⟩ := mem_flatMap.mp hmem
  simp only [mem_filter, decide_eq_true_eq] at hm
  exact ⟨m, hm.1, hm.2, (mem_fileSets hfiles).2.symm⟩

-- A resolved manifest is the only one of its task.
theorem Inv.filter_resolved (h : Inv spec ms s) (hm : m ∈ s.resolved) :
    s.resolved.filter (·.taskID = m.taskID) = [m] := by
  have hunique := h.unique
  generalize s.resolved = l at hm hunique
  induction l with
  | nil => cases hm
  | cons first l ih =>
    simp only [map_cons, nodup_cons, mem_map, not_exists, not_and] at hunique
    obtain rfl | hm := mem_cons.mp hm
    · have hrest : l.filter (·.taskID = m.taskID) = [] :=
        filter_eq_nil_iff.mpr fun other hother => by simpa using hunique.1 other hother
      simp [hrest]
    · have hfirst : first.taskID ≠ m.taskID := fun hid => hunique.1 m hm hid.symm
      simp [hfirst, ih hm hunique.2]

theorem filter_eraseP (l : List ProducerTaskManifest) (id id' : String) :
    (l.eraseP (·.taskID = id)).filter (·.taskID = id') =
      if id' = id then (l.filter (·.taskID = id')).tail else l.filter (·.taskID = id') := by
  induction l with
  | nil => simp
  | cons set l ih =>
    by_cases hid : set.taskID = id
    · by_cases hsame : id' = id <;> simp_all [eq_comm]
    · by_cases hid' : set.taskID = id' <;> simp_all

theorem Inv.next (h : Inv spec ms s) {io : Io} {s' : Source} {answer : Answer}
    (hnext : next spec s io = .ok (s', answer)) : Inv spec ms s' := by
  unfold ManifestStream.next at hnext
  split at hnext
  case h_1 current hinner =>
    cases io with
    | batch => cases hnext; exact h
    | drained =>
      cases hnext
      exact ⟨h.top, h.resolved, h.unique, by simpa [Source.held, Source.taken, hinner] using h.held,
        by simpa [Source.taken, hinner] using h.pinned, h.superseded⟩
    | fails => cases hnext
  case h_2 => cases hnext
  case h_3 current queue hinner hpoisoned hqueue =>
    split_ifs at hnext
    cases hnext
    refine ⟨h.top, h.resolved, h.unique, ?_, fun id => ?_, by simp [hpoisoned]⟩
    · simpa [Source.held, Source.taken, hinner, hqueue] using h.held
    · by_cases hid : id = current.taskID
      · simp [Source.taken, hid]
      · simpa [Source.taken, hid, Ne.symm hid, hinner] using h.pinned id
  case h_4 =>
    split_ifs at hnext
    · cases hnext
      exact h
    · cases hnext
      exact h

theorem Inv.seen (h : Inv spec ms s) {p : Option (ProducerTaskManifest × Int)}
    (htop : p = none → s.poisoned = none ∧ (m.taskID ∈ spec.producerTaskIDs →
      ∃ m' ∈ s.resolved, m'.taskID = m.taskID ∧ m.attempt ≤ m'.attempt))
    (hp : p = s.poisoned ∨ ∃ a, p = some (m, a) ∧ s.consumed m.taskID = some a ∧ a < m.attempt) :
    Inv spec (ms ++ [m]) { s with poisoned := p } where
  top hnone m' hm' := by
    obtain hm' | hm' := mem_append.mp hm'
    · exact h.top (htop hnone).1 m' hm'
    · exact mem_singleton.mp hm' ▸ (htop hnone).2
  resolved m' hm' := (h.resolved m' hm').imp_left (mem_append_left _)
  unique := h.unique
  held := h.held
  pinned := h.pinned
  superseded m' a hm' := by
    obtain rfl | ⟨b, rfl, hb⟩ := hp
    · exact (h.superseded m' a hm').imp_left (mem_append_left _)
    · cases hm'
      exact ⟨by simp, hb⟩

theorem Inv.held_resolve (h : Inv spec ms s) (htaken : s.taken.filter (·.taskID = m.taskID) = [])
    (id : String) : (s.resolve spec m).held id =
      ((s.resolve spec m).resolved.filter (·.taskID = id)).flatMap (fileSets spec) := by
  have hheld := h.held id
  simp only [Source.held, Source.resolve, filter_append, Source.taken] at hheld htaken ⊢
  by_cases hsame : id = m.taskID
  · subst hsame
    have hfiles : (fileSets spec m).filter (·.taskID = m.taskID) = fileSets spec m :=
      filter_eq_self.mpr fun set hset => by simp [mem_fileSets hset]
    have hother : (s.resolved.filter (·.taskID ≠ m.taskID)).filter (·.taskID = m.taskID) = [] := by
      simp
    rw [htaken, nil_append] at hheld
    rw [htaken, hfiles, nil_append, filter_cons_of_pos (by simp), hother, flatMap_singleton]
    by_cases hresolved : s.resolved.any (·.taskID = m.taskID)
    · obtain ⟨m', hm', hid⟩ := any_eq_true.mp hresolved
      have hid : m'.taskID = m.taskID := of_decide_eq_true hid
      have htail : (fileSets spec m').tail = [] := by
        unfold fileSets
        split_ifs <;> rfl
      rw [← hid, h.filter_resolved hm', flatMap_singleton, hid] at hheld
      simp [hresolved, filter_eraseP, hheld, htail]
    · have hnone : s.resolved.filter (·.taskID = m.taskID) = [] := by
        simpa [filter_eq_nil_iff] using hresolved
      rw [if_neg hresolved, hheld, hnone, flatMap_nil, nil_append]
  · have hfiles : (fileSets spec m).filter (·.taskID = id) = [] :=
      filter_eq_nil_iff.mpr fun set hset => by simp [mem_fileSets hset, Ne.symm hsame]
    have hother : (s.resolved.filter (·.taskID ≠ m.taskID)).filter (·.taskID = id) =
        s.resolved.filter (·.taskID = id) := by
      rw [filter_filter]
      refine filter_congr fun r _ => ?_
      by_cases hid : r.taskID = id <;> simp [hid, hsame]
    rw [hfiles, append_nil, filter_cons_of_neg (by simpa using Ne.symm hsame), hother, ← hheld]
    split_ifs <;> simp [filter_eraseP, hsame]

-- The task was not taken, or its attempt would be the pinned one: at most one set of it is in
-- the queue, and the new one takes its place.
theorem Inv.resolve (h : Inv spec ms s) (hid : m.taskID ∈ spec.producerTaskIDs)
    (hpoisoned : s.poisoned = none)
    (hnew : ∀ m' ∈ s.resolved, m'.taskID = m.taskID → m'.attempt < m.attempt)
    (hpinned : ∀ a ∈ s.consumed m.taskID, m.attempt ≤ a) :
    Inv spec (ms ++ [m]) (s.resolve spec m) := by
  have htaken : s.taken.filter (·.taskID = m.taskID) = [] := by
    by_contra hne
    have hset := getLast_mem hne
    simp only [mem_filter, decide_eq_true_eq] at hset
    obtain ⟨m', hm', hsame, hattempt⟩ := h.attempt_of_mem (mem_append_left s.queue hset.1)
    have hlt := hnew m' hm' (hsame.trans hset.2)
    have hle := hpinned _ (by rw [h.pinned, getLast?_eq_some_getLast hne, Option.map_some]; rfl)
    omega
  refine ⟨fun _ m' hm' hid' => ?_, fun m' hm' => ?_, ?_, h.held_resolve htaken, h.pinned,
    by simp [Source.resolve, hpoisoned]⟩
  · obtain hm' | hm' := mem_append.mp hm'
    · obtain ⟨last, hlast, hsame, hle⟩ := h.top hpoisoned m' hm' hid'
      by_cases hm : m'.taskID = m.taskID
      · have hlt := hnew last hlast (hsame.trans hm)
        exact ⟨m, by simp [Source.resolve], hm.symm, by omega⟩
      · exact ⟨last, by simp [Source.resolve, hlast, hsame, hm], hsame, hle⟩
    · obtain rfl := mem_singleton.mp hm'
      exact ⟨m', by simp [Source.resolve], rfl, Int.le_refl _⟩
  · obtain rfl | hm' := mem_cons.mp hm'
    · exact ⟨by simp, hid⟩
    · exact (h.resolved m' (mem_filter.mp hm').1).imp_left (mem_append_left _)
  · refine nodup_cons.mpr ⟨by simp, ?_⟩
    exact h.unique.sublist (filter_sublist.map _)

theorem Inv.observe (h : Inv spec ms s) (m : ProducerTaskManifest) :
    Inv spec (ms ++ [m]) (observe spec s m) := by
  unfold ManifestStream.observe
  split_ifs with hskip hpinned hstale
  · refine h.seen (fun hp => ⟨hp, fun hid => ?_⟩) (.inl rfl)
    simp [hp, hid] at hskip
  · obtain ⟨a, ha, hlt⟩ := (Option.any_eq_true _ _).mp hpinned
    exact h.seen nofun (.inr ⟨a, by simp [ha], ha, of_decide_eq_true hlt⟩)
  · obtain ⟨m', hm', hle⟩ := any_eq_true.mp hstale
    exact h.seen (fun hp => ⟨hp, fun _ => ⟨m', hm', of_decide_eq_true hle⟩⟩) (.inl rfl)
  · simp only [not_or, not_not, Bool.not_eq_true, Option.isSome_eq_false_iff,
      Option.isNone_iff_eq_none] at hskip
    refine h.resolve hskip.1 hskip.2 (fun m' hm' hid => ?_) fun a ha => ?_
    · simp only [any_eq_true, decide_eq_true_eq, not_exists, not_and] at hstale
      have := hstale m' hm' hid
      omega
    · simpa [Option.mem_def.mp ha] using hpinned

theorem Inv.run {events : List Event} (hrun : run spec events = .ok s) :
    Inv spec (events.filterMap Event.manifest) s := by
  induction events using reverseRecOn generalizing s with
  | nil =>
    cases hrun
    exact ⟨nofun, nofun, nodup_nil, fun _ => rfl, fun _ => rfl, nofun⟩
  | append_singleton events e ih =>
    rw [ManifestStream.run, foldlM_append] at hrun
    obtain ⟨before, hbefore, hrun⟩ := Data.except_bind_ok hrun
    rw [filterMap_append]
    cases e with
    | observe m =>
      cases hrun
      exact (ih hbefore).observe m
    | next io =>
      rw [filterMap_cons_none rfl, filterMap_nil, append_nil]
      obtain ⟨after, hafter, hrun⟩ := Data.except_bind_ok hrun
      obtain ⟨⟨after', answer⟩, hnext, rfl⟩ := Data.except_map_ok hafter
      cases hrun
      exact (ih hbefore).next hnext

-- As many tasks are resolved as there are, so all of them are.
theorem Inv.resolved_all (h : Inv spec ms s)
    (hcount : spec.producerTaskIDs.dedup.length ≤ s.resolved.length) {id : String}
    (hid : id ∈ spec.producerTaskIDs) : ∃ m ∈ s.resolved, m.taskID = id := by
  have hsubset : s.resolved.map (·.taskID) ⊆ spec.producerTaskIDs.dedup := by
    simpa [subset_def, mem_dedup] using fun m hm => (h.resolved m hm).2
  have hperm := (subperm_of_subset h.unique hsubset).perm_of_length_le (by simpa using hcount)
  exact mem_map.mp (hperm.mem_iff.mpr (mem_dedup.mpr hid))

theorem Inv.drained (h : Inv spec ms s) (hp : s.poisoned = none) (hinner : s.inner = none)
    (hqueue : s.queue = []) (hcount : spec.producerTaskIDs.dedup.length ≤ s.resolved.length)
    {id : String} (hid : id ∈ spec.producerTaskIDs) :
    ∃ m ∈ ms, m.taskID = id ∧ (∀ m' ∈ ms, m'.taskID = id → m'.attempt ≤ m.attempt) ∧
      s.read.filter (·.taskID = id) = fileSets spec m := by
  obtain ⟨m, hm, rfl⟩ := h.resolved_all hcount hid
  have hone := h.filter_resolved hm
  refine ⟨m, (h.resolved m hm).1, rfl, fun m' hm' hid' => ?_, ?_⟩
  · obtain ⟨last, hlast, hsame, hle⟩ := h.top hp m' hm' (hid' ▸ hid)
    have hmem : last ∈ s.resolved.filter (·.taskID = m.taskID) := by
      simp [hlast, hsame, hid']
    rw [hone, mem_singleton] at hmem
    exact hmem ▸ hle
  · simpa [Source.held, Source.taken, hinner, hqueue, hone] using h.held m.taskID

-- Fewer are resolved than there are tasks, so of some task no manifest came.
theorem Inv.unresolved (h : Inv spec ms s) (hp : s.poisoned = none)
    (hcount : ¬spec.producerTaskIDs.dedup.length ≤ s.resolved.length) :
    ∃ id ∈ spec.producerTaskIDs, ∀ m ∈ ms, m.taskID ≠ id := by
  by_contra hall
  push Not at hall
  refine hcount ?_
  have hsubset : spec.producerTaskIDs.dedup ⊆ s.resolved.map (·.taskID) := fun id hid => by
    obtain ⟨m, hm, rfl⟩ := hall id (mem_dedup.mp hid)
    obtain ⟨m', hm', hsame, -⟩ := h.top hp m hm (mem_dedup.mp hid)
    exact mem_map.mpr ⟨m', hm', hsame⟩
  simpa using (subperm_of_subset (nodup_dedup _) hsubset).length_le

-- At the end each task was read once, at the latest attempt seen. The source waits only for a
-- task it has no manifest of, and calls its input stale only when a set it took was superseded.
theorem next_answer {events : List Event} (hrun : run spec events = .ok s) (io : Io) :
    let ms := events.filterMap Event.manifest
    match next spec s io with
    | .ok (_, .eof) => (∀ set ∈ s.read, set.taskID ∈ spec.producerTaskIDs) ∧
      ∀ id ∈ spec.producerTaskIDs, ∃ m ∈ ms, m.taskID = id ∧
        (∀ m' ∈ ms, m'.taskID = id → m'.attempt ≤ m.attempt) ∧
        s.read.filter (·.taskID = id) = fileSets spec m
    | .ok (_, .waits) => ∃ id ∈ spec.producerTaskIDs, ∀ m ∈ ms, m.taskID ≠ id
    | .ok (_, .batch) => s.inner ≠ none
    | .ok (s', .again) => s'.taken ++ s'.queue = s.taken ++ s.queue
    | .error (.stale m a) => m ∈ ms ∧ a < m.attempt ∧
      ∃ set ∈ s.taken, set.taskID = m.taskID ∧ set.attempt = a
    | .error .reader | .error .cancelled => io = .fails := by
  intro ms
  have h : Inv spec ms s := .run hrun
  cases hinner : s.inner with
  | some current => cases io <;> simp [next, hinner, Source.taken]
  | none =>
    cases hp : s.poisoned with
    | some pair =>
      obtain ⟨hm, ha, hlt⟩ := h.superseded pair.1 pair.2 hp
      simp only [next, hinner, hp]
      refine ⟨hm, hlt, ?_⟩
      rw [h.pinned] at ha
      obtain ⟨set, hset, hattempt⟩ := Option.map_eq_some_iff.mp ha
      have hmem := mem_of_getLast? hset
      simp only [mem_filter, decide_eq_true_eq] at hmem
      exact ⟨set, hmem.1, hmem.2, hattempt⟩
    | none =>
      cases hqueue : s.queue with
      | cons current queue =>
        simp only [next, hinner, hp, hqueue]
        split_ifs with hfails
        · exact hfails
        · simp [Source.taken, hinner]
      | nil =>
        simp only [next, hinner, hp, hqueue]
        split_ifs with hcount hfails
        · refine ⟨fun set hset => ?_, fun id => h.drained hp hinner hqueue hcount⟩
          have htaken : set ∈ s.taken ++ s.queue := by simp [Source.taken, hset]
          obtain ⟨m, hm, hsame, -⟩ := h.attempt_of_mem htaken
          exact hsame ▸ (h.resolved m hm).2
        · exact hfails
        · exact h.unresolved hp hcount

theorem next_eof {io : Io} {s' : Source} (h : next spec s io = .ok (s', .eof)) :
    s.inner = none ∧ s.poisoned = none ∧ s.queue = [] ∧
      spec.producerTaskIDs.dedup.length ≤ s.resolved.length := by
  unfold next at h
  split at h
  case h_1 => cases io <;> cases h
  case h_2 => cases h
  case h_3 => split_ifs at h; cases h
  case h_4 hinner hp hqueue =>
    split_ifs at h with hcount
    · exact ⟨hinner, hp, hqueue, hcount⟩
    · cases h

end Stream

-- The last task takes what the division leaves over.
def partitionRangeForWorker (numPartitions w workerCount : Nat) : Nat × Nat :=
  if numPartitions = 0 ∨ workerCount = 0 ∨ workerCount ≤ w then (0, 0)
  else
    let partsPerWorker := max (numPartitions / workerCount) 1
    let start := w * partsPerWorker
    let stop := if w = workerCount - 1 then numPartitions else start + partsPerWorker
    if numPartitions ≤ start then (0, 0) else (start, min stop numPartitions)

def eagerInputForTask (ids : List String) (numPartitions w numTasks : Nat) : EagerInput :=
  let range := partitionRangeForWorker numPartitions w numTasks
  ⟨ids, range.1, range.2 - 1⟩

-- The task whose range has the partition.
def workerOf (numPartitions workerCount p : Nat) : Nat :=
  min (p / max (numPartitions / workerCount) 1) (workerCount - 1)

section Exchange

variable {ids : List String} {n count w p : Nat} {m : ProducerTaskManifest} {f : String}

theorem mem_partitionRangeForWorker (hw : w < count) (hp : p < n) :
    (partitionRangeForWorker n w count).1 ≤ p ∧ p < (partitionRangeForWorker n w count).2 ↔
      w = workerOf n count p := by
  unfold partitionRangeForWorker workerOf
  generalize hparts : max (n / count) 1 = parts
  have hpos : 0 < parts := by omega
  have hle := Nat.le_div_iff_mul_le hpos (x := w) (y := p)
  have hlt := Nat.div_lt_iff_lt_mul hpos (x := p) (y := w + 1)
  rw [Nat.add_one_mul] at hlt
  rw [if_neg (by omega)]
  dsimp only
  split_ifs <;> simp only [] <;> omega

theorem mem_filesInRange {spec : EagerInput} {p : Int} (hf : f ∈ m.files)
    (hpart : (partitionOfKey f).or (ordinal spec.producerTaskIDs m.taskID) = some p) :
    f ∈ filesInRange spec m ↔ spec.partitionStart ≤ p ∧ p ≤ spec.partitionEnd := by
  simp [filesInRange, hf, hpart]

-- A consumer that came to the end of its input.
def Ends (spec : EagerInput) (events : List Event) (s : Source) : Prop :=
  run spec events = .ok s ∧ ∃ io, next spec s io = .ok (s, .eof)

-- The consumers of one exchange, each with its own deliveries, have all come to the end. A file
-- of the latest attempt of a task was read by one of them.
theorem file_read_once (events : Nat → List Event) (sources : Nat → Source)
    (hend : ∀ w < count, Ends (eagerInputForTask ids n w count) (events w) (sources w) ∧
      m ∈ (events w).filterMap Event.manifest ∧
        ∀ m' ∈ (events w).filterMap Event.manifest, m'.taskID = m.taskID →
          m.attempt ≤ m'.attempt → m' = m)
    (hid : m.taskID ∈ ids) (hf : f ∈ m.files)
    (hpart : (partitionOfKey f).or (ordinal ids m.taskID) = some (p : Int))
    (hp : p < n) (hcount : 0 < count) :
    ∃! w, w < count ∧ ∃ set ∈ (sources w).read, set.taskID = m.taskID ∧ f ∈ set.files := by
  have hread : ∀ w < count, (∃ set ∈ (sources w).read, set.taskID = m.taskID ∧ f ∈ set.files) ↔
      w = workerOf n count p := fun w hw => by
    obtain ⟨hends, hm, hlatest⟩ := hend w hw
    obtain ⟨hrun, io, hnext⟩ := hends
    obtain ⟨hinner, hpoisoned, hqueue, htasks⟩ := next_eof hnext
    obtain ⟨last, hlast, hsame, hle, hsets⟩ :=
      (Inv.run hrun).drained hpoisoned hinner hqueue htasks hid
    obtain rfl := hlatest last hlast hsame (hle m hm rfl)
    have hmem := fun set =>
      (mem_filter (x := set)).symm.trans (iff_of_eq (congrArg (set ∈ ·) hsets))
    simp only [decide_eq_true_eq] at hmem
    rw [← mem_partitionRangeForWorker hw hp]
    calc _ ↔ f ∈ filesInRange (eagerInputForTask ids n w count) last := by
          simp only [← and_assoc, hmem]
          unfold fileSets
          split_ifs with hnil <;> simp [hnil]
      _ ↔ _ := mem_filesInRange hf hpart
      _ ↔ _ := by
          dsimp only [eagerInputForTask]
          omega
  have hlt : workerOf n count p < count := by
    unfold workerOf
    omega
  exact ⟨_, ⟨hlt, (hread _ hlt).mpr rfl⟩, fun w hw => (hread w hw.1).mp hw.2⟩

end Exchange

-- Two consumers of a task that was tried twice, each reading until nothing is left.
def retried : List Event :=
  [.observe ⟨"a", 0, []⟩, .observe ⟨"a", 1, ["partition=1"]⟩, .next .batch, .next .drained]

def retriedSource (w : Nat) : Source :=
  ((run (eagerInputForTask ["a"] 2 w 2) retried).toOption).getD newManifestStreamSource

theorem next_answer_retried :
    ∃ m ∈ retried.filterMap Event.manifest, m.attempt ≥ 1 ∧
      (retriedSource 1).read.filter (·.taskID = "a") =
        fileSets (eagerInputForTask ["a"] 2 1 2) m := by
  have hrun : run (eagerInputForTask ["a"] 2 1 2) retried = .ok (retriedSource 1) := rfl
  obtain ⟨m, hm, -, hlatest, hread⟩ := (next_answer hrun .batch).2 "a" (by simp [eagerInputForTask])
  exact ⟨m, hm, hlatest ⟨"a", 1, ["partition=1"]⟩ (by simp [retried, Event.manifest]) rfl, hread⟩

theorem file_read_once_retried :
    ∃! w, w < 2 ∧ ∃ set ∈ (retriedSource w).read,
      set.taskID = "a" ∧ "partition=1" ∈ set.files := by
  have hend : ∀ w < 2, Ends (eagerInputForTask ["a"] 2 w 2) retried (retriedSource w) := by
    intro w hw
    obtain rfl | rfl : w = 0 ∨ w = 1 := by omega
    · exact ⟨rfl, .batch, rfl⟩
    · exact ⟨rfl, .batch, rfl⟩
  exact file_read_once (p := 1) (m := ⟨"a", 1, ["partition=1"]⟩) (fun _ => retried) retriedSource
    (fun w hw => ⟨hend w hw, by simp [retried, Event.manifest], by simp [retried, Event.manifest]⟩)
    (by simp) (by simp) rfl (by decide) (by decide)

end Wadjet.Worker.ManifestStream
