import Wadjet.Physical.ScanCache.Model

namespace Wadjet.Physical.ScanCache

open List Function

variable {α : Type}

def Cache.Released (cache : Cache α) : Prop := cache.done ∨ cache.abandoned

def Plan.Serves (plan : Plan α) (i : plan.Index) (batches : List (Batch α)) : Prop :=
  plan.initFails i = false ∧ batches.Perm (plan.source i)

def Consumer.Ok (plan : Plan α) (cache : Cache α) (i : plan.Index) (consumer : Consumer α) : Prop :=
  match consumer.phase with
  | .idle | .waiting =>
    consumer.claimed = false ∧ consumer.ended = false ∧ consumer.failed = false ∧ consumer.received = []
  | .stopped => consumer.ended = false ∧ (consumer.claimed → cache.Released)
  | .claiming =>
    consumer.claimed ∧ consumer.ended = false ∧ consumer.failed = false ∧
      consumer.received = [] ∧ cache.batches = [] ∧ cache.done = false ∧
      (consumer.closed → cache.Released)
  | .scanning =>
    consumer.claimed ∧ consumer.received = cache.batches.map (plan.project i) ∧
      plan.Serves i (cache.batches ++ consumer.inner) ∧
      (cache.done → consumer.inner = []) ∧ (consumer.ended → cache.done) ∧
      (consumer.failed ∨ consumer.closed → cache.Released)
  | .replaying =>
    consumer.claimed = false ∧ cache.done ∧
      consumer.received = (cache.batches.take consumer.replayIdx).map (plan.project i) ∧
      (consumer.ended → cache.batches.length ≤ consumer.replayIdx)

structure Cache.Ok (cache : Cache α) : Prop where
  closed_iff : cache.ready = .closed ↔ cache.Released
  closes : cache.closes = if cache.ready = .closed then 1 else 0
  exclusive : ¬ (cache.done ∧ cache.abandoned)
  unclaimed : cache.ready = .unclaimed → cache.batches = []

structure State.Inv {plan : Plan α} (state : State plan) : Prop where
  cache : state.cache.Ok
  consumers : ∀ i, (state.consumers i).Ok plan state.cache i
  claimant : ∀ i j, (state.consumers i).claimed → (state.consumers j).claimed → i = j
  unclaimed_iff : state.cache.ready = .unclaimed ↔ ∀ i, (state.consumers i).claimed = false
  filled : state.cache.done → ∃ i, (state.consumers i).phase = .scanning

section Caches

variable {cache : Cache α}

theorem Cache.Ok.not_released (h : cache.Ok) (hready : cache.ready ≠ .closed) : ¬ cache.Released :=
  fun hreleased => hready (h.closed_iff.mpr hreleased)

theorem Cache.Ok.open (h : cache.Ok) (hclaimed : cache.ready ≠ .unclaimed) (hnot : ¬ cache.Released) :
    cache.ready = .opened := by
  cases hready : cache.ready with
  | unclaimed => exact absurd hready hclaimed
  | opened => rfl
  | closed => exact absurd (h.closed_iff.mp hready) hnot

theorem Cache.Ok.abandon (h : cache.Ok) (hclaimed : cache.ready ≠ .unclaimed) :
    cache.abandon.Ok ∧ cache.abandon.Released ∧ cache.abandon.ready ≠ .unclaimed ∧
      cache.abandon.batches = cache.batches ∧ cache.abandon.done = cache.done := by
  unfold Cache.abandon
  split
  · rename_i hover
    have hover : cache.Released := by simpa [Cache.Released] using hover
    exact ⟨h, hover, hclaimed, rfl, rfl⟩
  · rename_i hover
    have hnot : ¬ cache.Released := by simpa [Cache.Released] using hover
    have hready := h.open hclaimed hnot
    obtain ⟨hdone, -⟩ := not_or.mp hnot
    have hcloses : cache.closes = 0 := by simpa [hready] using h.closes
    simp only [Cache.closeReady, hready]
    refine ⟨⟨?_, ?_, ?_, ?_⟩, Or.inr rfl, by simp, by simp⟩
    · simp [Cache.Released]
    · simp [hcloses]
    · simp [hdone]
    · simp

theorem Cache.abandon_of_released (h : cache.Released) : cache.abandon = cache := by
  unfold Cache.abandon
  rw [if_pos (by simpa [Cache.Released] using h)]

theorem Cache.Ok.finish (h : cache.Ok) (hclaimed : cache.ready ≠ .unclaimed) (hnot : ¬ cache.Released) :
    cache.finish.Ok ∧ cache.finish.done ∧ cache.finish.ready ≠ .unclaimed ∧
      cache.finish.batches = cache.batches := by
  have hready := h.open hclaimed hnot
  have hcloses : cache.closes = 0 := by simpa [hready] using h.closes
  obtain ⟨-, habandoned⟩ := not_or.mp hnot
  simp only [Cache.finish, Cache.closeReady, hready]
  refine ⟨⟨?_, ?_, ?_, ?_⟩, by simp, by simp, by simp⟩
  · simp [Cache.Released]
  · simp [hcloses]
  · simp [habandoned]
  · simp

end Caches

section Consumers

variable {plan : Plan α} {cache cache' : Cache α} {i : plan.Index} {consumer : Consumer α}
  (h : consumer.Ok plan cache i)

include h

theorem Consumer.Ok.of_bystander (hclaimed : consumer.claimed = false)
    (hdone : cache.done = false) : consumer.Ok plan cache' i := by
  unfold Consumer.Ok at h ⊢
  cases hphase : consumer.phase <;> simp only [hphase] at h ⊢
  · exact h
  · exact h
  · simp [hclaimed] at h
  · simp [hclaimed] at h
  · simp [hdone] at h
  · exact ⟨h.1, by simp [hclaimed]⟩

theorem Consumer.Ok.of_same_batches (hbatches : cache'.batches = cache.batches) (hdone : cache'.done = cache.done)
    (hreleased : cache.Released → cache'.Released) : consumer.Ok plan cache' i := by
  unfold Consumer.Ok at h ⊢
  cases hphase : consumer.phase <;> simp only [hphase, hbatches, hdone] at h ⊢
  · exact h
  · exact h
  · obtain ⟨hclaimed, hended, hfailed, hreceived, hempty, hopen, hclosed⟩ := h
    exact ⟨hclaimed, hended, hfailed, hreceived, hempty, hopen, fun hc => hreleased (hclosed hc)⟩
  · obtain ⟨hclaimed, hreceived, hperm, hinner, hended, hover⟩ := h
    exact ⟨hclaimed, hreceived, hperm, hinner, hended, fun hc => hreleased (hover hc)⟩
  · exact h
  · exact ⟨h.1, fun hc => hreleased (h.2 hc)⟩

theorem Consumer.Ok.close (hreleased : consumer.claimed → cache.Released) :
    Consumer.Ok plan cache i { consumer with closed := true } := by
  unfold Consumer.Ok at h ⊢
  cases hphase : consumer.phase <;> simp only [hphase] at h ⊢
  · exact h
  · exact h
  · obtain ⟨hclaimed, hended, hfailed, hreceived, hempty, hopen, -⟩ := h
    exact ⟨hclaimed, hended, hfailed, hreceived, hempty, hopen, fun _ => hreleased hclaimed⟩
  · obtain ⟨hclaimed, hreceived, hperm, hinner, hended, -⟩ := h
    exact ⟨hclaimed, hreceived, hperm, hinner, hended, fun _ => hreleased hclaimed⟩
  · exact h
  · exact h

end Consumers

namespace State.Inv

variable {plan : Plan α} {state : State plan} {i : plan.Index} (h : state.Inv)

include h

theorem ready_of_claimed (hclaimed : (state.consumers i).claimed) :
    state.cache.ready ≠ .unclaimed := by
  intro hready
  simp [h.unclaimed_iff.mp hready i] at hclaimed

theorem set_consumer {consumer : Consumer α} (hok : consumer.Ok plan state.cache i)
    (hclaimed : consumer.claimed = (state.consumers i).claimed)
    (hphase : (state.consumers i).phase = .scanning → consumer.phase = .scanning) :
    (state.set i state.cache consumer).Inv := by
  have hsame : ∀ j, ((state.set i state.cache consumer).consumers j).claimed =
      (state.consumers j).claimed :=
    (forall_update_iff state.consumers (p := fun j c => c.claimed = (state.consumers j).claimed)).mpr
      ⟨hclaimed, fun _ _ => rfl⟩
  refine ⟨h.cache, ?_, ?_, ?_, ?_⟩
  · exact (forall_update_iff state.consumers (p := fun j c => c.Ok plan state.cache j)).mpr
      ⟨hok, fun j _ => h.consumers j⟩
  · intro j k hj hk
    rw [hsame] at hj hk
    exact h.claimant j k hj hk
  · simp only [hsame]
    exact h.unclaimed_iff
  · intro hdone
    obtain ⟨j, hj⟩ := h.filled hdone
    refine ⟨j, ?_⟩
    by_cases hji : j = i
    · subst hji
      simpa [State.set] using hphase hj
    · simpa [State.set, update_of_ne hji] using hj

theorem others (hclaimed : (state.consumers i).claimed) (j : plan.Index)
    (hj : j ≠ i) : (state.consumers j).claimed = false := by
  by_contra hclaim
  exact hj (h.claimant j i (by simpa using hclaim) hclaimed)

theorem set_claimant {cache : Cache α} {consumer : Consumer α} (hdone : state.cache.done = false)
    (hother : ∀ j, j ≠ i → (state.consumers j).claimed = false)
    (hcache : cache.Ok) (hready : cache.ready ≠ .unclaimed) (hok : consumer.Ok plan cache i)
    (hkeep : consumer.claimed) (hfilled : cache.done → consumer.phase = .scanning) :
    (state.set i cache consumer).Inv := by
  refine ⟨hcache, ?_, ?_, ?_, ?_⟩
  · exact (forall_update_iff state.consumers (p := fun j c => c.Ok plan cache j)).mpr
      ⟨hok, fun j hj => (h.consumers j).of_bystander (hother j hj) hdone⟩
  · intro j k hj hk
    have hwho : ∀ j, ((state.set i cache consumer).consumers j).claimed → j = i := by
      intro j hj
      by_contra hne
      simp [State.set, update_of_ne hne, hother j hne] at hj
    rw [hwho j hj, hwho k hk]
  · constructor
    · exact fun hunclaimed => absurd hunclaimed hready
    · intro hnone
      have hi := hnone i
      simp [State.set, hkeep] at hi
  · intro hfull
    exact ⟨i, by simpa [State.set] using hfilled hfull⟩

end State.Inv

theorem State.initial_inv (plan : Plan α) : (State.initial plan).Inv where
  cache := ⟨by simp [State.initial, Cache.empty, Cache.Released], by simp [State.initial, Cache.empty],
    by simp [State.initial, Cache.empty], fun _ => rfl⟩
  consumers := fun i => ⟨rfl, rfl, rfl, rfl⟩
  claimant := by simp [State.initial, Consumer.idle]
  unclaimed_iff := by simp [State.initial, Cache.empty, Consumer.idle]
  filled := by simp [State.initial, Cache.empty]

namespace State.Inv

variable {plan : Plan α} {state next : State plan} {i : plan.Index} (h : state.Inv)

include h

theorem init (hstep : state.init i = some next) : next.Inv := by
  have hok := h.consumers i
  simp only [State.init] at hstep
  split at hstep
  · cases hstep
  · rename_i hphase
    have hphase : (state.consumers i).phase = .idle := by simpa using hphase
    simp only [Consumer.Ok, hphase] at hok
    obtain ⟨hclaimed, hended, hfailed, hreceived⟩ := hok
    split at hstep
    · rename_i hdone
      cases hstep
      refine h.set_consumer ?_ rfl (by simp [hphase])
      exact ⟨hclaimed, hdone, by simp [hreceived], by simp [hended]⟩
    · rename_i hdone
      have hdone : state.cache.done = false := by simpa using hdone
      split at hstep
      · rename_i hready
        cases hstep
        have hnot := h.cache.not_released (by rw [hready]; decide)
        have hbatches := h.cache.unclaimed hready
        refine h.set_claimant hdone (fun j _ => h.unclaimed_iff.mp hready j) ⟨?_, ?_, ?_, ?_⟩ (by simp) ?_
          rfl (by simp [hdone])
        · simpa [Cache.Released] using hnot
        · simpa [hready] using h.cache.closes
        · simp [hdone]
        · simp
        · exact ⟨rfl, hended, hfailed, hreceived, hbatches, hdone, by simp⟩
      all_goals
        cases hstep
        refine h.set_consumer ?_ rfl (by simp [hphase])
        exact ⟨hclaimed, hended, hfailed, hreceived⟩

theorem innerInit {ok : Bool} (hstep : state.innerInit i ok = some next) : next.Inv := by
  have hok := h.consumers i
  simp only [State.innerInit] at hstep
  split at hstep
  · cases hstep
  · rename_i hphase
    have hphase : (state.consumers i).phase = .claiming := by simpa using hphase
    simp only [Consumer.Ok, hphase] at hok
    obtain ⟨hclaimed, hended, hfailed, hreceived, hbatches, hdone, hclosed⟩ := hok
    split at hstep
    · rename_i hopens
      obtain ⟨-, hopens⟩ := Bool.and_eq_true_iff.mp hopens
      cases hstep
      refine h.set_consumer ?_ rfl (by simp [hphase])
      refine ⟨hclaimed, by simp [hreceived, hbatches], ⟨by simpa using hopens, by simp [hbatches]⟩, by simp [hdone],
        by simp [hended], ?_⟩
      simpa [hfailed] using hclosed
    · cases hstep
      obtain ⟨hcache, hreleased, hready, -, hsame⟩ := h.cache.abandon (h.ready_of_claimed hclaimed)
      refine h.set_claimant hdone (h.others hclaimed) hcache hready ?_ hclaimed (by simp [hsame, hdone])
      exact ⟨hended, fun _ => hreleased⟩

theorem stop (hphase : (state.consumers i).phase = .waiting) :
    (state.set i state.cache { state.consumers i with phase := .stopped, failed := true }).Inv := by
  have hok := h.consumers i
  simp only [Consumer.Ok, hphase] at hok
  obtain ⟨hclaimed, hended, -⟩ := hok
  refine h.set_consumer ?_ rfl (by simp [hphase])
  exact ⟨hended, by simp [hclaimed]⟩

theorem wake (hstep : state.wake i = some next) : next.Inv := by
  have hok := h.consumers i
  simp only [State.wake] at hstep
  split at hstep
  · cases hstep
  · rename_i hphase
    have hphase : (state.consumers i).phase = .waiting := by
      simp only [Bool.or_eq_true, decide_eq_true_eq, not_or, not_not] at hphase
      exact hphase.1
    split at hstep
    · rename_i hdone
      cases hstep
      simp only [Consumer.Ok, hphase] at hok
      obtain ⟨hclaimed, hended, -, hreceived⟩ := hok
      refine h.set_consumer ?_ rfl (by simp [hphase])
      exact ⟨hclaimed, hdone, by simp [hreceived], by simp [hended]⟩
    · cases hstep
      exact h.stop hphase

theorem cancel (hstep : state.cancel i = some next) : next.Inv := by
  simp only [State.cancel] at hstep
  split at hstep
  · cases hstep
  · rename_i hphase
    cases hstep
    exact h.stop (by simpa using hphase)

theorem nextReplay (hphase : (state.consumers i).phase = .replaying) :
    (state.nextReplay i).Inv := by
  have hok := h.consumers i
  simp only [Consumer.Ok, hphase] at hok
  obtain ⟨hclaimed, hdone, hreceived, hended⟩ := hok
  cases hbatch : state.cache.batches[(state.consumers i).replayIdx]? with
  | none =>
    have hlength := getElem?_eq_none_iff.mp hbatch
    simp only [State.nextReplay, hbatch]
    refine h.set_consumer ?_ rfl (by simp [hphase])
    simp only [Consumer.Ok, hphase]
    refine ⟨hclaimed, hdone, ?_, fun _ => by omega⟩
    rw [hreceived, take_of_length_le hlength, take_of_length_le (by omega)]
  | some batch =>
    simp only [State.nextReplay, hbatch]
    refine h.set_consumer ?_ rfl (by simp [hphase])
    simp only [Consumer.Ok, hphase]
    refine ⟨hclaimed, hdone, ?_, fun hend => by have := hended hend; omega⟩
    rw [hreceived, take_add_one, hbatch]
    simp

theorem nextScan (hphase : (state.consumers i).phase = .scanning) {pull : Pull}
    (hstep : state.nextScan i pull = some next) : next.Inv := by
  have hok := h.consumers i
  simp only [Consumer.Ok, hphase] at hok
  obtain ⟨hclaimed, hreceived, hperm, hinner, hended, hreleased⟩ := hok
  have hready := h.ready_of_claimed hclaimed
  simp only [State.nextScan] at hstep
  split at hstep
  · rename_i hdone
    cases hstep
    refine h.set_consumer ?_ rfl (by simp [hphase])
    simp only [hphase]
    exact ⟨hclaimed, hreceived, hperm, hinner, fun _ => hdone, hreleased⟩
  · rename_i hdone
    have hdone : state.cache.done = false := by simpa using hdone
    cases pull with
    | fail =>
      cases hstep
      obtain ⟨hcache, hover, hready', hbatches, hsame⟩ := h.cache.abandon hready
      refine h.set_claimant hdone (h.others hclaimed) hcache hready' ?_ hclaimed (by simp [hphase])
      simp only [Consumer.Ok, hphase, hbatches, hsame]
      exact ⟨hclaimed, hreceived, hperm, hinner, hended, fun _ => hover⟩
    | batch k =>
      obtain ⟨batch, hbatch, rfl⟩ := Option.map_eq_some_iff.mp hstep
      refine h.set_claimant hdone (h.others hclaimed) ?_ hready ?_ hclaimed (by simp [hdone])
      · exact ⟨h.cache.closed_iff, h.cache.closes, h.cache.exclusive, fun hun => absurd hun hready⟩
      · simp only [hphase]
        refine ⟨hclaimed, by simp [hreceived], ?_, by simp [hdone], hended, hreleased⟩
        obtain ⟨hk, rfl⟩ := List.getElem?_eq_some_iff.mp hbatch
        have hpull := getElem_cons_eraseIdx_perm hk
        rw [append_assoc]
        exact ⟨hperm.1, (hpull.append_left _).trans hperm.2⟩
    | eos =>
      simp only at hstep
      split at hstep
      · cases hstep
      · rename_i hempty
        split at hstep
        · rename_i habandoned
          cases hstep
          refine h.set_consumer ?_ rfl (by simp [hphase])
          simp only [hphase]
          exact ⟨hclaimed, hreceived, hperm, hinner, hended, fun _ => Or.inr habandoned⟩
        · rename_i habandoned
          cases hstep
          have hnot : ¬ state.cache.Released := by simp [Cache.Released, hdone, habandoned]
          have hdrained : (state.consumers i).inner = [] := by
            -- a closed claimant would have released the cache
            have hclosed : (state.consumers i).closed = false := by
              by_contra hclosed
              exact hnot (hreleased (Or.inr (by simpa using hclosed)))
            simpa [hclosed] using hempty
          obtain ⟨hcache, hfull, hready', hbatches⟩ := h.cache.finish hready hnot
          refine h.set_claimant hdone (h.others hclaimed) hcache hready' ?_ hclaimed fun _ => hphase
          simp only [Consumer.Ok, hphase, hbatches]
          exact ⟨hclaimed, hreceived, hperm, fun _ => hdrained, fun _ => hfull, fun _ => Or.inl hfull⟩

theorem close (i : plan.Index) : (state.close i).Inv := by
  have hok := h.consumers i
  unfold State.close
  by_cases hfree : (state.consumers i).claimed → state.cache.Released
  · have hsame : (if (state.consumers i).claimed then state.cache.abandon else state.cache) =
        state.cache := by
      split
      · rename_i hclaimed
        exact Cache.abandon_of_released (hfree hclaimed)
      · rfl
    simp only [hsame]
    exact h.set_consumer (hok.close hfree) rfl id
  · obtain ⟨hclaimed, hnot⟩ := Classical.not_imp.mp hfree
    have hdone : state.cache.done = false := by
      by_contra hdone
      exact hnot (Or.inl (by simpa using hdone))
    obtain ⟨hcache, hover, hready, hbatches, hsame⟩ := h.cache.abandon (h.ready_of_claimed hclaimed)
    dsimp only
    rw [if_pos hclaimed]
    refine h.set_claimant hdone (h.others hclaimed) hcache hready ?_ hclaimed (by simp [hsame, hdone])
    exact (hok.of_same_batches hbatches hsame fun _ => hover).close fun _ => hover

theorem step {event : Event plan.scans.length} (hstep : state.step event = some next) :
    next.Inv := by
  cases event with
  | init i => exact h.init hstep
  | innerInit i ok => exact h.innerInit hstep
  | wake i => exact h.wake hstep
  | cancel i => exact h.cancel hstep
  | next i pull =>
    simp only [State.step, State.next] at hstep
    split at hstep
    · rename_i hphase
      cases hstep
      exact h.nextReplay hphase
    · rename_i hphase
      exact h.nextScan hphase hstep
    all_goals cases hstep
  | close i =>
    cases hstep
    exact h.close i

end State.Inv

theorem Plan.Reachable.inv {plan : Plan α} {state : State plan} (h : plan.Reachable state) : state.Inv :=
  Data.Reachable.invariant (fun _ hstart => hstart ▸ State.initial_inv plan)
    (fun _ _ _ hinv hstep => hinv.step hstep) h

end Wadjet.Physical.ScanCache
