import Mathlib.Data.Set.Card
import Wadjet.Data.Ring

namespace Wadjet.Data

open List Function

section Probing

variable {K V : Type} {n : Nat}

-- No key is twice in the slots, and every slot on the way from a key's home to
-- its slot is taken.
structure Chained (home : K → Fin n) (slots : Fin n → Option (K × V)) : Prop where
  unique : ∀ {i j : Fin n} {k : K} {v w : V},
    slots i = some (k, v) → slots j = some (k, w) → i = j
  reach : ∀ {i : Fin n} {k : K} {v : V}, slots i = some (k, v) →
    ∀ x, gap (home k) x < gap (home k) i → slots x ≠ none

def Represents (slots : Fin n → Option (K × V)) (m : K → Option V) : Prop :=
  ∀ k v, m k = some v ↔ ∃ i, slots i = some (k, v)

variable {home : K → Fin n} {slots : Fin n → Option (K × V)} {m : K → Option V} {key : K}
  {i : Fin n} {v : V}

theorem Represents.ne_of_none (hrep : Represents slots m) (habsent : m key = none)
    {k : K} (h : slots i = some (k, v)) : k ≠ key := by
  rintro rfl
  have hsome := (hrep k v).mpr ⟨i, h⟩
  rw [habsent] at hsome
  cases hsome

theorem exists_first_empty (slots : Fin n → Option (K × V)) (start : Fin n)
    (hempty : ∃ e, slots e = none) :
    ∃ i, slots i = none ∧ ∀ x, gap start x < gap start i → slots x ≠ none := by
  obtain ⟨e, he⟩ := hempty
  induction hd : gap start e using Nat.strong_induction_on generalizing e with
  | _ d ih =>
    by_cases hfirst : ∃ x, gap start x < gap start e ∧ slots x = none
    · obtain ⟨x, hx, hnone⟩ := hfirst
      exact ih (gap start x) (by omega) x hnone rfl
    · push Not at hfirst
      exact ⟨e, he, hfirst⟩

theorem Chained.store (hchain : Chained home slots) (v : V)
    (honly : ∀ {j w}, slots j = some (key, w) → j = i)
    (hpass : ∀ x, gap (home key) x < gap (home key) i → slots x ≠ none) :
    Chained home (update slots i (some (key, v))) := by
  constructor
  · intro a b k w w' ha hb
    by_cases hai : a = i <;> by_cases hbi : b = i <;>
      simp only [hai, hbi, update_self, update_of_ne, ne_eq, not_false_eq_true,
        Option.some.injEq, Prod.mk.injEq] at ha hb ⊢
    · exact absurd (honly (ha.1 ▸ hb)) hbi
    · exact absurd (honly (hb.1 ▸ ha)) hai
    · exact hchain.unique ha hb
  · intro a k w ha x hx
    by_cases hxi : x = i
    · rw [hxi, update_self]
      nofun
    rw [update_of_ne hxi]
    by_cases hai : a = i
    · subst hai
      rw [update_self] at ha
      obtain ⟨rfl, -⟩ := ha
      exact hpass x hx
    · rw [update_of_ne hai] at ha
      exact hchain.reach ha x hx

theorem Represents.store [DecidableEq K] (hrep : Represents slots m) (v : V)
    (honly : ∀ {j w}, slots j = some (key, w) → j = i)
    (hslot : ∀ {k w}, slots i = some (k, w) → k = key) :
    Represents (update slots i (some (key, v))) (update m key (some v)) := by
  intro k w
  by_cases hk : k = key
  · subst hk
    rw [update_self]
    constructor
    · rintro ⟨⟩
      exact ⟨i, update_self ..⟩
    · rintro ⟨j, hj⟩
      by_cases hji : j = i
      · subst hji
        simpa using hj
      · rw [update_of_ne hji] at hj
        exact absurd (honly hj) hji
  · rw [update_of_ne hk, hrep k w]
    constructor
    · rintro ⟨j, hj⟩
      refine ⟨j, ?_⟩
      rw [update_of_ne]
      · exact hj
      · rintro rfl
        exact hk (hslot hj)
    · rintro ⟨j, hj⟩
      refine ⟨j, ?_⟩
      by_cases hji : j = i
      · subst hji
        rw [update_self] at hj
        simp only [Option.some.injEq, Prod.mk.injEq] at hj
        exact absurd hj.1.symm hk
      · rwa [update_of_ne hji] at hj

variable [DecidableEq K] [NeZero n]

-- The first slot on from a start that is empty or holds the key. A full ring
-- without the key has none.
def probe (slots : Fin n → Option (K × V)) (key : K) : Nat → Fin n → Option (Fin n)
  | 0, _ => none
  | fuel + 1, i =>
    match slots i with
    | none => some i
    | some (k, _) => if k = key then some i else probe slots key fuel (i + 1)

theorem probe_of_first {slots : Fin n → Option (K × V)} {key : K} {fuel : Nat} {start : Fin n}
    (hfuel : gap start i < fuel) (hstop : slots i = none ∨ ∃ v, slots i = some (key, v))
    (hpass : ∀ x, gap start x < gap start i → ∃ k v, slots x = some (k, v) ∧ k ≠ key) :
    probe slots key fuel start = some i := by
  induction fuel generalizing start with
  | zero => omega
  | succ fuel ih =>
    unfold probe
    by_cases hhere : i = start
    · subst hhere
      obtain hnone | ⟨v, hkey⟩ := hstop
      · rw [hnone]
      · rw [hkey]
        exact if_pos rfl
    · have hgap := gap_from_succ hhere
      obtain ⟨k, v, hslot, hne⟩ := hpass start (by rw [gap_self]; omega)
      rw [hslot]
      dsimp only
      rw [if_neg hne]
      refine ih (by omega) fun x hx => ?_
      by_cases hstart : x = start
      · exact ⟨k, v, hstart ▸ hslot, hne⟩
      · have hgapx := gap_from_succ hstart
        exact hpass x (by omega)

theorem probe_present (hchain : Chained home slots)
    (h : slots i = some (key, v)) : probe slots key n (home key) = some i := by
  refine probe_of_first (gap_lt _ _) (.inr ⟨v, h⟩) fun x hx => ?_
  obtain ⟨⟨k, w⟩, hslot⟩ := Option.ne_none_iff_exists'.mp (hchain.reach h x hx)
  refine ⟨k, w, hslot, ?_⟩
  rintro rfl
  have heq := hchain.unique hslot h
  subst heq
  exact lt_irrefl _ hx

theorem probe_absent (hrep : Represents slots m) (habsent : m key = none)
    (hempty : ∃ e, slots e = none) (start : Fin n) :
    ∃ i, probe slots key n start = some i ∧ slots i = none ∧
      ∀ x, gap start x < gap start i → slots x ≠ none := by
  obtain ⟨i, hnone, hpass⟩ := exists_first_empty slots start hempty
  refine ⟨i, probe_of_first (gap_lt _ _) (.inl hnone) fun x hx => ?_, hnone, hpass⟩
  obtain ⟨⟨k, w⟩, hslot⟩ := Option.ne_none_iff_exists'.mp (hpass x hx)
  exact ⟨k, w, hslot, hrep.ne_of_none habsent hslot⟩

end Probing

variable {K V : Type} {n : Nat} {home : K → Fin n} {slots : Fin n → Option (K × V)}
  {m : K → Option V} {key : K}

def pairs (slots : Fin n → Option (K × V)) : List (K × V) :=
  (finRange n).filterMap slots

noncomputable def keyCount (m : K → Option V) : Nat :=
  {k | m k ≠ none}.ncard

theorem mem_pairs {p : K × V} : p ∈ pairs slots ↔ ∃ i, slots i = some p := by
  simp [pairs]

theorem Represents.mem_pairs (hrep : Represents slots m) {k : K} {v : V} :
    (k, v) ∈ pairs slots ↔ m k = some v := by
  rw [Wadjet.Data.mem_pairs, hrep k v]

theorem Chained.nodup_keys (hchain : Chained home slots) : ((pairs slots).map Prod.fst).Nodup := by
  have hinj : ∀ a a' : Fin n, ∀ b ∈ (slots a).map Prod.fst, ∀ b' ∈ (slots a').map Prod.fst,
      b = b' → a = a' := by
    intro a a' b hb b' hb' heq
    obtain ⟨⟨k, v⟩, ha, rfl⟩ := Option.map_eq_some_iff.mp hb
    obtain ⟨⟨k', v'⟩, ha', rfl⟩ := Option.map_eq_some_iff.mp hb'
    obtain rfl : k = k' := heq
    exact hchain.unique ha ha'
  rw [pairs, map_filterMap]
  refine List.Nodup.filterMap ?_ (nodup_finRange n)
  intro a a' b hb hb'
  exact hinj a a' b hb b hb' rfl

structure Lists (l : List (K × V)) (m : K → Option V) : Prop where
  nodup : (l.map Prod.fst).Nodup
  mem : ∀ k v, (k, v) ∈ l ↔ m k = some v

theorem Lists.length {l : List (K × V)} (h : Lists l m) : l.length = keyCount m := by
  classical
  have hset : {k | m k ≠ none} = ((l.map Prod.fst).toFinset : Set K) := by
    ext k
    simp only [coe_toFinset, mem_map, Option.ne_none_iff_exists']
    constructor
    · rintro ⟨v, hv⟩
      exact ⟨(k, v), (h.mem k v).mpr hv, rfl⟩
    · rintro ⟨⟨k', v⟩, hp, rfl⟩
      exact ⟨v, (h.mem k' v).mp hp⟩
  rw [keyCount, hset, Set.ncard_coe_finset, toFinset_card_of_nodup h.nodup, length_map]

theorem lists_pairs (hchain : Chained home slots) (hrep : Represents slots m) :
    Lists (pairs slots) m :=
  ⟨hchain.nodup_keys, fun _ _ => hrep.mem_pairs⟩

theorem length_pairs (hchain : Chained home slots) (hrep : Represents slots m) :
    (pairs slots).length = keyCount m :=
  (lists_pairs hchain hrep).length

theorem Represents.finite (hrep : Represents slots m) : {k | m k ≠ none}.Finite := by
  refine Set.Finite.subset (finite_toSet ((pairs slots).map Prod.fst)) ?_
  intro k hk
  obtain ⟨v, hv⟩ := Option.ne_none_iff_exists'.mp hk
  exact mem_map.mpr ⟨(k, v), hrep.mem_pairs.mpr hv, rfl⟩

theorem exists_empty (h : (pairs slots).length < n) : ∃ e, slots e = none := by
  obtain ⟨e, -, he⟩ :=
    length_filterMap_lt_length_iff_exists.mp (h.trans_eq length_finRange.symm)
  exact ⟨e, he⟩

variable [DecidableEq K]

theorem keyCount_store (hfinite : {k | m k ≠ none}.Finite) (v : V) (h : m key = none) :
    keyCount (update m key (some v)) = keyCount m + 1 := by
  have hset : {k | update m key (some v) k ≠ none} = Insert.insert key {k | m k ≠ none} := by
    ext k
    by_cases hk : k = key <;> simp [update_apply, hk]
  rw [keyCount, hset, Set.ncard_insert_of_notMem (by simp [h]) hfinite, keyCount]

theorem keyCount_replace (v : V) (h : m key ≠ none) :
    keyCount (update m key (some v)) = keyCount m := by
  have hset : {k | update m key (some v) k ≠ none} = {k | m k ≠ none} := by
    ext k
    by_cases hk : k = key <;> simp [update_apply, hk, h]
  rw [keyCount, hset, keyCount]

theorem keyCount_delete (hfinite : {k | m k ≠ none}.Finite) (h : m key ≠ none) :
    keyCount (update m key none) + 1 = keyCount m := by
  have hset : {k | update m key none k ≠ none} = {k | m k ≠ none} \ {key} := by
    ext k
    by_cases hk : k = key <;> simp [update_apply, hk]
  rw [keyCount, hset, Set.ncard_sdiff_singleton_add_one h hfinite, keyCount]

theorem keyCount_store_le (hfinite : {k | m k ≠ none}.Finite) (v : V) :
    keyCount (update m key (some v)) ≤ keyCount m + 1 := by
  by_cases hm : m key = none
  · rw [keyCount_store hfinite v hm]
  · rw [keyCount_replace v hm]
    exact Nat.le_succ _

theorem keyCount_delete_le (hfinite : {k | m k ≠ none}.Finite) :
    keyCount (update m key none) ≤ keyCount m := by
  by_cases hm : m key = none
  · rw [← hm, update_eq_self]
  · rw [← keyCount_delete hfinite hm]
    exact Nat.le_succ _

theorem Lists.concat {l : List (K × V)} {v : V} (h : Lists (l ++ [(key, v)]) m) :
    m key = some v ∧ Lists l (update m key none) := by
  obtain ⟨hnodup, hmem⟩ := h
  rw [map_append, map_singleton, nodup_append_comm, singleton_append, nodup_cons] at hnodup
  refine ⟨(hmem key v).mp (by simp), hnodup.2, fun k w => ?_⟩
  by_cases hk : k = key
  · subst hk
    rw [update_self]
    exact iff_of_false (fun hw => hnodup.1 (mem_map.mpr ⟨_, hw, rfl⟩)) nofun
  · rw [update_of_ne hk, ← hmem k w]
    simp [hk]

theorem foldlM_stores {S E : Type} (step : S → E → Option S) {f : E → K × V}
    {P : S → (K → Option V) → Prop} {room : Nat} {l : List E} {s : S}
    (hstep : ∀ s m, ∀ e ∈ l, P s m → m (f e).1 = none → keyCount m < room →
      ∃ s', step s e = some s' ∧ P s' (update m (f e).1 (some (f e).2)))
    (h : P s fun _ => none) (hl : Lists (l.map f) m) (hroom : l.length ≤ room) :
    ∃ s', l.foldlM step s = some s' ∧ P s' m := by
  induction l using reverseRecOn generalizing m with
  | nil =>
    obtain rfl : (fun _ => none) = m := funext fun k =>
      (Option.eq_none_iff_forall_ne_some.mpr fun v hv => not_mem_nil ((hl.mem k v).mpr hv)).symm
    exact ⟨s, rfl, h⟩
  | append_singleton l e ih =>
    rw [map_append] at hl
    obtain ⟨hlast, hinit⟩ := hl.concat
    rw [length_append, length_singleton] at hroom
    have hcount := hinit.length
    rw [length_map] at hcount
    obtain ⟨s1, hfold, h1⟩ := ih (fun s m e he => hstep s m e (mem_append_left _ he)) hinit (by omega)
    obtain ⟨s', hlast', h'⟩ := hstep s1 _ e (mem_append_right l mem_cons_self) h1 (update_self ..)
      (by omega)
    rw [update_idem, ← hlast, update_eq_self] at h'
    exact ⟨s', by simp [hfold, hlast'], h'⟩

end Wadjet.Data
