import Mathlib.Data.List.Perm.Subperm

-- A running map from keys to value sets, fed group by group and pruned after
-- each group to the keys that group has.
namespace Wadjet.Data

open List

variable {C L K J : Type} [DecidableEq K] [DecidableEq J] (key : C → K) (code : L → J)

-- One key's value set, with the item that first introduced it. Values are
-- told apart by `code`.
structure Entry (C L : Type) where
  item : C
  values : List L
  deriving Repr

namespace Entry

def add (e : Entry C L) (v : L) : Entry C L :=
  if e.values.any (fun w => code w = code v) then e else { e with values := e.values ++ [v] }

def Covers (e : Entry C L) (v : L) : Prop := ∃ w ∈ e.values, code w = code v

omit [DecidableEq J] in
theorem covers_of_mem_values (e : Entry C L) (v : L) (h : v ∈ e.values) : e.Covers code v :=
  ⟨v, h, rfl⟩

variable (e : Entry C L) (v : L)

theorem item_add : (e.add code v).item = e.item := by
  unfold add
  split <;> rfl

theorem mem_values_add (w : L) (h : w ∈ e.values) : w ∈ (e.add code v).values := by
  unfold add
  split <;> simp [h]

theorem mem_values_of_add (w : L) (h : w ∈ (e.add code v).values) : w ∈ e.values ∨ w = v := by
  unfold add at h
  split at h
  · exact Or.inl h
  · simpa using h

theorem covers_add_self : (e.add code v).Covers code v := by
  unfold add
  split
  next h => simpa [Covers] using h
  next h => exact covers_of_mem_values code _ v (by simp)

theorem covers_add (w : L) (h : e.Covers code w) : (e.add code v).Covers code w := by
  obtain ⟨x, hx, hc⟩ := h
  exact ⟨x, mem_values_add code e v x hx, hc⟩

end Entry

abbrev Entries (C L K : Type) := List (K × Entry C L)

variable (m : Entries C L K)

def keys : List K := m.map (·.1)

def insert (p : C × L) : Entries C L K :=
  if (keys m).contains (key p.1) then
    m.map fun (k, e) => if k = key p.1 then (k, e.add code p.2) else (k, e)
  else m ++ [(key p.1, ⟨p.1, [p.2]⟩)]

def groupKeys (group : List (C × L)) : List K := group.map fun p => key p.1

-- The keys the group lacks are dropped once it has been fed.
def feed (group : List (C × L)) : Entries C L K :=
  (group.foldl (insert key code) m).filter fun (k, _) => (groupKeys key group).contains k

def collect : List (List (C × L)) → Entries C L K
  | [] => []
  | first :: rest => rest.foldl (feed key code) (first.foldl (insert key code) [])

variable (m : Entries C L K) (p : C × L)

theorem keys_added : keys (m.map fun (k, e) => if k = key p.1 then (k, e.add code p.2) else (k, e)) = keys m := by
  simp only [keys, map_map]
  refine map_congr_left fun q _ => ?_
  simp only [Function.comp_apply]
  split <;> rfl

theorem mem_keys_insert (k : K) : k ∈ keys (insert key code m p) ↔ k ∈ keys m ∨ k = key p.1 := by
  unfold insert
  split
  next h =>
    have hk : key p.1 ∈ keys m := by simpa using h
    rw [keys_added]
    constructor
    · exact Or.inl
    · rintro (h | rfl)
      · exact h
      · exact hk
  next h => simp [keys]

variable (group : List (C × L)) (k : K)

theorem mem_keys_foldl :
    k ∈ keys (group.foldl (insert key code) m) ↔ k ∈ keys m ∨ k ∈ groupKeys key group := by
  induction group generalizing m with
  | nil => simp [groupKeys]
  | cons p group ih =>
    rw [foldl_cons, ih, mem_keys_insert]
    simp [groupKeys, or_assoc]

theorem mem_keys_feed : k ∈ keys (feed key code m group) ↔ k ∈ groupKeys key group := by
  have hf : k ∈ keys (feed key code m group) ↔
      k ∈ keys (group.foldl (insert key code) m) ∧ k ∈ groupKeys key group := by
    simp [feed, keys]
  rw [hf, mem_keys_foldl]
  exact ⟨And.right, fun h => ⟨Or.inr h, h⟩⟩

theorem mem_insert (k : K) (e : Entry C L) (h : (k, e) ∈ insert key code m p) :
    (∃ e₀, (k, e₀) ∈ m ∧ ((k ≠ key p.1 ∧ e = e₀) ∨ (k = key p.1 ∧ e = e₀.add code p.2))) ∨
    (k ∉ keys m ∧ k = key p.1 ∧ e = ⟨p.1, [p.2]⟩) := by
  unfold insert at h
  split at h
  next hc =>
    left
    simp only [mem_map, Prod.exists] at h
    obtain ⟨k₀, e₀, hm, he⟩ := h
    split at he
    next hk =>
      obtain ⟨rfl, rfl⟩ := Prod.mk.inj he
      exact ⟨e₀, hm, Or.inr ⟨hk, rfl⟩⟩
    next hk =>
      obtain ⟨rfl, rfl⟩ := Prod.mk.inj he
      exact ⟨e₀, hm, Or.inl ⟨hk, rfl⟩⟩
  next hc =>
    rcases mem_append.mp h with hm | hm
    · refine Or.inl ⟨e, hm, Or.inl ⟨?_, rfl⟩⟩
      rintro rfl
      have hk : key p.1 ∈ keys m := mem_map.mpr ⟨_, hm, rfl⟩
      exact absurd hk (by simpa using hc)
    · simp only [mem_singleton] at hm
      obtain ⟨rfl, rfl⟩ := Prod.mk.inj hm
      exact Or.inr ⟨by simpa using hc, rfl, rfl⟩

-- A property of entries that a first value has and that adding a value keeps.
structure Stable (groups : List (List (C × L))) (P : K → Entry C L → Prop) : Prop where
  first : ∀ g ∈ groups, ∀ p ∈ g, P (key p.1) ⟨p.1, [p.2]⟩
  add : ∀ g ∈ groups, ∀ p ∈ g, ∀ e, P (key p.1) e → P (key p.1) (e.add code p.2)

section Stable

variable {groups : List (List (C × L))} {P : K → Entry C L → Prop} (hP : Stable key code groups P)

include hP

theorem Stable.foldl_insert (group : List (C × L))
    (hsub : ∃ g ∈ groups, ∀ p ∈ group, p ∈ g) (m : Entries C L K) (hm : ∀ k e, (k, e) ∈ m → P k e) :
    ∀ k e, (k, e) ∈ group.foldl (insert key code) m → P k e := by
  obtain ⟨g, hg, hsub⟩ := hsub
  induction group generalizing m with
  | nil => exact hm
  | cons p group ih =>
    have hp : p ∈ g := hsub p mem_cons_self
    refine ih (insert key code m p) ?_ fun q hq => hsub q (mem_cons_of_mem _ hq)
    intro k e he
    obtain ⟨e₀, hm₀, ⟨-, rfl⟩ | ⟨rfl, rfl⟩⟩ | ⟨-, rfl, rfl⟩ := mem_insert key code m p k e he
    · exact hm k e hm₀
    · exact hP.add g hg p hp e₀ (hm _ e₀ hm₀)
    · exact hP.first g hg p hp

theorem Stable.foldl_feed (rest : List (List (C × L)))
    (hsub : ∀ g ∈ rest, g ∈ groups) (m : Entries C L K) (hm : ∀ k e, (k, e) ∈ m → P k e) :
    ∀ k e, (k, e) ∈ rest.foldl (feed key code) m → P k e := by
  induction rest generalizing m with
  | nil => exact hm
  | cons group rest ih =>
    refine ih (fun g hg => hsub g (mem_cons_of_mem _ hg)) _ fun k e he => ?_
    have hg : group ∈ groups := hsub group mem_cons_self
    exact hP.foldl_insert key code group ⟨group, hg, fun _ h => h⟩ m hm k e (mem_filter.mp he).1

theorem Stable.collect : ∀ k e, (k, e) ∈ collect key code groups → P k e := by
  cases groups with
  | nil => simp [Data.collect]
  | cons first rest =>
    refine hP.foldl_feed key code rest (fun g hg => mem_cons_of_mem _ hg) _ ?_
    exact hP.foldl_insert key code first ⟨first, mem_cons_self, fun _ h => h⟩ [] (by simp)

end Stable

variable (groups : List (List (C × L)))

section Entries

variable (k : K) (e : Entry C L) (h : (k, e) ∈ collect key code groups)

include h

theorem key_item_of_mem_collect : k = key e.item := by
  have hP : Stable key code groups fun k e => k = key e.item :=
    ⟨fun _ _ _ _ => rfl, fun _ _ _ _ e he => by rw [Entry.item_add]; exact he⟩
  exact hP.collect key code k e h

theorem item_of_mem_collect : ∃ g ∈ groups, ∃ p ∈ g, e.item = p.1 := by
  have hP : Stable key code groups fun _ e => ∃ g ∈ groups, ∃ p ∈ g, e.item = p.1 :=
    ⟨fun g hg p hp => ⟨g, hg, p, hp, rfl⟩, fun _ _ _ _ e he => by rw [Entry.item_add]; exact he⟩
  exact hP.collect key code k e h

theorem nodup_values_of_mem_collect : (e.values.map code).Nodup := by
  have hP : Stable key code groups fun _ e => (e.values.map code).Nodup := by
    refine ⟨fun _ _ _ _ => by simp, fun _ _ p _ e he => ?_⟩
    unfold Entry.add
    split
    next => exact he
    next hnew =>
      rw [map_append, nodup_append]
      refine ⟨he, by simp, fun a ha b hb hab => hnew ?_⟩
      obtain ⟨w, hw, rfl⟩ := mem_map.mp ha
      simp only [map_cons, map_nil, mem_singleton] at hb
      exact any_eq_true.mpr ⟨w, hw, by simpa [hb] using hab⟩
  exact hP.collect key code k e h

end Entries

theorem nodup_keys_insert (h : (keys m).Nodup) : (keys (insert key code m p)).Nodup := by
  unfold insert
  split
  next => rwa [keys_added]
  next hnew =>
    rw [keys, map_append, nodup_append]
    refine ⟨h, by simp, fun a ha b hb hab => hnew ?_⟩
    simp only [map_cons, map_nil, mem_singleton] at hb
    exact contains_iff_mem.mpr (hb ▸ hab ▸ ha)

theorem nodup_keys_foldl (h : (keys m).Nodup) : (keys (group.foldl (insert key code) m)).Nodup := by
  induction group generalizing m with
  | nil => exact h
  | cons p group ih => exact ih _ (nodup_keys_insert key code m p h)

theorem nodup_keys_collect : (keys (collect key code groups)).Nodup := by
  cases groups with
  | nil => exact nodup_nil
  | cons first rest =>
    have hfirst := nodup_keys_foldl key code [] first nodup_nil
    rw [collect]
    generalize first.foldl (insert key code) [] = m at hfirst
    induction rest generalizing m with
    | nil => exact hfirst
    | cons group rest ih =>
      exact ih _ ((filter_sublist.map _).nodup (nodup_keys_foldl key code m group hfirst))

theorem values_of_mem_foldl (e : Entry C L) (h : (k, e) ∈ group.foldl (insert key code) m)
    (v : L) (hv : v ∈ e.values) :
    (∃ e₀, (k, e₀) ∈ m ∧ v ∈ e₀.values) ∨ ∃ p ∈ group, key p.1 = k ∧ p.2 = v := by
  induction group generalizing m with
  | nil => exact .inl ⟨e, h, hv⟩
  | cons p group ih =>
    obtain ⟨e₁, hm₁, hv₁⟩ | ⟨q, hq, hqv⟩ := ih _ h
    · obtain ⟨e₀, hm₀, ⟨-, rfl⟩ | ⟨rfl, rfl⟩⟩ | ⟨-, rfl, rfl⟩ := mem_insert key code m p k e₁ hm₁
      · exact .inl ⟨e₁, hm₀, hv₁⟩
      · obtain hv₀ | rfl := e₀.mem_values_of_add code p.2 v hv₁
        · exact .inl ⟨e₀, hm₀, hv₀⟩
        · exact .inr ⟨p, mem_cons_self, rfl, rfl⟩
      · exact .inr ⟨p, mem_cons_self, rfl, (mem_singleton.mp hv₁).symm⟩
    · exact .inr ⟨q, mem_cons_of_mem p hq, hqv⟩

-- The groups that have a key, back to the last one without it, and with them the
-- values of the key's entry.
structure Run (groups : List (List (C × L))) (m : Entries C L K) (k : K) (run : List (List (C × L))) : Prop where
  suffix : run <:+ groups
  keys : ∀ g ∈ run, k ∈ groupKeys key g
  values : ∀ e, (k, e) ∈ m → ∀ v ∈ e.values, ∃ g ∈ run, ∃ p ∈ g, key p.1 = k ∧ p.2 = v

theorem run_feed {m : Entries C L K} (h : ∀ k, ∃ run, Run key groups m k run) (group : List (C × L)) (k : K) :
    ∃ run, Run key (groups ++ [group]) (feed key code m group) k run := by
  by_cases hk : k ∈ groupKeys key group
  · obtain ⟨run, hrun⟩ := h k
    refine ⟨run ++ [group], (suffix_append_inj_of_length_eq rfl).mpr ⟨hrun.suffix, rfl⟩, ?_, fun e he v hv => ?_⟩
    · simpa [or_imp, forall_and, hk] using hrun.keys
    · obtain ⟨e₀, hm, hv⟩ | ⟨p, hp, hpv⟩ := values_of_mem_foldl key code m group k e (mem_filter.mp he).1 v hv
      · obtain ⟨g, hg, hpair⟩ := hrun.values e₀ hm v hv
        exact ⟨g, mem_append_left _ hg, hpair⟩
      · exact ⟨group, by simp, p, hp, hpv⟩
  · refine ⟨[], nil_suffix, by simp, fun e he => ?_⟩
    exact absurd ((mem_keys_feed key code m group k).mp (mem_map_of_mem he)) hk

theorem collect_induction {P : List (List (C × L)) → Entries C L K → Prop}
    (hfirst : ∀ first, P [first] (first.foldl (insert key code) []))
    (hfeed : ∀ seen m group, P seen m → P (seen ++ [group]) (feed key code m group)) (hne : groups ≠ []) :
    P groups (collect key code groups) := by
  obtain ⟨first, rest, rfl⟩ := exists_cons_of_ne_nil hne
  suffices h : ∀ (rest seen : List (List (C × L))) (m : Entries C L K), P seen m →
      P (seen ++ rest) (rest.foldl (feed key code) m) from h rest [first] _ (hfirst first)
  intro rest
  induction rest with
  | nil => intro seen m h; simpa using h
  | cons group rest ih =>
    intro seen m h
    simpa using ih (seen ++ [group]) _ (hfeed seen m group h)

theorem run_collect (hne : groups ≠ []) : ∀ k, ∃ run, Run key groups (collect key code groups) k run := by
  refine collect_induction key code groups (P := fun seen m => ∀ k, ∃ run, Run key seen m k run)
    (fun first k => ?_) (fun seen m group h => run_feed key code seen h group) hne
  by_cases hk : k ∈ groupKeys key first
  · refine ⟨[first], suffix_rfl, by simpa using hk, fun e he v hv => ⟨first, by simp, ?_⟩⟩
    obtain ⟨_, hm, -⟩ | hpair := values_of_mem_foldl key code [] first k e he v hv
    · cases hm
    · exact hpair
  · refine ⟨[], nil_suffix, by simp, fun e he => ?_⟩
    have hkeys := (mem_keys_foldl key code [] first k).mp (mem_map_of_mem he)
    exact absurd (hkeys.resolve_left (by simp [keys])) hk

theorem length_collect_le (hne : groups ≠ []) : ∃ g ∈ groups, (collect key code groups).length ≤ g.length := by
  have hlast : ∃ g ∈ groups, ∀ k ∈ keys (collect key code groups), k ∈ groupKeys key g := by
    refine collect_induction key code groups (P := fun seen m => ∃ g ∈ seen, ∀ k ∈ keys m, k ∈ groupKeys key g)
      (fun first => ⟨first, by simp, fun k hk => ?_⟩) (fun seen m group _ => ⟨group, by simp, fun k hk => ?_⟩) hne
    · exact ((mem_keys_foldl key code [] first k).mp hk).resolve_left (by simp [keys])
    · exact (mem_keys_feed key code m group k).mp hk
  obtain ⟨g, hg, hkeys⟩ := hlast
  have hlength := (subperm_of_subset (nodup_keys_collect key code groups) hkeys).length_le
  exact ⟨g, hg, by simpa [keys, groupKeys] using hlength⟩

theorem covers_of_mem_foldl (e : Entry C L) (h : (k, e) ∈ group.foldl (insert key code) m) :
    (k ∈ keys m → ∃ e₀, (k, e₀) ∈ m ∧ ∀ v, e₀.Covers code v → e.Covers code v) ∧
    ∀ p ∈ group, k = key p.1 → e.Covers code p.2 := by
  induction group generalizing m with
  | nil => exact ⟨fun _ => ⟨e, h, fun v hv => hv⟩, by simp⟩
  | cons p group ih =>
    obtain ⟨hgrow, hcover⟩ := ih (insert key code m p) h
    constructor
    · intro hk
      have hk₁ : k ∈ keys (insert key code m p) := (mem_keys_insert key code m p k).mpr (Or.inl hk)
      obtain ⟨e₁, hm₁, hcov₁⟩ := hgrow hk₁
      obtain ⟨e₀, hm₀, ⟨-, rfl⟩ | ⟨-, rfl⟩⟩ | ⟨hnew, -⟩ := mem_insert key code m p k e₁ hm₁
      · exact ⟨e₁, hm₀, hcov₁⟩
      · exact ⟨e₀, hm₀, fun v hv => hcov₁ v (e₀.covers_add code p.2 v hv)⟩
      · exact absurd hk hnew
    · intro q hq hkq
      rcases mem_cons.mp hq with rfl | hq
      · have hk₁ : k ∈ keys (insert key code m q) := (mem_keys_insert key code m q k).mpr (Or.inr hkq)
        obtain ⟨e₁, hm₁, hcov₁⟩ := hgrow hk₁
        obtain ⟨e₀, hm₀, ⟨hne, -⟩ | ⟨-, rfl⟩⟩ | ⟨-, -, rfl⟩ := mem_insert key code m q k e₁ hm₁
        · exact absurd hkq hne
        · exact hcov₁ _ (e₀.covers_add_self code q.2)
        · exact hcov₁ _ (Entry.covers_of_mem_values code _ _ (by simp))
      · exact hcover q hq hkq

-- What holds of the map after any number of groups: a key that every group so
-- far has is there, and its entry covers every value any of them gave it.
structure Collected (groups : List (List (C × L))) (m : Entries C L K) : Prop where
  present : ∀ k, (∀ g ∈ groups, k ∈ groupKeys key g) → k ∈ keys m
  covered : ∀ k e, (k, e) ∈ m → (∀ g ∈ groups, k ∈ groupKeys key g) →
    ∀ g ∈ groups, ∀ p ∈ g, k = key p.1 → e.Covers code p.2

theorem collected_first (first : List (C × L)) :
    Collected key code [first] (first.foldl (insert key code) []) where
  present k hk := by
    rw [mem_keys_foldl]
    exact Or.inr (hk first mem_cons_self)
  covered k e he _ g hg p hp hkp := by
    obtain rfl := mem_singleton.mp hg
    exact (covers_of_mem_foldl key code [] g k e he).2 p hp hkp

theorem collected_feed (group : List (C × L)) (m : Entries C L K)
    (h : Collected key code groups m) :
    Collected key code (groups ++ [group]) (feed key code m group) where
  present k hk := by
    rw [mem_keys_feed]
    exact hk group (by simp)
  covered k e he hall g hg p hp hkp := by
    obtain ⟨hgrow, hcover⟩ := covers_of_mem_foldl key code m group k e (mem_filter.mp he).1
    have hold : ∀ g ∈ groups, k ∈ groupKeys key g := fun g hg => hall g (by simp [hg])
    rcases mem_append.mp hg with hg | hg
    · -- the entry was not made by this group: every earlier one has the key
      obtain ⟨e₀, hm₀, hcov⟩ := hgrow (h.present k hold)
      exact hcov _ (h.covered k e₀ hm₀ hold g hg p hp hkp)
    · obtain rfl := mem_singleton.mp hg
      exact hcover p hp hkp

theorem collected_collect (hne : groups ≠ []) :
    Collected key code groups (collect key code groups) :=
  collect_induction key code groups (collected_first key code)
    (fun seen m group => collected_feed key code seen group m) hne

end Wadjet.Data
