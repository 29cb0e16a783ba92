import Mathlib.Data.List.Nodup
import Mathlib.Data.List.Pairwise
import Mathlib.Data.List.Perm.Basic

-- Grouping rows by a key that is compared with a partial equivalence.
namespace Wadjet.Data

open List

variable {α κ : Type} (same : κ → κ → Bool)

def distinctBy : List κ → List κ
  | [] => []
  | k :: ks => if (distinctBy ks).any (same k) then distinctBy ks else k :: distinctBy ks

def groups (key : α → κ) (rows : List α) : List (κ × List α) :=
  (distinctBy same (rows.map key)).map fun k => (k, rows.filter fun r => same k (key r))

variable (ks : List κ) (k : κ)

theorem mem_of_mem_distinctBy (h : k ∈ distinctBy same ks) : k ∈ ks := by
  induction ks with
  | nil => exact h
  | cons a ks ih =>
    rw [distinctBy] at h
    split at h
    · exact mem_cons_of_mem a (ih h)
    · rcases mem_cons.mp h with rfl | h
      · exact mem_cons_self
      · exact mem_cons_of_mem a (ih h)

theorem exists_mem_distinctBy (h : k ∈ ks) : ∃ a ∈ distinctBy same ks, a = k ∨ same k a := by
  induction ks with
  | nil => cases h
  | cons b ks ih =>
    rw [distinctBy]
    rcases mem_cons.mp h with rfl | h
    · split
      next hany =>
        obtain ⟨a, ha, hs⟩ := any_eq_true.mp hany
        exact ⟨a, ha, Or.inr hs⟩
      next => exact ⟨k, mem_cons_self, Or.inl rfl⟩
    · obtain ⟨a, ha, hs⟩ := ih h
      split
      · exact ⟨a, ha, hs⟩
      · exact ⟨a, mem_cons_of_mem b ha, hs⟩

theorem distinctBy_pairwise : (distinctBy same ks).Pairwise fun a b => same a b = false := by
  induction ks with
  | nil => exact List.Pairwise.nil
  | cons k ks ih =>
    rw [distinctBy]
    split
    next => exact ih
    next hany =>
      refine pairwise_cons.mpr ⟨fun b hb => ?_, ih⟩
      by_contra hs
      exact hany (any_eq_true.mpr ⟨b, hb, by simpa using hs⟩)

-- Of the given keys a test picks one class, or none.
structure Selects (test : κ → Bool) (ks : List κ) : Prop where
  single : ∀ a ∈ ks, ∀ b ∈ ks, test a → test b → same a b
  closed : ∀ a ∈ ks, ∀ b ∈ ks, test a → same a b → test b

variable {same} {test : κ → Bool}

theorem Selects.filter_distinctBy {ks : List κ} (h : Selects same test ks) :
    (∀ k ∈ ks, ¬test k) ∧ (distinctBy same ks).filter test = [] ∨
      ∃ k, test k ∧ (distinctBy same ks).filter test = [k] := by
  rcases hf : (distinctBy same ks).filter test with _ | ⟨k, rest⟩
  · refine Or.inl ⟨fun k hk ht => ?_, rfl⟩
    obtain ⟨a, ha, rfl | hs⟩ := exists_mem_distinctBy same ks k hk
    · exact not_mem_nil (hf ▸ mem_filter.mpr ⟨ha, ht⟩)
    · have hmem := mem_of_mem_distinctBy same ks a ha
      exact not_mem_nil (hf ▸ mem_filter.mpr ⟨ha, h.closed k hk a hmem ht hs⟩)
  · have hmem : ∀ a ∈ k :: rest, a ∈ ks ∧ test a := fun a ha =>
      (mem_filter.mp (hf ▸ ha)).imp_left (mem_of_mem_distinctBy same ks a)
    obtain ⟨hin, hk⟩ := hmem k mem_cons_self
    refine Or.inr ⟨k, hk, ?_⟩
    have hpw := (distinctBy_pairwise same ks).filter test
    rw [hf, pairwise_cons] at hpw
    rcases rest with _ | ⟨b, rest⟩
    · rfl
    · obtain ⟨hbin, hb⟩ := hmem b (mem_cons_of_mem k mem_cons_self)
      have hdistinct := hpw.1 b mem_cons_self
      rw [h.single k hin b hbin hk hb] at hdistinct
      cases hdistinct

-- The groups a test selects: none if no row has such a key, else the one
-- group of all the rows that do.
theorem Selects.filter_groups (key : α → κ) (rows : List α) (h : Selects same test (rows.map key)) :
    rows.filter (fun r => test (key r)) = [] ∧ (groups same key rows).filter (fun g => test g.1) = [] ∨
    rows.filter (fun r => test (key r)) ≠ [] ∧
      ∃ k, (groups same key rows).filter (fun g => test g.1) =
        [(k, rows.filter fun r => test (key r))] := by
  have hfilter : (groups same key rows).filter (fun g => test g.1) =
      ((distinctBy same (rows.map key)).filter test).map
        fun k => (k, rows.filter fun r => same k (key r)) := by
    rw [groups, filter_map]
    rfl
  rcases h.filter_distinctBy with ⟨hnone, hnil⟩ | ⟨k, hk, hone⟩
  · refine Or.inl ⟨filter_eq_nil_iff.mpr fun r hr => hnone _ (mem_map_of_mem hr), ?_⟩
    rw [hfilter, hnil, map_nil]
  have hsel : k ∈ (distinctBy same (rows.map key)).filter test := by simp [hone]
  have hmem : k ∈ rows.map key := mem_of_mem_distinctBy same _ k (mem_filter.mp hsel).1
  have hgroup : rows.filter (fun r => same k (key r)) = rows.filter fun r => test (key r) := by
    refine filter_congr fun r hr => ?_
    rw [Bool.eq_iff_iff]
    exact ⟨h.closed k hmem (key r) (mem_map_of_mem hr) hk, h.single k hmem (key r) (mem_map_of_mem hr) hk⟩
  obtain ⟨r, hr, rfl⟩ := mem_map.mp hmem
  refine Or.inr ⟨ne_nil_of_mem (mem_filter.mpr ⟨hr, hk⟩), key r, ?_⟩
  rw [hfilter, hone, map_singleton, hgroup]

-- A partition of rows into the classes of a key.
structure Parts (key : α → κ) (rows : List α) (gs : List (List α)) : Prop where
  perm : gs.flatten.Perm rows
  nonempty : ∀ g ∈ gs, g ≠ []
  const : ∀ g ∈ gs, ∀ r ∈ g, ∀ r' ∈ g, key r = key r'
  apart : gs.Pairwise fun g g' => ∀ r ∈ g, ∀ r' ∈ g', key r ≠ key r'

variable {key : α → κ} {rows : List α} {gs : List (List α)}

section

variable (h : Parts key rows gs)

include h

theorem Parts.mem {g : List α} (hg : g ∈ gs) {r : α} (hr : r ∈ g) : r ∈ rows :=
  h.perm.mem_iff.mp (mem_flatten.mpr ⟨g, hg, hr⟩)

theorem Parts.eq_nil_iff : gs = [] ↔ rows = [] := by
  constructor
  · rintro rfl
    exact h.perm.symm.eq_nil
  · rintro rfl
    rw [eq_nil_iff_forall_not_mem]
    intro g hg
    obtain ⟨r, hr⟩ := exists_mem_of_ne_nil g (h.nonempty g hg)
    exact not_mem_nil (h.mem hg hr)

theorem Parts.of_key {κ' : Type} {key' : α → κ'}
    (hkey : ∀ r ∈ rows, ∀ r' ∈ rows, (key r = key r' ↔ key' r = key' r')) : Parts key' rows gs where
  perm := h.perm
  nonempty := h.nonempty
  const := fun g hg r hr r' hr' => (hkey r (h.mem hg hr) r' (h.mem hg hr')).mp (h.const g hg r hr r' hr')
  apart := by
    have hmem : ∀ g ∈ gs, ∀ r ∈ g, r ∈ rows := fun g hg r hr => h.mem hg hr
    refine h.apart.imp_of_mem fun hg hg' hne r hr r' hr' heq => ?_
    exact hne r hr r' hr' ((hkey r (hmem _ hg r hr) r' (hmem _ hg' r' hr')).mpr heq)

theorem Parts.restrict (q : α → Bool) (t : List α → Bool)
    (ht : ∀ g ∈ gs, ∀ r ∈ g, t g = q r) : Parts key (rows.filter q) (gs.filter t) where
  perm := by
    have hflat : ∀ gs : List (List α), (∀ g ∈ gs, ∀ r ∈ g, t g = q r) → (∀ g ∈ gs, g ≠ []) →
        (gs.filter t).flatten = gs.flatten.filter q := by
      intro gs ht hne
      induction gs with
      | nil => rfl
      | cons g gs ih =>
        have htail := ih (fun g' hg' => ht g' (mem_cons_of_mem g hg'))
          (fun g' hg' => hne g' (mem_cons_of_mem g hg'))
        have hhead := ht g mem_cons_self
        rw [flatten_cons, filter_append, ← htail, filter_cons]
        cases hg : t g with
        | true =>
          have hall : g.filter q = g := filter_eq_self.mpr fun r hr => (hhead r hr).symm.trans hg
          rw [if_pos rfl, flatten_cons, hall]
        | false =>
          have hnone : g.filter q = [] :=
            filter_eq_nil_iff.mpr fun r hr => by rw [← hhead r hr, hg]; simp
          rw [if_neg (by simp), hnone, nil_append]
    rw [hflat gs ht h.nonempty]
    exact h.perm.filter q
  nonempty := fun g hg => h.nonempty g (mem_filter.mp hg).1
  const := fun g hg => h.const g (mem_filter.mp hg).1
  apart := h.apart.filter t

end

variable [DecidableEq κ]

def eqKey (a b : κ) : Bool := decide (a = b)

theorem distinctBy_nodup : (distinctBy eqKey ks).Nodup := by
  refine (distinctBy_pairwise eqKey ks).imp fun {a b} h hab => ?_
  rw [eqKey, decide_eq_false_iff_not] at h
  exact h hab

theorem mem_distinctBy : k ∈ distinctBy eqKey ks ↔ k ∈ ks := by
  constructor
  · exact mem_of_mem_distinctBy eqKey ks k
  · intro h
    obtain ⟨a, ha, rfl | hs⟩ := exists_mem_distinctBy eqKey ks k h
    · exact ha
    · rw [eqKey, decide_eq_true_eq] at hs
      exact hs ▸ ha

theorem distinctBy_perm {ks ks' : List κ} (h : ∀ k, k ∈ ks ↔ k ∈ ks') :
    (distinctBy eqKey ks).Perm (distinctBy eqKey ks') :=
  (perm_ext_iff_of_nodup (distinctBy_nodup ks) (distinctBy_nodup ks')).mpr fun k => by
    rw [mem_distinctBy, mem_distinctBy, h]

theorem flatMap_filter_perm (ds : List κ) (hds : ds.Nodup) (key : α → κ) (rows : List α) :
    (ds.flatMap fun k => rows.filter fun r => eqKey k (key r)).Perm
      (rows.filter fun r => decide (key r ∈ ds)) := by
  induction ds with
  | nil => simp
  | cons d ds ih =>
    obtain ⟨hd, hds⟩ := nodup_cons.mp hds
    have hsplit := filter_append_perm (fun r => eqKey d (key r))
      (rows.filter fun r => decide (key r ∈ d :: ds))
    refine (List.Perm.append_left _ (ih hds)).trans (List.Perm.trans (List.Perm.of_eq ?_) hsplit)
    rw [filter_filter, filter_filter]
    congr 1
    · refine filter_congr fun r _ => ?_
      by_cases hr : d = key r <;> simp [eqKey, hr]
    · refine filter_congr fun r _ => ?_
      by_cases hr : d = key r
      · have hnot : key r ∉ ds := hr ▸ hd
        simp [eqKey, hr, hnot]
      · simp [eqKey, hr, Ne.symm hr]

theorem parts_groups (key : α → κ) (rows : List α) :
    Parts key rows ((groups eqKey key rows).map (·.2)) where
  perm := by
    have hperm := flatMap_filter_perm (distinctBy eqKey (rows.map key)) (distinctBy_nodup _) key rows
    have hall : (rows.filter fun r => decide (key r ∈ distinctBy eqKey (rows.map key))) = rows := by
      refine filter_eq_self.mpr fun r hr => ?_
      rw [decide_eq_true_eq, mem_distinctBy]
      exact mem_map_of_mem hr
    rw [hall] at hperm
    rw [groups, map_map]
    exact hperm
  nonempty := by
    intro g hg
    simp only [groups, map_map, mem_map] at hg
    obtain ⟨k, hk, rfl⟩ := hg
    obtain ⟨r, hr, rfl⟩ := mem_map.mp ((mem_distinctBy _ k).mp hk)
    exact ne_nil_of_mem (mem_filter.mpr ⟨hr, by simp [eqKey]⟩)
  const := by
    intro g hg r hr r' hr'
    simp only [groups, map_map, mem_map] at hg
    obtain ⟨k, -, rfl⟩ := hg
    have h := of_decide_eq_true (mem_filter.mp hr).2
    have h' := of_decide_eq_true (mem_filter.mp hr').2
    exact h.symm.trans h'
  apart := by
    rw [groups, map_map, pairwise_map]
    refine (distinctBy_nodup (rows.map key)).imp fun {k k'} hne r hr r' hr' heq => hne ?_
    have h := of_decide_eq_true (mem_filter.mp hr).2
    have h' := of_decide_eq_true (mem_filter.mp hr').2
    exact h.trans (heq.trans h'.symm)

end Wadjet.Data
