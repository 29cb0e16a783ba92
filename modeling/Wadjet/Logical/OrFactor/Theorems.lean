import Wadjet.Logical.OrFactor.Model

namespace Wadjet.Logical.OrFactor

open Wadjet.Sql Wadjet.Data List Option

section Common

variable (U : Unicode)

private theorem mem_foldl_filter (rest : List (List Node)) (common : List String) (s : String) :
    s ∈ rest.foldl (fun common terms => common.filter ((terms.map (termKey U)).contains ·)) common ↔
      s ∈ common ∧ ∀ terms ∈ rest, s ∈ terms.map (termKey U) := by
  induction rest generalizing common with
  | nil => simp
  | cons terms rest ih =>
    rw [foldl_cons, ih, mem_filter, contains_iff_mem, and_assoc, forall_mem_cons]

variable (branches : List (List Node))

theorem mem_commonKeys (s : String) (hne : branches ≠ []) :
    s ∈ commonKeys U branches ↔ ∀ terms ∈ branches, s ∈ terms.map (termKey U) := by
  obtain ⟨first, rest, rfl⟩ := exists_cons_of_ne_nil hne
  rw [commonKeys, mem_foldl_filter, forall_mem_cons]

theorem isCommon_iff (t : Node) (hne : branches ≠ []) :
    isCommon U branches t ↔ ∀ terms ∈ branches, ∃ s ∈ terms, termKey U s = termKey U t := by
  rw [isCommon, contains_iff_mem, mem_commonKeys U branches _ hne]
  simp

theorem remaining_eq_self (h : commonKeys U branches = [])
    (terms : List Node) : remaining U branches terms = terms := by
  simp [remaining, isCommon, h]

theorem mem_remainingTerms (hterms : ∀ b ∈ branches, b ≠ [])
    (rest : List Node) :
    rest ∈ remainingTerms U branches ↔
      rest ≠ [] ∧ ∃ b ∈ branches, remaining U branches b = rest := by
  unfold remainingTerms
  split
  next h =>
    simp only [remaining_eq_self U branches h, exists_eq_right]
    exact ⟨fun hb => ⟨hterms rest hb, hb⟩, And.right⟩
  next h => simp [mem_filter, and_comm]

end Common

section Result

variable {V : Type} (U : Unicode) (I : Interp V) (ρ : Row V) (p : Node)

theorem truth_unwrapParenOr (l r : Node) (h : unwrapParenOr p = some (l, r)) :
    p.truth I ρ = (Node.or l r).truth I ρ := by
  fun_induction unwrapParenOr p with
  | case1 l' r' =>
    obtain ⟨rfl, rfl⟩ := Prod.mk.inj (some.inj h)
    rfl
  | case2 inner ih => rw [Node.truth_paren, ih h]
  | case3 n h₁ h₂ => cases h

def branchTerms (p : Node) : Option (List (List Node)) :=
  (unwrapParenOr p).map fun (l, r) => (flattenORNodes (.or l r)).map flattenANDNodes

theorem branchTerms_ne_nil (branches : List (List Node))
    (h : branchTerms p = some branches) : 2 ≤ branches.length ∧ ∀ b ∈ branches, b ≠ [] := by
  simp only [branchTerms, map_eq_some_iff, Prod.exists] at h
  obtain ⟨l, r, -, rfl⟩ := h
  constructor
  · have hl := length_pos_iff.mpr (flattenORNodes_ne_nil l)
    have hr := length_pos_iff.mpr (flattenORNodes_ne_nil r)
    simp only [flattenORNodes, length_map, length_append]
    omega
  · intro b hb
    obtain ⟨n, -, rfl⟩ := mem_map.mp hb
    exact flattenANDNodes_ne_nil n

theorem truth_eq_true_iff_branchTerms (branches : List (List Node))
    (h : branchTerms p = some branches) :
    p.truth I ρ = .true ↔ ∃ b ∈ branches, AllTrue I ρ b := by
  simp only [branchTerms, map_eq_some_iff, Prod.exists] at h
  obtain ⟨l, r, hp, rfl⟩ := h
  rw [truth_unwrapParenOr I ρ p l r hp, truth_eq_true_iff_flattenOR]
  simp [truth_eq_true_iff_flattenAND I ρ]

variable (rests : List (List Node))

private theorem mem_andBranches : (∃ n ∈ rests.filterMap andBranch, n.truth I ρ = .true) ↔
      ∃ rest ∈ rests, rest ≠ [] ∧ AllTrue I ρ rest := by
  simp only [mem_filterMap]
  constructor
  · rintro ⟨n, ⟨rest, hrest, hn⟩, ht⟩
    cases rest with
    | nil => cases hn
    | cons t ts =>
      obtain rfl := some.inj hn
      exact ⟨t :: ts, hrest, by simp, (truth_buildANDTree I ρ t ts).mp ht⟩
  · rintro ⟨rest, hrest, hne, ht⟩
    obtain ⟨t, ts, rfl⟩ := exists_cons_of_ne_nil hne
    exact ⟨buildANDTree t ts, ⟨t :: ts, hrest, rfl⟩, (truth_buildANDTree I ρ t ts).mpr ht⟩

private theorem filterMap_andBranch_eq_nil :
    rests.filterMap andBranch = [] ↔ ∀ rest ∈ rests, rest = [] := by
  simp only [filterMap_eq_nil_iff]
  refine forall₂_congr fun rest _ => ?_
  cases rest <;> simp [andBranch]

def RestHolds (branches : List (List Node)) : Prop :=
  (∀ b ∈ branches, remaining U branches b = []) ∨
    ∃ b ∈ branches, remaining U branches b ≠ [] ∧ AllTrue I ρ (remaining U branches b)

variable (branches : List (List Node))

theorem truth_simplifiedOR :
    (∀ q ∈ simplifiedOR U branches, q.truth I ρ = .true) ↔ RestHolds U I ρ branches := by
  have hnil := filterMap_andBranch_eq_nil (branches.map (remaining U branches))
  have hsome := mem_andBranches I ρ (branches.map (remaining U branches))
  simp only [List.forall_mem_map] at hnil
  simp only [List.mem_map, exists_exists_and_eq_and] at hsome
  unfold simplifiedOR RestHolds
  split
  next h =>
    rw [h] at hnil hsome
    exact ⟨fun _ => Or.inl (hnil.mp rfl), by simp⟩
  next b bs h =>
    rw [h] at hnil hsome
    have hnot : ¬∀ b ∈ branches, remaining U branches b = [] := fun hall => by cases hnil.mpr hall
    simp only [mem_singleton, forall_eq, Predicate.truth_ofNode, truth_buildORTree, hsome, hnot,
      false_or]

variable (entry : Entry Node Node)

def Listed : Prop :=
  ∃ v ∈ entry.values, (Node.cmp entry.item .eq v).truth I ρ = .true

def AllListed (branches : List (List Node)) : Prop :=
  ∀ entry ∈ columnValueSets U (remainingTerms U branches), Listed I ρ entry

theorem equality_cases (t col v : Node) (h : equality t = some (col, v)) :
    (∃ table column, col = .colRef table column) ∧ (∃ value kind, v = .lit value kind) ∧
      (t = .cmp col .eq v ∨ t = .cmp v .eq col) := by
  unfold equality at h
  split at h
  next left right =>
    unfold extractColAndLit at h
    split at h
    next table column value kind =>
      obtain ⟨rfl, rfl⟩ := Prod.mk.inj (some.inj h)
      exact ⟨⟨_, _, rfl⟩, ⟨_, _, rfl⟩, Or.inl rfl⟩
    next value kind table column =>
      obtain ⟨rfl, rfl⟩ := Prod.mk.inj (some.inj h)
      exact ⟨⟨_, _, rfl⟩, ⟨_, _, rfl⟩, Or.inr rfl⟩
    next => cases h
  next => cases h

theorem truth_equality (t col v : Node) (h : equality t = some (col, v)) :
    t.truth I ρ = .true ↔ (Node.cmp col .eq v).truth I ρ = .true := by
  obtain ⟨⟨table, column, rfl⟩, ⟨value, kind, rfl⟩, rfl | rfl⟩ := equality_cases t col v h
  · rfl
  · rw [Node.truth_eq_colRef_lit, Node.truth_eq_lit_colRef]
    exact ⟨I.cmpNull_eq_comm _ _, I.cmpNull_eq_comm _ _⟩

def equalities (terms : List Node) : List (Node × Node) := terms.filterMap equality

theorem columnValueSets_spec (h : entry ∈ columnValueSets U branches) : 2 ≤ entry.values.length ∧
    (∃ terms ∈ branches, ∃ p ∈ equalities terms, entry.item = p.1) ∧ (entry.values.map (Node.text U)).Nodup ∧
    (∃ run, run <:+ branches.map equalities ∧ (∀ g ∈ run, ∃ p ∈ g, termKey U p.1 = termKey U entry.item) ∧
      ∀ v ∈ entry.values, ∃ g ∈ run, ∃ p ∈ g, termKey U p.1 = termKey U entry.item ∧ p.2 = v) ∧
    (∃ terms ∈ branches, terms.length ≠ 1) ∧
    ((∀ terms ∈ branches, ∃ p ∈ equalities terms, termKey U p.1 = termKey U entry.item) →
      ∀ terms ∈ branches, ∀ p ∈ equalities terms, termKey U p.1 = termKey U entry.item →
        entry.Covers (Node.text U) p.2) := by
  unfold columnValueSets at h
  split at h
  · simp at h
  next hlen =>
  simp only at h
  split at h
  · simp at h
  next hsingle =>
  obtain ⟨hentry, hvalues⟩ := mem_filter.mp h
  obtain ⟨⟨k, e⟩, hmem, rfl⟩ := mem_map.mp hentry
  have hgroups : branches.map equalities ≠ [] := by
    intro hnil
    simp only [map_eq_nil_iff] at hnil
    simp [hnil] at hlen
  obtain rfl := key_item_of_mem_collect (termKey U) (Node.text U) _ k e hmem
  obtain ⟨run, hrun⟩ := run_collect (termKey U) (Node.text U) _ hgroups (termKey U e.item)
  refine ⟨by simpa using hvalues, ?_, nodup_values_of_mem_collect _ _ _ _ e hmem, ⟨run, hrun.suffix, fun g hg => ?_,
    hrun.values e hmem⟩, ?_, ?_⟩
  · obtain ⟨g, hg, p, hp, hitem⟩ := item_of_mem_collect (termKey U) (Node.text U) _ _ e hmem
    obtain ⟨terms, hterms, rfl⟩ := mem_map.mp hg
    exact ⟨terms, hterms, p, hp, hitem⟩
  · exact mem_map.mp (hrun.keys g hg)
  · by_contra hall
    obtain ⟨g, hg, hlength⟩ := length_collect_le (termKey U) (Node.text U) _ hgroups
    obtain ⟨terms, hterms, rfl⟩ := mem_map.mp hg
    have hone : ∀ terms ∈ branches, terms.length = 1 := fun terms hterms =>
      not_not.mp fun hne => hall ⟨terms, hterms, hne⟩
    have hle := length_filterMap_le equality terms
    have hpos := length_pos_of_mem hmem
    refine hsingle ?_
    simp only [Bool.and_eq_true, List.all_eq_true, decide_eq_true_eq]
    refine ⟨?_, hone⟩
    rw [hone terms hterms] at hle
    exact Nat.le_antisymm (Nat.le_trans hlength hle) hpos
  · intro hall terms hterms p hp hkey
    refine (collected_collect (termKey U) (Node.text U) _ hgroups).covered _ e hmem ?_ _
      (mem_map_of_mem hterms) p hp hkey.symm
    intro g hg
    obtain ⟨terms', hterms', rfl⟩ := mem_map.mp hg
    exact mem_map.mpr (hall terms' hterms')

theorem truth_inPredicate (h : entry ∈ columnValueSets U branches) :
    (inPredicate entry).truth I ρ = .true ↔ Listed I ρ entry := by
  obtain ⟨hlen, ⟨terms, -, p, hp, hitem⟩, -, ⟨run, hsuffix, -, hlits⟩, -, -⟩ :=
      columnValueSets_spec U branches entry h
  obtain ⟨t, -, heq⟩ := mem_filterMap.mp hp
  obtain ⟨⟨table, column, hcol⟩, -, -⟩ := equality_cases t p.1 p.2 heq
  rw [← hitem] at hcol
  unfold inPredicate Listed
  rw [hcol, Node.truth_inExpr_colRef I ρ table column entry.values hlen, Interp.member_eq_true]
  simp only [List.mem_map, exists_exists_and_eq_and]
  refine exists_congr fun w => and_congr_right fun hw => ?_
  obtain ⟨g, hg, q, hq, -, rfl⟩ := hlits w hw
  obtain ⟨terms, -, rfl⟩ := mem_map.mp (hsuffix.subset hg)
  obtain ⟨s, -, hs⟩ := mem_filterMap.mp hq
  obtain ⟨-, ⟨value, kind, hlit⟩, -⟩ := equality_cases s q.1 q.2 hs
  rw [hlit]
  rw [Node.truth_eq_colRef_lit]
  rfl

theorem truth_extractCommonFromORPred (p : Node) (raw : String) (branches : List (List Node))
    (h : branchTerms p = some branches) :
    (∀ q ∈ extractCommonFromORPred U ⟨some p, raw, false⟩, q.truth I ρ = .true) ↔
      AllTrue I ρ (commonTerms U branches (branches.headD [])) ∧ RestHolds U I ρ branches ∧
        AllListed U I ρ branches := by
  obtain ⟨hlen, hterms⟩ := branchTerms_ne_nil p branches h
  have hp := truth_eq_true_iff_branchTerms I ρ p branches h
  simp only [branchTerms, map_eq_some_iff, Prod.exists] at h
  obtain ⟨l, r, hunwrap, hbranches⟩ := h
  have hsets : (∀ q ∈ extractColumnValueSetsFromOR U (remainingTerms U branches),
      q.truth I ρ = .true) ↔ AllListed U I ρ branches := by
    simp only [extractColumnValueSetsFromOR, List.forall_mem_map]
    exact forall₂_congr fun entry hentry => truth_inPredicate U I ρ _ entry hentry
  simp only [extractCommonFromORPred, bind_some, hunwrap, hbranches]
  rw [if_neg (by omega), forall_mem_append, hsets, ← and_assoc]
  refine and_congr_left fun _ => ?_
  split
  next hnone =>
    -- no common term: the predicate itself is kept
    have hcommon : commonTerms U branches (branches.headD []) = [] := by
      simp [commonTerms, isCommon, hnone]
    have hrest : ¬∀ b ∈ branches, b = [] := by
      obtain ⟨b, bs, rfl⟩ : ∃ b bs, branches = b :: bs :=
        exists_cons_of_ne_nil (ne_nil_of_length_pos (by omega))
      exact fun hall => hterms b mem_cons_self (hall b mem_cons_self)
    simp only [mem_singleton, forall_eq, Predicate.truth, hp, hcommon, allTrue_nil, true_and,
      RestHolds, remaining_eq_self U branches hnone, hrest, false_or]
    exact exists_congr fun b => and_congr_right fun hb => (and_iff_right (hterms b hb)).symm
  next hsome =>
    rw [forall_mem_append, truth_simplifiedOR]
    simp [AllTrue]

def Shared (t : Node) : Prop := ∀ terms ∈ branches, ∃ s ∈ terms, termKey U s = termKey U t

instance (t : Node) : Decidable (Shared U branches t) :=
  inferInstanceAs (Decidable (∀ terms ∈ branches, ∃ s ∈ terms, termKey U s = termKey U t))

def ownTerms (terms : List Node) : List Node := terms.filter fun t => ¬ Shared U branches t

-- A column equated with two literals in the last branches, in each of them, is
-- equated in all of them.
def Even (groups : List (List (Node × Node))) : Prop :=
  ∀ run, run <:+ groups → ∀ col, (∀ g ∈ run, ∃ p ∈ g, termKey U p.1 = termKey U col) →
    (∃ g ∈ run, ∃ p ∈ g, ∃ h ∈ run, ∃ q ∈ h, termKey U p.1 = termKey U col ∧ termKey U q.1 = termKey U col ∧
      p.2.text U ≠ q.2.text U) →
    ∀ g ∈ groups, ∃ p ∈ g, termKey U p.1 = termKey U col

-- A disjunction whose text says enough. Terms in all branches, up to letter case, are
-- spelled alike; the branches have all a term of their own or none has; columns equated in
-- only some branches come to no value set; and an equality is known by its text.
structure Separated (branches : List (List Node)) : Prop where
  spelling : ∀ b ∈ branches, ∀ c ∈ branches, ∀ s ∈ b, ∀ t ∈ c, Shared U branches s →
    termKey U s = termKey U t → s = t
  absorption : (∀ b ∈ branches, ∀ t ∈ b, Shared U branches t) ∨ ∀ b ∈ branches, ∃ t ∈ b, ¬ Shared U branches t
  columns : (∀ b ∈ branches, (ownTerms U branches b).length = 1) ∨
    Even U (branches.map fun b => equalities (ownTerms U branches b))
  literals : ∀ b ∈ branches, ∀ c ∈ branches, ∀ p ∈ equalities b, ∀ q ∈ equalities c,
    termKey U p.1 = termKey U q.1 → p.1 = q.1 ∧ (p.2.text U = q.2.text U → p.2 = q.2)

section Own

variable {branches : List (List Node)} (hne : branches ≠ [])

include hne

theorem isCommon_eq (t : Node) : isCommon U branches t = decide (Shared U branches t) := by
  rw [Bool.eq_iff_iff, decide_eq_true_iff]
  exact isCommon_iff U branches t hne

theorem remaining_eq (terms : List Node) : remaining U branches terms = ownTerms U branches terms := by
  simp only [remaining, ownTerms, isCommon_eq U hne, decide_not]

theorem remaining_eq_nil_iff (terms : List Node) :
    remaining U branches terms = [] ↔ ∀ t ∈ terms, Shared U branches t := by
  rw [remaining_eq U hne, ownTerms, filter_eq_nil_iff]
  simp

theorem remainingTerms_eq (hown : ∀ b ∈ branches, ∃ t ∈ b, ¬ Shared U branches t) :
    remainingTerms U branches = branches.map (ownTerms U branches) := by
  have hmap : branches.map (remaining U branches) = branches.map (ownTerms U branches) :=
    map_congr_left fun terms _ => remaining_eq U hne terms
  unfold remainingTerms
  split
  next h => rw [← hmap, funext (remaining_eq_self U branches h), List.map_id']
  next =>
    rw [hmap, filter_eq_self]
    intro terms hterms
    obtain ⟨b, hb, rfl⟩ := mem_map.mp hterms
    obtain ⟨t, ht, hnot⟩ := hown b hb
    rw [decide_eq_true_iff, ← remaining_eq U hne, Ne, remaining_eq_nil_iff U hne]
    exact fun hall => hnot (hall t ht)

end Own

theorem allTrue_remaining (b : List Node) (h : AllTrue I ρ b) :
    AllTrue I ρ (remaining U branches b) :=
  fun t ht => h t (mem_filter.mp ht).1

namespace Separated

variable {branches : List (List Node)} (h : Separated U branches)

include h

theorem allTrue_commonTerms (b c : List Node) (hb : b ∈ branches)
    (hc : c ∈ branches) (ht : AllTrue I ρ (commonTerms U branches b)) :
    AllTrue I ρ (commonTerms U branches c) := by
  intro t hmem
  obtain ⟨htc, hcommon⟩ := mem_filter.mp hmem
  have hshared := (isCommon_iff U branches t (ne_nil_of_mem hb)).mp hcommon
  obtain ⟨s, hs, hkey⟩ := hshared b hb
  have hst : t = s := h.spelling c hc b hb t htc s hs hshared hkey.symm
  exact ht t (mem_filter.mpr ⟨hst ▸ hs, hcommon⟩)

theorem allListed (b : List Node) (hb : b ∈ branches) (ht : AllTrue I ρ b)
    (hown : ∀ b ∈ branches, ∃ t ∈ b, ¬ Shared U branches t) :
    AllListed U I ρ branches := by
  rw [AllListed, remainingTerms_eq U (ne_nil_of_mem hb) hown]
  intro entry hentry
  obtain ⟨hlen, ⟨_, hterms, p₀, hp₀, hitem⟩, hnodup, ⟨run, hsuffix, hkeys, hvalues⟩,
      ⟨_, hterms', hlength⟩, hcovers⟩ :=
    columnValueSets_spec U _ entry hentry
  obtain ⟨first, hfirst, rfl⟩ := mem_map.mp hterms
  obtain ⟨long, hlong, rfl⟩ := mem_map.mp hterms'
  have hsub : ∀ {b p}, p ∈ equalities (ownTerms U branches b) → p ∈ equalities b := fun hp =>
    (filter_sublist.filterMap _).subset hp
  have heven := h.columns.resolve_left fun hone => hlength (hone long hlong)
  rw [List.map_map] at hsuffix
  -- Two of the values differ, so every branch equates the column.
  have hall := heven run hsuffix entry.item hkeys (by
    match hentry : entry.values, hlen with
    | v :: w :: rest, _ =>
      obtain ⟨g, hg, p, hp, hpk, hpv⟩ := hvalues v (by simp [hentry])
      obtain ⟨g', hg', q, hq, hqk, hqw⟩ := hvalues w (by simp [hentry])
      refine ⟨g, hg, p, hp, g', hg', q, hq, hpk, hqk, fun htext => ?_⟩
      rw [hentry, map_cons, map_cons, nodup_cons] at hnodup
      exact hnodup.1 (by simp [← hpv, ← hqw, htext]))
  simp only [List.forall_mem_map] at hall
  obtain ⟨p, hp, hkey⟩ := hall b hb
  obtain ⟨w, hw, htext⟩ := hcovers (by simpa using hall) _ (mem_map_of_mem hb) p hp hkey
  obtain ⟨g, hg, q, hq, hqk, rfl⟩ := hvalues w hw
  obtain ⟨c, hc, rfl⟩ := mem_map.mp (hsuffix.subset hg)
  obtain ⟨-, hlit⟩ := h.literals c hc b hb q (hsub hq) p (hsub hp) (hqk.trans hkey.symm)
  obtain ⟨hcol, -⟩ := h.literals first hfirst b hb p₀ (hsub hp₀) p (hsub hp) (by rw [← hitem, hkey])
  obtain ⟨t, htm, heq⟩ := mem_filterMap.mp (hsub hp)
  refine ⟨q.2, hw, ?_⟩
  rw [hlit htext, hitem, hcol, ← truth_equality I ρ t p.1 p.2 heq]
  exact ht t htm

theorem factors (hne : branches ≠ []) (hterms : ∀ b ∈ branches, b ≠ []) : (∃ b ∈ branches, AllTrue I ρ b) ↔
    AllTrue I ρ (commonTerms U branches (branches.headD [])) ∧ RestHolds U I ρ branches ∧
        AllListed U I ρ branches := by
  obtain ⟨first, rest, hbranches⟩ := exists_cons_of_ne_nil hne
  have hhead : branches.headD [] ∈ branches := by simp [hbranches]
  constructor
  · rintro ⟨b, hb, ht⟩
    refine ⟨h.allTrue_commonTerms U I ρ b _ hb hhead fun t hm => ht t (mem_filter.mp hm).1, ?_⟩
    obtain hall | hown := h.absorption
    · have hnil : ∀ b ∈ branches, remaining U branches b = [] := fun b hb =>
        (remaining_eq_nil_iff U hne b).mpr (hall b hb)
      have hrest : remainingTerms U branches = [] := by
        refine eq_nil_iff_forall_not_mem.mpr fun rest hrest => ?_
        obtain ⟨hne, b, hb, hrem⟩ := (mem_remainingTerms U branches hterms rest).mp hrest
        exact hne (hrem ▸ hnil b hb)
      refine ⟨.inl hnil, fun entry hentry => ?_⟩
      simp [hrest, columnValueSets] at hentry
    · refine ⟨.inr ⟨b, hb, fun hnil => ?_, allTrue_remaining U I ρ branches b ht⟩, h.allListed U I ρ b hb ht hown⟩
      obtain ⟨t, htm, hnot⟩ := hown b hb
      exact hnot ((remaining_eq_nil_iff U hne b).mp hnil t htm)
  · rintro ⟨hcommon, hrest, -⟩
    obtain ⟨b, hb, hrest⟩ : ∃ b ∈ branches, AllTrue I ρ (remaining U branches b) := by
      rcases hrest with hall | ⟨b, hb, -, hrest⟩
      · exact ⟨_, hhead, by rw [hall _ hhead]; exact allTrue_nil I ρ⟩
      · exact ⟨b, hb, hrest⟩
    refine ⟨b, hb, fun t ht => ?_⟩
    by_cases hc : isCommon U branches t
    · exact h.allTrue_commonTerms U I ρ _ b hhead hb hcommon t (mem_filter.mpr ⟨ht, hc⟩)
    · exact hrest t (mem_filter.mpr ⟨ht, by simpa using hc⟩)

end Separated

theorem extractCommonFromORPred_keeps_truth (p : Node) (raw : String)
    (h : ∀ branches, branchTerms p = some branches → Separated U branches) :
    p.truth I ρ = .true ↔ ∀ q ∈ extractCommonFromORPred U ⟨some p, raw, false⟩, q.truth I ρ = .true := by
  rcases hbranches : branchTerms p with _ | branches
  · have hself : extractCommonFromORPred U ⟨some p, raw, false⟩ = [⟨some p, raw, false⟩] := by
      simp only [branchTerms, map_eq_none_iff] at hbranches
      simp [extractCommonFromORPred, hbranches]
    simp [hself, Predicate.truth]
  · obtain ⟨hlen, hterms⟩ := branchTerms_ne_nil p branches hbranches
    rw [truth_eq_true_iff_branchTerms I ρ p branches hbranches,
      truth_extractCommonFromORPred U I ρ p raw branches hbranches]
    exact (h branches hbranches).factors U I ρ (ne_nil_of_length_pos (by omega)) hterms

end Result

variable (column value : String)

private def eqText : Node := .cmp (.colRef "" column) .eq (.lit value .string)

private def rowOf : Row String := fun _ c => if c = column then some value else none

-- `(c = '1' AND n = 'F' AND m = 'G') OR (c = '1' AND n = 'G' AND m = 'F')`.
private def swappedPair : Node :=
  .or (.paren (.and (.and (eqText "c" "1") (eqText "n" "F")) (eqText "m" "G")))
    (.paren (.and (.and (eqText "c" "1") (eqText "n" "G")) (eqText "m" "F")))

private def swappedTerms : List (List Node) :=
  [[eqText "c" "1", eqText "n" "F", eqText "m" "G"], [eqText "c" "1", eqText "n" "G", eqText "m" "F"]]

private theorem mem_swappedTerms (b : List Node) (hb : b ∈ swappedTerms) (t : Node) (ht : t ∈ b) :
    t = eqText "c" "1" ∨ t = eqText "n" "F" ∨ t = eqText "m" "G" ∨ t = eqText "n" "G" ∨
      t = eqText "m" "F" := by
  simp only [swappedTerms, mem_cons, not_mem_nil, or_false] at hb
  rcases hb with rfl | rfl <;> simp only [mem_cons, not_mem_nil, or_false] at ht <;> tauto

private theorem swappedTerms_separated : Separated Unicode.ascii swappedTerms := by
  have hgroups : swappedTerms.map (fun b => equalities (ownTerms Unicode.ascii swappedTerms b)) =
      [[(.colRef "" "n", .lit "F" .string), (.colRef "" "m", .lit "G" .string)],
        [(.colRef "" "n", .lit "G" .string), (.colRef "" "m", .lit "F" .string)]] := rfl
  refine ⟨?_, .inr (by decide), .inr ?_, ?_⟩
  · intro b hb c hc s hs t ht _ hkey
    rcases mem_swappedTerms b hb s hs with rfl | rfl | rfl | rfl | rfl <;>
      rcases mem_swappedTerms c hc t ht with rfl | rfl | rfl | rfl | rfl <;>
      first | rfl | exact absurd hkey (by decide)
  · rw [hgroups]
    rintro run hsuffix col - ⟨g, hg, p, hp, -, -, -, -, hkey, -⟩
    have hcol : p.1 = .colRef "" "n" ∨ p.1 = .colRef "" "m" := by
      have hgroup := hsuffix.subset hg
      simp only [mem_cons, not_mem_nil, or_false] at hgroup
      rcases hgroup with rfl | rfl <;> simp only [mem_cons, not_mem_nil, or_false] at hp <;>
        rcases hp with rfl | rfl <;> simp
    rw [← hkey]
    rcases hcol with hcol | hcol <;> rw [hcol] <;> decide
  · intro b hb c hc p hp q hq hkey
    obtain ⟨s, hs, hp⟩ := mem_filterMap.mp hp
    obtain ⟨t, ht, hq⟩ := mem_filterMap.mp hq
    rcases mem_swappedTerms b hb s hs with rfl | rfl | rfl | rfl | rfl <;>
      rcases mem_swappedTerms c hc t ht with rfl | rfl | rfl | rfl | rfl <;>
      obtain rfl := some.inj hp <;> obtain rfl := some.inj hq <;>
      first | exact absurd hkey (by decide) | exact ⟨rfl, fun htext => absurd htext (by decide)⟩ |
        exact ⟨rfl, fun _ => rfl⟩

private def swappedRow : Row String := fun _ c => if c = "c" then some "1" else if c = "n" then some "G" else some "F"

theorem extractCommonFromORPred_keeps_truth_swappedPair :
    swappedPair.truth Interp.text swappedRow = .true ↔
      ∀ q ∈ extractCommonFromORPred Unicode.ascii ⟨some swappedPair, "", false⟩,
        q.truth Interp.text swappedRow = .true := by
  refine extractCommonFromORPred_keeps_truth Unicode.ascii Interp.text swappedRow swappedPair "" ?_
  intro branches h
  obtain rfl := some.inj h
  exact swappedTerms_separated

-- `x = '1' OR (x = '1' AND y = '2')`, `x = 'A' OR x = 'a'` and
-- `y = '5' OR (x = '1' AND z = '3') OR (x = '2' AND z = '4')`, each with a row
-- that satisfies it.
def lostRows : List (Node × Row String) :=
  [(.or (eqText "x" "1") (.paren (.and (eqText "x" "1") (eqText "y" "2"))), rowOf "x" "1"),
    (.or (eqText "x" "A") (eqText "x" "a"), rowOf "x" "a"),
    (.or (.or (eqText "y" "5") (.paren (.and (eqText "x" "1") (eqText "z" "3"))))
      (.paren (.and (eqText "x" "2") (eqText "z" "4"))), rowOf "y" "5")]

theorem extractCommonFromORPred_loses_rows :
    lostRows ≠ [] ∧ ∀ lost ∈ lostRows, lost.1.truth Interp.text lost.2 = .true ∧
      ¬∀ q ∈ extractCommonFromORPred Unicode.ascii ⟨some lost.1, lost.1.text Unicode.ascii, false⟩,
        q.truth Interp.text lost.2 = .true := by
  refine ⟨cons_ne_nil _ _, ?_⟩
  decide

end Wadjet.Logical.OrFactor
