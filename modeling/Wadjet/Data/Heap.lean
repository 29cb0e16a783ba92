import Wadjet.Data.TopN

-- A binary heap in a list, ordered by a test of its elements.
namespace Wadjet.Data

open List Option

namespace Heap

variable {α : Type} (less : α → α → Bool)

def child (h : List α) (i : Nat) : Option (Nat × α) :=
  match h[2 * i + 1]?, h[2 * i + 2]? with
  | none, _ => none
  | some l, none => some (2 * i + 1, l)
  | some l, some r => if less r l then some (2 * i + 2, r) else some (2 * i + 1, l)

theorem child_val {h : List α} {i c : Nat} {y : α} (hc : child less h i = some (c, y)) :
    h[c]? = some y ∧ (c = 2 * i + 1 ∨ c = 2 * i + 2) := by
  unfold child at hc
  split at hc
  · cases hc
  next l hl hr =>
    cases hc
    exact ⟨hl, .inl rfl⟩
  next l r hl hr =>
    split at hc <;> cases hc
    · exact ⟨hr, .inr rfl⟩
    · exact ⟨hl, .inl rfl⟩

def down (h : List α) (i : Nat) : List α :=
  match h[i]?, _hc : child less h i with
  | some x, some (c, y) => if less y x then down ((h.set i y).set c x) c else h
  | _, _ => h
termination_by h.length - i
decreasing_by
  obtain ⟨hget, hval⟩ := child_val less _hc
  have := (List.getElem?_eq_some_iff.mp hget).1
  rw [length_set, length_set]
  omega

def initFrom (h : List α) : Nat → List α
  | 0 => h
  | i + 1 => initFrom (down less h i) i

def init (h : List α) : List α :=
  initFrom less h (h.length / 2)

def fixRoot (h : List α) (x : α) : List α :=
  down less (h.set 0 x) 0

def popRoot (h : List α) : List α :=
  match h.getLast? with
  | none => []
  | some x => down less (h.set 0 x).dropLast 0

def OrderedFrom (k : Nat) (h : List α) : Prop :=
  ∀ j x y, 0 < j → k ≤ (j - 1) / 2 → h[j]? = some x → h[(j - 1) / 2]? = some y → less x y = false

-- All but the children of place i, which stand behind the parent of i.
structure OrderedExcept (k i : Nat) (h : List α) : Prop where
  other : ∀ j x y, 0 < j → k ≤ (j - 1) / 2 → (j - 1) / 2 ≠ i → h[j]? = some x →
    h[(j - 1) / 2]? = some y → less x y = false
  grand : ∀ j x y, 0 < j → (j - 1) / 2 = i → 0 < i → k ≤ (i - 1) / 2 → h[j]? = some x →
    h[(i - 1) / 2]? = some y → less x y = false

variable {less}

section

variable (hless : IsOrder fun a b => !less b a)

include hless

theorem not_less_trans {a b c : α} (hab : less a b = false)
    (hbc : less b c = false) : less a c = false := by
  have := hless.trans c b a (by simpa using hbc) (by simpa using hab)
  simpa using this

theorem not_less_of_less {a b : α} (h : less a b) : less b a = false := by
  obtain htotal | htotal := hless.total a b
  · simpa using htotal
  · rw [h] at htotal
    cases htotal

theorem not_less_self (a : α) : less a a = false := by
  simpa using hless.refl a

theorem child_first {h : List α} {i c : Nat} {y : α}
    (hc : child less h i = some (c, y)) {j : Nat} {x : α} (hpos : 0 < j) (hparent : (j - 1) / 2 = i)
    (hx : h[j]? = some x) : less x y = false := by
  have hj : j = 2 * i + 1 ∨ j = 2 * i + 2 := by omega
  unfold child at hc
  split at hc
  · cases hc
  next l hl hr =>
    cases hc
    obtain rfl | rfl := hj
    · rw [some.inj (hx.symm.trans hl)]
      exact not_less_self hless _
    · cases hr.symm.trans hx
  next l r hl hr =>
    split at hc <;> cases hc <;> obtain rfl | rfl := hj
    · rw [some.inj (hx.symm.trans hl)]
      exact not_less_of_less hless ‹_›
    · rw [some.inj (hx.symm.trans hr)]
      exact not_less_self hless _
    · rw [some.inj (hx.symm.trans hl)]
      exact not_less_self hless _
    · rw [some.inj (hx.symm.trans hr)]
      exact Bool.not_eq_true _ ▸ ‹_›

end

theorem child_none {h : List α} {i : Nat} (hc : child less h i = none) {j : Nat} (hpos : 0 < j)
    (hparent : (j - 1) / 2 = i) : h[j]? = none := by
  unfold child at hc
  split at hc
  next hl =>
    rw [getElem?_eq_none_iff] at hl ⊢
    omega
  · cases hc
  · split at hc <;> cases hc

section Down

variable {h : List α} {i c : Nat} {x y : α}

theorem getElem?_swap (hi : i < h.length) (hc : c < h.length) (j : Nat) :
    ((h.set i y).set c x)[j]? = if j = c then some x else if j = i then some y else h[j]? := by
  grind

theorem perm_swap (hx : h[i]? = some x) (hy : h[c]? = some y) : ((h.set i y).set c x).Perm h := by
  obtain ⟨hi, rfl⟩ := List.getElem?_eq_some_iff.mp hx
  obtain ⟨hc, rfl⟩ := List.getElem?_eq_some_iff.mp hy
  exact set_set_perm hi hc

theorem down_of_child (hx : h[i]? = some x) (hc : child less h i = some (c, y)) :
    down less h i = if less y x then down less ((h.set i y).set c x) c else h := by
  rw [down.eq_def]
  split
  case h_1 x' c' y' hx' hc' =>
    obtain rfl : x = x' := some.inj (hx.symm.trans hx')
    obtain ⟨rfl, rfl⟩ : c = c' ∧ y = y' := Prod.mk.inj (some.inj (hc.symm.trans hc'))
    rfl
  case h_2 hnone => exact absurd hc (hnone x c y hx)

theorem down_of_no_child
    (hnone : ∀ x c y, h[i]? = some x → child less h i = some (c, y) → False) : down less h i = h := by
  rw [down.eq_def]
  split
  case h_1 x c y hx hc => exact (hnone x c y hx hc).elim
  case h_2 => rfl

end Down

theorem perm_down (h : List α) (i : Nat) : (down less h i).Perm h := by
  induction h, i using down.induct less with
  | case1 h i x c y hc hx hcmp ih =>
    rw [down_of_child hx hc, if_pos hcmp]
    exact ih.trans (perm_swap hx (child_val less hc).1)
  | case2 h i x c y hc hx hcmp => rw [down_of_child hx hc, if_neg hcmp]
  | case3 h i hnone => rw [down_of_no_child hnone]

section

variable (hless : IsOrder fun a b => !less b a)

include hless

theorem OrderedExcept.swap {k i c : Nat} {h : List α} {x y : α}
    (hh : OrderedExcept less k i h) (hki : k ≤ i) (hx : h[i]? = some x) (hc : child less h i = some (c, y))
    (hcmp : less y x) : OrderedExcept less k c ((h.set i y).set c x) := by
  obtain ⟨hy, hval⟩ := child_val less hc
  have hi := (List.getElem?_eq_some_iff.mp hx).1
  have hlen := (List.getElem?_eq_some_iff.mp hy).1
  constructor
  · intro j u v hpos hk hne hu hv
    rw [getElem?_swap hi hlen] at hu hv
    rw [if_neg hne] at hv
    by_cases hjc : j = c
    · subst hjc
      rw [if_pos rfl] at hu
      rw [if_pos (by omega)] at hv
      cases hu
      cases hv
      exact not_less_of_less hless hcmp
    · rw [if_neg hjc] at hu
      by_cases hpi : (j - 1) / 2 = i
      · rw [if_neg (by omega)] at hu
        rw [if_pos hpi] at hv
        cases hv
        exact child_first hless hc hpos hpi hu
      · rw [if_neg hpi] at hv
        by_cases hji : j = i
        · subst hji
          rw [if_pos rfl] at hu
          cases hu
          exact hh.grand c _ _ (by omega) (by omega) hpos hk hy hv
        · rw [if_neg hji] at hu
          exact hh.other j _ _ hpos hk hpi hu hv
  · intro j u v hpos hjc _ hk hu hv
    rw [getElem?_swap hi hlen, if_neg (by omega), if_neg (by omega)] at hu
    rw [getElem?_swap hi hlen, if_neg (by omega), if_pos (by omega)] at hv
    cases hv
    exact hh.other j _ _ hpos (by omega) (by omega) hu (hjc ▸ hy)

theorem ordered_down {k i : Nat} {h : List α}
    (hh : OrderedExcept less k i h) (hki : k ≤ i) : OrderedFrom less k (down less h i) := by
  induction h, i using down.induct less with
  | case1 h i x c y hc hx hcmp ih =>
    rw [down_of_child hx hc, if_pos hcmp]
    have := (child_val less hc).2
    exact ih (hh.swap hless hki hx hc hcmp) (by omega)
  | case2 h i x c y hc hx hcmp =>
    rw [down_of_child hx hc, if_neg hcmp]
    intro j u v hpos hk hu hv
    by_cases hpi : (j - 1) / 2 = i
    · rw [hpi] at hv
      obtain rfl := some.inj (hx.symm.trans hv)
      exact not_less_trans hless (child_first hless hc hpos hpi hu) (by simpa using hcmp)
    · exact hh.other j u v hpos hk hpi hu hv
  | case3 h i hnone =>
    rw [down_of_no_child hnone]
    intro j u v hpos hk hu hv
    by_cases hpi : (j - 1) / 2 = i
    · cases hc : child less h i with
      | none =>
        rw [child_none hc hpos hpi] at hu
        cases hu
      | some r => exact (hnone v r.1 r.2 (hpi ▸ hv) hc).elim
    · exact hh.other j u v hpos hk hpi hu hv

theorem initFrom_spec (h : List α) (i : Nat) (hh : OrderedFrom less i h) :
    (initFrom less h i).Perm h ∧ OrderedFrom less 0 (initFrom less h i) := by
  induction i generalizing h with
  | zero => exact ⟨.refl h, hh⟩
  | succ i ih =>
    have hexcept : OrderedExcept less i i h :=
      ⟨fun j x y hpos hk hne hx hy => hh j x y hpos (by omega) hx hy,
        fun j x y hpos hparent _ hk _ _ => absurd hk (by omega)⟩
    obtain ⟨hperm, hordered⟩ := ih (down less h i) (ordered_down hless hexcept (Nat.le_refl i))
    exact ⟨hperm.trans (perm_down h i), hordered⟩

end

variable (less) in
def Ordered (h : List α) : Prop :=
  OrderedFrom less 0 h

theorem init_spec (hless : IsOrder fun a b => !less b a) (h : List α) :
    (init less h).Perm h ∧ Ordered less (init less h) := by
  refine initFrom_spec hless h (h.length / 2) fun j x y hpos hk hx _ => ?_
  have := (List.getElem?_eq_some_iff.mp hx).1
  omega

variable {rest : List α} {root : α}

theorem not_less_root (hless : IsOrder fun a b => !less b a)
    (hh : Ordered less (root :: rest)) {x : α} (hx : x ∈ root :: rest) : less x root = false := by
  obtain ⟨j, hj⟩ := mem_iff_getElem?.mp hx
  clear hx
  induction j using Nat.strongRecOn generalizing x with
  | _ j ih =>
    by_cases hzero : j = 0
    · subst hzero
      cases hj
      exact not_less_self hless root
    · have hlt := (List.getElem?_eq_some_iff.mp hj).1
      have hparent : (root :: rest)[(j - 1) / 2]? = some (root :: rest)[(j - 1) / 2] :=
        getElem?_eq_getElem (by omega)
      have hstep := hh j x _ (by omega) (Nat.zero_le _) hj hparent
      exact not_less_trans hless hstep (ih ((j - 1) / 2) (by omega) hparent)

theorem Ordered.except {h h' : List α} (hh : Ordered less h)
    (hget : ∀ j x, 0 < j → h'[j]? = some x → h[j]? = some x) : OrderedExcept less 0 0 h' where
  other j x y hpos _ hne hx hy :=
    hh j x y hpos (Nat.zero_le _) (hget j x hpos hx) (hget _ y (Nat.pos_of_ne_zero hne) hy)
  grand _ _ _ _ _ hpos := absurd hpos (Nat.lt_irrefl 0)

theorem fixRoot_spec (hless : IsOrder fun a b => !less b a) (x : α)
    (hh : Ordered less (root :: rest)) :
    (fixRoot less (root :: rest) x).Perm (x :: rest) ∧ Ordered less (fixRoot less (root :: rest) x) := by
  refine ⟨perm_down _ 0, ordered_down hless (hh.except fun j y hpos hy => ?_) (Nat.le_refl 0)⟩
  cases j with
  | zero => exact absurd hpos (Nat.lt_irrefl 0)
  | succ j => exact hy

theorem popRoot_spec (hless : IsOrder fun a b => !less b a) (hh : Ordered less (root :: rest)) :
    (popRoot less (root :: rest)).Perm rest ∧ Ordered less (popRoot less (root :: rest)) := by
  unfold popRoot
  rw [getLast?_cons]
  constructor
  · refine (perm_down _ 0).trans ?_
    obtain rfl | ⟨init, last, rfl⟩ := rest.eq_nil_or_concat'
    · exact .refl _
    have hset : ((root :: (init ++ [last])).set 0 ((init ++ [last]).getLast?.getD root)).dropLast =
        last :: init := by
      rw [getLast?_concat, getD_some, set_cons_zero, ← cons_append,
        dropLast_concat]
    rw [hset]
    exact (perm_append_singleton last init).symm
  · refine ordered_down hless (hh.except fun j y hpos hy => ?_) (Nat.le_refl 0)
    cases j with
    | zero => exact absurd hpos (Nat.lt_irrefl 0)
    | succ j =>
      rw [getElem?_dropLast] at hy
      split at hy
      · exact hy
      · cases hy

end Heap

end Wadjet.Data
