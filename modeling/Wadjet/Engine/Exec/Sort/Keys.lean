import Wadjet.Data.StableSort

namespace Wadjet.Engine.Exec.Sort

open Wadjet.Data List

-- A slot of a column: the value under a NULL is whatever the slot holds.
structure Cell (V : Type) where
  null : Bool
  data : V
deriving DecidableEq

inductive SortOrder where
  | ascending
  | descending
deriving DecidableEq

structure SortKey (R V : Type) where
  column : R → Cell V
  kernel : V → V → Int
  order : SortOrder
  nullsLast : Bool

structure ResolvedSortKey (R V : Type) where
  column : R → Cell V
  order : SortOrder
  compare : Cell V → Cell V → Int

structure Batch (R : Type) where
  rows : List R
  sel : Option (List Nat)

def Batch.active {R : Type} (b : Batch R) : List R :=
  match b.sel with
  | none => b.rows
  | some idx => idx.filterMap (b.rows[·]?)

section Kernels

variable {V : Type} (kernel : V → V → Int)

def sortCompare (a b : Cell V) : Int :=
  if a.null && b.null then 0 else if a.null then -1 else if b.null then 1 else kernel a.data b.data

def sortCompareNullsLast (a b : Cell V) : Int :=
  if a.null && b.null then 0 else if a.null then 1 else if b.null then -1 else kernel a.data b.data

def sortCompareNoNulls (a b : Cell V) : Int :=
  kernel a.data b.data

end Kernels

variable {R V : Type} (key : SortKey R V)

-- The placement of NULL that survives the negation of a descending key.
def survivingNullsLast : Bool :=
  if key.order = .descending then !key.nullsLast else key.nullsLast

def resolveSortCompareForKey (nullFree : Bool) : Cell V → Cell V → Int :=
  if nullFree then sortCompareNoNulls key.kernel
  else if survivingNullsLast key then sortCompareNullsLast key.kernel
  else sortCompare key.kernel

def allNullFree (batches : List (Batch R)) : Bool :=
  batches.all fun b => b.rows.all fun r => !(key.column r).null

def resolveSortKey (nullFree : Bool) : ResolvedSortKey R V :=
  ⟨key.column, key.order, resolveSortCompareForKey key nullFree⟩

def resolveSortKeysForBatches (keys : List (SortKey R V)) (batches : List (Batch R)) :
    List (ResolvedSortKey R V) :=
  keys.map fun key => resolveSortKey key (allNullFree key batches)

def sortEntriesLess : List (ResolvedSortKey R V) → R → R → Bool
  | [], _, _ => false
  | key :: rest, a, b =>
    let cmp := key.compare (key.column a) (key.column b)
    if cmp = 0 then sortEntriesLess rest a b
    else if key.order = .descending then decide (0 < cmp) else decide (cmp < 0)

def keyCompare (a b : Cell V) : Int :=
  if a.null && b.null then 0
  else if a.null then (if key.nullsLast then 1 else -1)
  else if b.null then (if key.nullsLast then -1 else 1)
  else match key.order with
    | .ascending => key.kernel a.data b.data
    | .descending => key.kernel b.data a.data

def keyLe (a b : R) : Bool :=
  decide (keyCompare key (key.column a) (key.column b) ≤ 0)

def keysLe : List (SortKey R V) → R → R → Bool
  | [], _, _ => true
  | key :: rest, a, b => lexLe (keyLe key) (keysLe rest) a b

structure IsKernel (kernel : V → V → Int) : Prop where
  swap : ∀ a b, kernel a b < 0 ↔ 0 < kernel b a
  trans : ∀ a b c, kernel a b ≤ 0 → kernel b c ≤ 0 → kernel a c ≤ 0

namespace IsKernel

variable {kernel : V → V → Int} (hkernel : IsKernel kernel)

include hkernel

theorem nonneg_iff (a b : V) : 0 ≤ kernel a b ↔ kernel b a ≤ 0 := by
  have := hkernel.swap a b
  omega

theorem isOrder {R : Type} (f : R → V) : IsOrder fun a b => decide (kernel (f a) (f b) ≤ 0) where
  trans a b c hab hbc := by
    rw [decide_eq_true_iff] at hab hbc ⊢
    exact hkernel.trans _ _ _ hab hbc
  total a b := by
    rw [decide_eq_true_iff, decide_eq_true_iff]
    have := hkernel.swap (f b) (f a)
    omega

theorem flip : IsKernel fun a b => kernel b a where
  swap a b := hkernel.swap b a
  trans a b c hab hbc := hkernel.trans c b a hbc hab

theorem placed (last : Bool) : IsKernel fun a b : Cell V =>
    if a.null && b.null then 0 else if a.null then (if last then 1 else -1)
    else if b.null then (if last then -1 else 1) else kernel a.data b.data where
  swap a b := by
    have := hkernel.swap a.data b.data
    cases a.null <;> cases b.null <;> cases last <;> simp <;> omega
  trans a b c := by
    have := hkernel.trans a.data b.data c.data
    cases a.null <;> cases b.null <;> cases c.null <;> cases last <;> simp <;> omega

end IsKernel

variable {key : SortKey R V}

theorem isKernel_keyCompare (hkernel : IsKernel key.kernel) :
    IsKernel (keyCompare key) := by
  unfold keyCompare
  cases key.order
  · exact hkernel.placed key.nullsLast
  · exact hkernel.flip.placed key.nullsLast

variable {keys : List (SortKey R V)}

theorem isOrder_keysLe (hkeys : ∀ key ∈ keys, IsKernel key.kernel) : IsOrder (keysLe keys) := by
  induction keys with
  | nil => exact ⟨fun _ _ _ _ _ => rfl, fun _ _ => .inl rfl⟩
  | cons key rest ih =>
    obtain ⟨hkey, hrest⟩ := forall_mem_cons.mp hkeys
    exact ((isKernel_keyCompare hkey).isOrder key.column).lex (ih hrest)

def resolvedLe (key : ResolvedSortKey R V) (a b : R) : Bool :=
  match key.order with
  | .ascending => decide (key.compare (key.column a) (key.column b) ≤ 0)
  | .descending => decide (0 ≤ key.compare (key.column a) (key.column b))

theorem not_sortEntriesLess_cons (key : ResolvedSortKey R V) (rest : List (ResolvedSortKey R V))
    (hkey : IsKernel key.compare) (a b : R) :
    (!sortEntriesLess (key :: rest) b a) =
      lexLe (resolvedLe key) (fun a b => !sortEntriesLess rest b a) a b := by
  have hle := hkey.nonneg_iff (key.column b) (key.column a)
  have hge := hkey.nonneg_iff (key.column a) (key.column b)
  rw [sortEntriesLess, lexLe, resolvedLe, resolvedLe]
  simp only [← hle, hge]
  generalize key.compare (key.column b) (key.column a) = y
  obtain hy | rfl | hy := Int.lt_trichotomy y 0
  · have hne : y ≠ 0 := by omega
    have hpos : ¬ 0 < y := by omega
    have hnonneg : ¬ 0 ≤ y := by omega
    cases key.order <;> simp [hne, hy, hpos, hnonneg, Int.le_of_lt hy]
  · cases key.order <;> simp
  · have hne : y ≠ 0 := by omega
    have hneg : ¬ y < 0 := by omega
    have hnonpos : ¬ y ≤ 0 := by omega
    cases key.order <;> simp [hne, hy, hneg, hnonpos, Int.le_of_lt hy]

theorem isOrder_resolvedLe {key : ResolvedSortKey R V} (hkey : IsKernel key.compare) :
    IsOrder (resolvedLe key) := by
  unfold resolvedLe
  cases key.order
  · exact hkey.isOrder key.column
  · simp only [hkey.nonneg_iff]
    exact hkey.flip.isOrder key.column

theorem isOrder_sortEntriesLess {keys : List (ResolvedSortKey R V)}
    (hkeys : ∀ key ∈ keys, IsKernel key.compare) :
    IsOrder fun a b => !sortEntriesLess keys b a := by
  induction keys with
  | nil => exact ⟨fun _ _ _ _ _ => rfl, fun _ _ => .inl rfl⟩
  | cons key rest ih =>
    obtain ⟨hkey, hrest⟩ := forall_mem_cons.mp hkeys
    have hlex := (isOrder_resolvedLe hkey).lex (ih hrest)
    simpa only [not_sortEntriesLess_cons key rest hkey] using hlex

section

variable (hkernel : IsKernel key.kernel)

include hkernel

theorem isKernel_resolve (nullFree : Bool) : IsKernel (resolveSortCompareForKey key nullFree) := by
  unfold resolveSortCompareForKey
  split
  · exact ⟨fun a b => hkernel.swap a.data b.data, fun a b c => hkernel.trans a.data b.data c.data⟩
  · split
    · exact hkernel.placed true
    · exact hkernel.placed false

theorem resolve_le_iff {nullFree : Bool}
    {x y : Cell V} (hx : nullFree → x.null = false) (hy : nullFree → y.null = false) :
    (match key.order with
      | .ascending => resolveSortCompareForKey key nullFree x y ≤ 0
      | .descending => 0 ≤ resolveSortCompareForKey key nullFree x y) ↔ keyCompare key x y ≤ 0 := by
  have hflip := hkernel.nonneg_iff x.data y.data
  obtain ⟨xnull, x⟩ := x
  obtain ⟨ynull, y⟩ := y
  unfold keyCompare resolveSortCompareForKey survivingNullsLast sortCompareNoNulls
    sortCompareNullsLast sortCompare
  cases nullFree with
  | true =>
    obtain rfl : xnull = false := hx rfl
    obtain rfl : ynull = false := hy rfl
    cases key.order <;> simp [hflip]
  | false =>
    cases key.order <;> cases key.nullsLast <;> cases xnull <;> cases ynull <;> simp [hflip]

theorem resolvedLe_eq {nullFree : Bool} {a b : R}
    (ha : nullFree → (key.column a).null = false)
    (hb : nullFree → (key.column b).null = false) :
    resolvedLe (resolveSortKey key nullFree) a b = keyLe key a b := by
  have hiff := resolve_le_iff hkernel ha hb
  rw [keyLe, Bool.eq_iff_iff, decide_eq_true_iff, ← hiff]
  unfold resolvedLe resolveSortKey
  cases key.order
  · exact decide_eq_true_iff
  · exact decide_eq_true_iff

end

theorem null_of_allNullFree {batches : List (Batch R)} {b : Batch R} {a : R}
    (hb : b ∈ batches) (ha : a ∈ b.rows) (hfree : allNullFree key batches) :
    (key.column a).null = false := by
  have := all_eq_true.mp (all_eq_true.mp hfree b hb) a ha
  simpa using this

theorem not_less_eq_keysLe (hkeys : ∀ key ∈ keys, IsKernel key.kernel)
    (free : SortKey R V → Bool) {a b : R} (ha : ∀ key, free key → (key.column a).null = false)
    (hb : ∀ key, free key → (key.column b).null = false) :
    (!sortEntriesLess (keys.map fun key => resolveSortKey key (free key)) b a) = keysLe keys a b := by
  induction keys with
  | nil => rfl
  | cons key rest ih =>
    obtain ⟨hkey, hrest⟩ := forall_mem_cons.mp hkeys
    have hresolved : IsKernel (resolveSortKey key (free key)).compare :=
      isKernel_resolve hkey (free key)
    rw [map_cons, not_sortEntriesLess_cons _ _ hresolved, keysLe, lexLe, lexLe,
      resolvedLe_eq hkey (ha key) (hb key), resolvedLe_eq hkey (hb key) (ha key), ih hrest]

theorem Batch.mem_rows {b : Batch R} {a : R} (h : a ∈ b.active) : a ∈ b.rows := by
  unfold active at h
  split at h
  · exact h
  · obtain ⟨i, -, hi⟩ := mem_filterMap.mp h
    exact mem_of_getElem? hi

end Wadjet.Engine.Exec.Sort
