import Wadjet.Data.Exposure
import Wadjet.Logical.PlanPolicy.Model

namespace Wadjet.Logical.PlanPolicy

open Wadjet.Sql List

variable {V : Type} (W : World V)

def visible (restricted : List String) (r : Record V) : Record V := fun c =>
  if c ∈ restricted then none else r c

theorem visible_nil (r : Record V) : visible [] r = r := by
  funext c
  simp [visible]

namespace World

def reads (ref : String × String) : String :=
  if W.rowColumn (W.unicode.lower ref.1) then W.unicode.lower ref.1 else W.unicode.lower ref.2

structure ReadsVisible (restricted : List String) (n : Node) : Prop where
  subqueries : n.subqueryTexts = []
  refs : ∀ ref ∈ n.refs, W.reads ref ∉ restricted

variable (restricted : List String)

theorem row_visible (r : Record V) (ref : String × String)
    (h : W.reads ref ∉ restricted) : W.row r ref.1 ref.2 = W.row (visible restricted r) ref.1 ref.2 := by
  unfold reads at h
  unfold row
  split at h <;> simp [visible, *]

theorem engine_alike (db db' : Database V) : (W.engine db).Alike (W.engine db') := ⟨W.subqueryRows db', rfl⟩

section Blind

variable {restricted : List String} {n : Node} (h : W.ReadsVisible restricted n) (db db' : Database V)
  (r : Record V)

include h

theorem ReadsVisible.agree :
    AgreeUnder (W.engine db) (W.engine db') n (W.row r) (W.row (visible restricted r)) where
  refs ref href := W.row_visible restricted r ref (h.refs ref href)
  subqueries s hs := by
    rw [h.subqueries] at hs
    cases hs

theorem ReadsVisible.eval :
    n.eval (W.engine db) (W.row r) = n.eval (W.engine db') (W.row (visible restricted r)) :=
  ((h.agree W db db' r).same (W.engine_alike db db')).eval

theorem ReadsVisible.truth :
    n.truth (W.engine db) (W.row r) = n.truth (W.engine db') (W.row (visible restricted r)) :=
  (h.agree W db db' r).truth (W.engine_alike db db')

end Blind

theorem subqueryTexts_of_plain (n : Node) (h : n.hasOpaque = false) : n.subqueryTexts = [] := by
  rw [eq_nil_iff_forall_not_mem]
  intro s hs
  unfold Node.hasOpaque at h
  rw [Bool.not_eq_false', List.isEmpty_iff] at h
  have hnil : () ∈ ([] : List Unit) := by
    rw [← h]
    refine Node.mem_walk_of_leaf _ (fun m hm => ?_) hs
    cases m <;> simp_all [Node.subqueryLeaf]
  cases hnil

-- A predicate the guard can read, and that selects no field of a restricted
-- ROW column.
def Plain (p : Predicate) : Prop :=
  ∀ n, p.expr W.parse = some n → n.hasOpaque = false ∧
    ∀ ref ∈ n.refs, W.rowColumn (W.unicode.lower ref.1) → W.unicode.lower ref.1 ∉ restricted

theorem holds_visible (p : Predicate) (hplain : W.Plain restricted p) (hguard : restricted = [] ∨
      predicateNamesRestricted W.unicode W.parse p restricted = none) (db db' : Database V) (r : Record V) :
    W.holds db (W.row r) p = W.holds db' (W.row (visible restricted r)) p := by
  unfold holds
  rcases hexpr : p.expr W.parse with _ | n
  · rfl
  obtain ⟨hseen, hrow⟩ := hplain n hexpr
  have hreads : W.ReadsVisible restricted n := by
    refine ⟨subqueryTexts_of_plain n hseen, fun ref href => ?_⟩
    rcases hguard with rfl | hguard
    · exact not_mem_nil
    · simp only [predicateNamesRestricted, hexpr] at hguard
      unfold reads
      split
      next hfield => exact hrow ref href hfield
      next => exact refs_of_nodeNamesRestricted W.unicode n restricted hguard hseen ref href
  simp only [hreads.truth W db db' r]

end World

structure Policies where
  columns : String → List ColumnPolicy
  rowFilter : String → String
  restricts : ∀ t, ∀ p ∈ columns t, (p.denied || p.masks)
  masks_visible : ∀ t, ∀ p ∈ columns t, p.masks → ∀ n, W.parse p.maskExpr = some n →
    W.ReadsVisible (restrictedColumns W.unicode (columns t)) n

namespace Policies

variable {W} (P : Policies W) (t : String)

def restricted : List String := restrictedColumns W.unicode (P.columns t)

def lookup : PolicyLookup := fun table =>
  .ok (P.columns (W.unicode.lower table), P.rowFilter (W.unicode.lower table))

def passes (db : Database V) (r : Record V) : Bool :=
  if P.rowFilter t = "" then true
  else match W.parse (P.rowFilter t) with
    | none => true
    | some n => n.truth (W.engine db) (W.row r) = .true

def exposed (db : Database V) (t : String) : Multiset (Record V) :=
  Data.exposed (P.passes t db) (visible (P.restricted t)) (db t)

def Agree (db db' : Database V) : Prop := ∀ t, P.exposed db t = P.exposed db' t

-- Nothing that the policies hide can be told from it.
def Blind {α : Type} (f : Database V → α) : Prop := ∀ db db', P.Agree db db' → f db = f db'

def Noninterfering (plan : Plan) : Prop := P.Blind fun db => W.run db plan

def PlainFilters : Prop := ∀ t n, W.parse (P.rowFilter t) = some n → n.subqueryTexts = []

theorem passes_congr (h : P.PlainFilters) (db db' : Database V) : P.passes t db = P.passes t db' := by
  funext r
  unfold passes
  split
  · rfl
  · split
    · rfl
    next n hn =>
      have hagree : AgreeUnder (W.engine db) (W.engine db') n (W.row r) (W.row r) :=
        ⟨fun _ _ => rfl, by simp [h t n hn]⟩
      rw [hagree.truth (W.engine_alike db db')]

def IsRowFilter (p : Predicate) : Prop :=
  P.rowFilter t ≠ "" ∧ ∃ n, W.parse (P.rowFilter t) = some n ∧ p.expr W.parse = some n

theorem IsRowFilter.holds {t : String} {p : Predicate} (h : P.IsRowFilter t p) (db : Database V)
    (r : Record V) : W.holds db (W.row r) p = P.passes t db r := by
  obtain ⟨hne, n, hparse, hexpr⟩ := h
  simp [World.holds, hexpr, passes, hne, hparse]

-- A predicate below a barrier is the policy's own, or one that reads only
-- what the policy leaves.
def Allowed (p : Predicate × Bool) : Prop :=
  if p.2 then P.IsRowFilter t p.1
  else W.Plain (P.restricted t) p.1 ∧ (P.restricted t = [] ∨
    predicateNamesRestricted W.unicode W.parse p.1 (P.restricted t) = none)

theorem all_holds (ps : List (Predicate × Bool)) (h : ∀ p ∈ ps, P.Allowed t p) (db db' : Database V)
    (r : Record V) : (ps.all fun p => W.holds db (W.row r) p.1) = ((!ps.any (·.2) || P.passes t db r) &&
      ps.all fun p => p.2 || W.holds db' (W.row (visible (P.restricted t) r)) p.1) := by
  induction ps with
  | nil => simp
  | cons p ps ih =>
    have hp := h p mem_cons_self
    rw [all_cons, any_cons, all_cons, ih fun p hp => h p (mem_cons_of_mem _ hp)]
    unfold Allowed at hp
    split at hp
    next hown =>
      rw [IsRowFilter.holds P hp db r]
      simp only [hown, Bool.true_or]
      cases P.passes t db r <;> simp
    next hown =>
      rw [W.holds_visible _ p.1 hp.1 hp.2 db db' r]
      simp only [hown]
      cases W.holds db' (W.row (visible (P.restricted t) r)) p.1 <;> simp

variable (t : String)

theorem not_restricted_of_unmasked (folded : String)
    (hdeny : denies W.unicode (P.columns t) folded = false)
    (hmask : maskFor W.unicode (P.columns t) folded = none) : folded ∉ P.restricted t := by
  intro hmem
  obtain ⟨p, hp, rfl⟩ := mem_map.mp hmem
  rcases Bool.or_eq_true_iff.mp (P.restricts t p hp) with hdenied | hmasks
  · rw [denies, any_eq_false] at hdeny
    exact hdeny p hp (by simp [hdenied])
  · simp only [maskFor, Option.map_eq_none_iff, getLast?_eq_none_iff, filter_eq_nil_iff] at hmask
    exact hmask p hp (by simp [hmasks])

theorem mask_of_maskFor (folded mask : String)
    (h : maskFor W.unicode (P.columns t) folded = some mask) :
    ∃ p ∈ P.columns t, p.masks ∧ p.maskExpr = mask := by
  obtain ⟨p, hlast, rfl⟩ := Option.map_eq_some_iff.mp h
  have hp := mem_filter.mp (mem_of_getLast? hlast)
  exact ⟨p, hp.1, (Bool.and_eq_true_iff.mp hp.2).1, rfl⟩

theorem securityItem_visible (col : String) (item : Projection)
    (h : securityItem W.unicode W.parse (P.columns t) col = some item) (db db' : Database V) (r : Record V) :
    item.expr.eval (W.engine db) (W.row r) =
      item.expr.eval (W.engine db') (W.row (visible (P.restricted t) r)) := by
  unfold securityItem at h
  split at h
  · cases h
  next hdeny =>
    split at h
    next mask hmask =>
      obtain rfl := Option.some.inj h
      rcases hparse : W.parse mask with _ | n
      · rfl
      · obtain ⟨p, hp, hmasks, rfl⟩ := P.mask_of_maskFor t _ mask hmask
        exact (P.masks_visible t p hp hmasks n hparse).eval W db db' r
    next hmask =>
      obtain rfl := Option.some.inj h
      have hcol := P.not_restricted_of_unmasked t _ (by simpa using hdeny) hmask
      exact W.row_visible (P.restricted t) r ("", col) (by simpa [World.reads, W.rowColumn_empty] using hcol)

def items (cols : List String) : List Projection :=
  cols.filterMap (securityItem W.unicode W.parse (P.columns t))

theorem projected_visible (cols : List String) (db db' : Database V) (r : Record V) :
    W.projected db (P.items t cols) (W.row r) =
      W.projected db' (P.items t cols) (W.row (visible (P.restricted t) r)) := by
  unfold World.projected
  congr 1
  funext name
  rcases hfind : find? _ _ with _ | item
  · rfl
  · obtain ⟨col, _, hitem⟩ := mem_filterMap.mp (mem_of_find?_eq_some hfind)
    exact P.securityItem_visible t col item hitem db db' r

end Policies

end Wadjet.Logical.PlanPolicy
