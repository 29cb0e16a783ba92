import Wadjet.Logical.ScalarDecorrelate.Matching

namespace Wadjet.Logical.ScalarDecorrelate

open Wadjet.Sql Wadjet.Data List

section Value

variable {V : Type} (U : Unicode) (I : Interp V) (A : Aggregates V)

def arithmetic (n : Node) : Bool :=
  (n.walk (fun m => [m]) fun m => !isAggregate U m).all fun m => isAggregate U m ||
    match m with
    | .lit .. | .interval .. | .binaryOp .. | .unaryOp .. | .paren .. | .cast .. | .funcCall .. => true
    | _ => false

theorem arithmetic_child {n c : Node} (h : arithmetic U n) (hn : isAggregate U n = false)
    (hc : c ∈ n.children) : arithmetic U c := by
  unfold arithmetic at h ⊢
  rw [Node.walk_eq, hn] at h
  simp only [Bool.not_false, if_true, all_append, Bool.and_eq_true, all_flatMap,
    all_eq_true] at h ⊢
  exact h.2 c hc

theorem mem_findAllAggregates_child {n c m : Node} (hn : isAggregate U n = false)
    (hi : aggInto n) (hc : c ∈ n.children) (hm : m ∈ findAllAggregates U c) :
    m ∈ findAllAggregates U n := by
  unfold findAllAggregates at hm ⊢
  rw [Node.walk_eq, hn, hi]
  exact mem_append_right _ (mem_flatMap.mpr ⟨c, hc, hm⟩)

theorem isAggregate_of_mem {n m : Node} (hm : m ∈ findAllAggregates U n) : isAggregate U m := by
  obtain ⟨k, hk⟩ := Node.exists_leaf_of_mem_walk _ _ hm
  unfold aggregateLeaf at hk
  split at hk
  next h =>
    obtain rfl := mem_singleton.mp hk
    exact h
  next => cases hk

theorem eval_replaceAggregate (sql : String) (answer : Row V → List (Option V)) (slot : String)
    (v : Option V) (ρ₁ ρ₂ : Row V) (hslot : ρ₂ "" slot = v) (n : Node) (hn : arithmetic U n)
    (hagg : ∀ m ∈ findAllAggregates U n, ρ₁ aggTable (m.text U) = v) :
    (replaceAllAggregates U n).eval I ρ₁ =
        (replaceAggregate U slot n).eval (answering I sql answer) ρ₂ ∧
      (replaceAggregate U slot n).evalTuple (answering I sql answer) ρ₂ = none := by
  induction n using Node.induct_children with
  | step n ih =>
    unfold replaceAllAggregates replaceAggregate at ih ⊢
    rw [Node.rewrite_eq, Node.rewrite_eq]
    rcases ha : isAggregate U n with _ | _
    · have hkind : arithmetic U n := hn
      unfold arithmetic at hkind
      rw [Node.walk_eq] at hkind
      simp only [singleton_append, all_cons, Bool.and_eq_true] at hkind
      have ihc := fun c (hi : aggInto n) hc => ih c hc (arithmetic_child U hn ha hc)
        fun m hm => hagg m (mem_findAllAggregates_child U ha hi hc hm)
      have hlist := fun (hi : aggInto n) (cs : List Node) (hcs : ∀ c ∈ cs, c ∈ n.children) =>
        map_congr_left fun c hc => (ihc c hi (hcs c hc)).1
      simp only [Bool.false_eq_true, if_false, Option.getD_none]
      cases n with
      | lit | interval => exact ⟨rfl, rfl⟩
      | binaryOp l op r =>
        have hl := ihc l rfl (by simp)
        have hr := ihc r rfl (by simp)
        exact ⟨by simp only [Node.mapChildren, slotInto, if_true, Node.eval, hl.1, hr.1]; rfl, rfl⟩
      | unaryOp op e =>
        have he := ihc e rfl (by simp)
        exact ⟨by simp only [Node.mapChildren, slotInto, if_true, Node.eval, he.1]; rfl, rfl⟩
      | paren e =>
        have he := ihc e rfl (by simp)
        exact ⟨by simp only [Node.mapChildren, slotInto, if_true, Node.eval, he.1], he.2⟩
      | cast e typeName column =>
        have he := ihc e rfl (by simp)
        exact ⟨by simp only [Node.mapChildren, slotInto, if_true, Node.eval, he.1]; rfl, rfl⟩
      | funcCall name args distinct starred label =>
        have hargs := hlist rfl args fun _ hc => hc
        refine ⟨?_, rfl⟩
        simp only [Node.mapChildren, slotInto, if_true, Node.eval, Node.evals_eq_map, map_map]
        exact congrArg (I.func name distinct starred) hargs
      | _ => cases hkind.1
    · have hself : n ∈ findAllAggregates U n := by
        unfold findAllAggregates
        rw [Node.walk_eq]
        simp [aggregateLeaf, ha]
      exact ⟨by simp [Node.eval, hagg n hself, hslot], rfl⟩

theorem value_strip (S : Scope) (a : AggExpr) (hinput : ∀ e ∈ a.input, ReadsInner U I S e) (ρ : Row V)
    (ts : List (Tuple V)) :
    A.value I a (ts.map (bodyRow U S ρ)) = A.value I a.strip (ts.map innerRow) := by
  have hvalues : ∀ t, (a.input.map (Node.eval I (bodyRow U S ρ t))).join =
      ((a.input.map stripTableQualifiers).map (Node.eval I (innerRow t))).join := by
    intro t
    cases h : a.input with
    | none => rfl
    | some e => simpa using hinput e h ρ t
  obtain ⟨func, input, distinct⟩ := a
  unfold Aggregates.value AggExpr.strip
  cases func <;> cases input <;> simp_all [filterMap_map]

theorem value_nil (a : AggExpr) (h : a.func ≠ .count) : A.value I a [] = none := by
  obtain ⟨func, input, distinct⟩ := a
  unfold Aggregates.value
  cases func <;> cases distinct <;> simp_all [A.reduce_nil, A.dedup_nil]

theorem eval_unwrapSubquery (n : Node) (sql : String) (h : unwrapSubquery n = some sql) (ρ : Row V) :
    n.eval I ρ = scalarRow (I.subqueryRows ρ sql) ∧ n.evalTuple I ρ = none := by
  fun_induction unwrapSubquery n with
  | case1 s => cases h
  | case2 s array hnot =>
    simp_all [Node.eval, Node.evalTuple]
  | case3 inner ih => exact ih h
  | case4 => cases h

theorem truth_replaceSubqueryInExpr (pred replacement : Node) (sql : String) (ρ ρ' : Row V)
    (hfind : findScalarSubqueryComparison pred = some sql) (hagree : AgreeOn I pred ρ ρ')
    (hvalue : replacement.eval I ρ' = scalarRow (I.subqueryRows ρ sql))
    (htuple : replacement.evalTuple I ρ' = none) :
    (replaceSubqueryInExpr replacement pred).truth I ρ' = pred.truth I ρ := by
  fun_induction findScalarSubqueryComparison pred with
  | case1 left op right =>
    have hl := (hagree.child (c := left) (by simp)).same (.refl I)
    have hr := (hagree.child (c := right) (by simp)).same (.refl I)
    rw [replaceSubqueryInExpr]
    cases hs : unwrapSubquery right with
    | some s =>
      obtain rfl : s = sql := by simpa [hs] using hfind
      obtain ⟨hval, htup⟩ := eval_unwrapSubquery I right s hs ρ
      simp [Node.truth, Node.eval, hl.eval, hl.tuple, hvalue, htuple, hval, htup]
    | none =>
      have hleft : unwrapSubquery left = some sql := by simpa [hs] using hfind
      obtain ⟨hval, htup⟩ := eval_unwrapSubquery I left sql hleft ρ
      simp [Node.truth, Node.eval, hr.eval, hr.tuple, hvalue, htuple, hval, htup]
  | case2 inner ih =>
    exact ih hfind (hagree.child (by simp))
  | case3 => cases hfind

end Value

section Main

variable {V : Type} (U : Unicode) (I : Interp V) (A : Aggregates V) (S : Scope)

-- The values that the WHERE's equalities of columns compare.
def Compared (info : SelectInfo) (outer : List (Row V)) (inner : List (Tuple V)) (v : V) : Prop :=
  ∃ lt lc rt rc, .cmp (.colRef lt lc) .eq (.colRef rt rc) ∈ flattenASTNodes info.whereExpr ∧
    ∃ ρ ∈ outer, ∃ t ∈ inner, bodyRow U S ρ t lt lc = some v ∨ bodyRow U S ρ t rt rc = some v

-- What the rewrite carries over. Beyond these it drops a clause, puts one
-- aggregate's value in another's place, reads a condition on two inner columns
-- as a join key, gives an unmatched outer row NULL for COUNT's zero, or joins
-- one outer row with several groups.
structure Carried (info : SelectInfo) (outer : List (Row V)) (inner : List (Tuple V)) : Prop where
  noGrouping : info.groupByExprs = [] ∧ info.havingExpr = none
  noBound : info.limit ≠ some 0 ∧ (info.offset = none ∨ info.offset = some 0)
  arithmetic : arithmetic U info.column
  oneAggregate : ∀ m ∈ findAllAggregates U info.column, ∀ m' ∈ findAllAggregates U info.column,
    ∀ a ∈ aggOf U m, ∀ a' ∈ aggOf U m', a.strip = a'.strip
  inputs : ∀ m ∈ findAllAggregates U info.column, ∀ a ∈ aggOf U m, ∀ e ∈ a.input, ReadsInner U I S e
  keys : ∀ n ∈ flattenASTNodes info.whereExpr,
    refsOuterColumn U (outerRefCols U S info.whereExpr) n → CrossEquality U S n
  filters : ∀ n ∈ flattenASTNodes info.whereExpr,
    ¬refsOuterColumn U (outerRefCols U S info.whereExpr) n → ReadsInner U I S n
  counted : (∃ m ∈ findAllAggregates U info.column, ∃ a ∈ aggOf U m, a.func = .count) →
    ∀ ρ ∈ outer, ∃ t ∈ inner, info.whereExpr.truth I (bodyRow U S ρ t) = .true
  transitive : ∀ a b c, Compared U S info outer inner a → Compared U S info outer inner b →
    Compared U S info outer inner c → I.compare .eq a b = .true → I.compare .eq b c = .true →
      I.compare .eq a c = .true

-- The slot's name is free: neither the comparison nor a subquery in it reads
-- a column of that name.
structure SlotFree (pred : Node) (sql slot : String) : Prop where
  unread : ("", slot) ∉ pred.refs
  notOuter : S.isOuter U "" slot = false
  others : ∀ s ∈ pred.subqueryTexts, s ≠ sql → ∀ ρ v, I.subqueryRows ρ s = I.subqueryRows (slotted slot ρ v) s

theorem tryDecorrelate_parts (bodies : String → Option SelectInfo) (pred : Node) (idx : Nat)
    (d : Decorrelated) (h : tryDecorrelateScalarSubquery U S bodies pred idx = some d) :
    ∃ sql info innerOnly, findScalarSubqueryComparison pred = some sql ∧ bodies sql = some info ∧
      classify U S (outerRefCols U S info.whereExpr) (flattenASTNodes info.whereExpr) =
        some (d.keys, innerOnly) ∧
      d.innerFilter = innerOnly.map stripTableQualifiers ∧
      (∃ m ∈ findAllAggregates U info.column, ∃ a ∈ aggOf U m, d.agg = a.strip) ∧ d.slot = slotName idx ∧
      d.pred = replaceSubqueryInExpr (replaceAggregate U d.slot info.column) pred := by
  unfold tryDecorrelateScalarSubquery at h
  simp only [Option.bind_eq_bind, Option.bind_eq_some_iff] at h
  obtain ⟨sql, hsql, info, hinfo, h⟩ := h
  split at h
  · cases h
  · simp only [Option.bind_eq_some_iff, Prod.exists] at h
    obtain ⟨keys, innerOnly, hclass, h⟩ := h
    split at h
    · cases h
    · simp only [Option.bind_eq_some_iff, Option.some.injEq] at h
      obtain ⟨call, hcall, agg, hagg, rfl⟩ := h
      exact ⟨sql, info, innerOnly, hsql, hinfo, hclass, rfl, ⟨call, mem_of_head? hcall, agg, hagg, rfl⟩, rfl, rfl⟩

variable (info : SelectInfo) (d : Decorrelated) (innerOnly : List Node)

section Rows

variable
    (hclass : classify U S (outerRefCols U S info.whereExpr) (flattenASTNodes info.whereExpr) =
      some (d.keys, innerOnly))
    (hfilter : d.innerFilter = innerOnly.map stripTableQualifiers) (outer : List (Row V))
    (inner : List (Tuple V)) (hc : Carried U I S info outer inner) (ρ : Row V)

include hclass hc

-- A key's values are compared by the WHERE, for an outer row and a body row.
theorem key_compared (hρ : ρ ∈ outer) (k : DecorrelatedKey) (hk : k ∈ d.keys) (t : Tuple V) (ht : t ∈ inner) :
    (∀ v, Decorrelated.outerKey U S ρ k = some v → Compared U S info outer inner v) ∧
      ∀ v, t k.innerCol = some v → Compared U S info outer inner v := by
  obtain ⟨n, hn, houter, hkey⟩ := (classify_parts U S _ _ _ _ hclass).1 k hk
  obtain ⟨lt, lc, rt, rc, rfl, hsides⟩ :=
    correlationKey_sides (V := V) U S _ n k hkey (hc.keys n hn houter)
  have hmem := fun v hv => (⟨lt, lc, rt, rc, hn, ρ, hρ, t, ht, hv⟩ : Compared U S info outer inner v)
  rcases hsides ρ t with ⟨hleft, hright⟩ | ⟨hright, hleft⟩ <;> rw [hleft, hright]
  · exact ⟨fun v hv => hmem v (Or.inl hv), fun v hv => hmem v (Or.inr hv)⟩
  · exact ⟨fun v hv => hmem v (Or.inr hv), fun v hv => hmem v (Or.inl hv)⟩

-- The body rows with one key value equal the outer row's together.
theorem sameKey_iff (hρ : ρ ∈ outer) {k : DecorrelatedKey} (hk : k ∈ d.keys) {s t : Tuple V}
    (hs : s ∈ inner) (ht : t ∈ inner)
    (heq : I.cmpNull .eq (Decorrelated.outerKey U S ρ k) (s k.innerCol) = .true) :
    sameKey I (s k.innerCol) (t k.innerCol) ↔
      I.cmpNull .eq (Decorrelated.outerKey U S ρ k) (t k.innerCol) = .true := by
  obtain ⟨hown, hleft⟩ := key_compared U I S info d innerOnly hclass outer inner hc ρ hρ k hk s hs
  have hright := (key_compared U I S info d innerOnly hclass outer inner hc ρ hρ k hk t ht).2
  revert hown hleft hright heq
  cases Decorrelated.outerKey U S ρ k with
  | none => intro heq; cases heq
  | some o =>
    cases s k.innerCol with
    | none => intro heq; cases heq
    | some a =>
      intro heq hown hleft hright
      cases htk : t k.innerCol with
      | none => simp [sameKey, Interp.cmpNull]
      | some b =>
        have hsame : sameKey I (some a) (some b) ↔ I.compare .eq a b = .true := by
          simp [sameKey, Interp.same]
        have hb := hright b htk
        rw [hsame]
        exact ⟨hc.transitive o a b (hown o rfl) (hleft a rfl) hb heq,
          hc.transitive a o b (hleft a rfl) (hown o rfl) hb (I.compare_eq_comm o a heq)⟩

theorem onKeys_selects (hρ : ρ ∈ outer) :
    Selects (d.sameGroup I) (d.onKeys U I S ρ) (d.filtered I inner) := by
  have hin : ∀ t ∈ d.filtered I inner, t ∈ inner := fun t ht => (mem_filter.mp ht).1
  have hsame {s t : Tuple V} (hs : s ∈ d.filtered I inner) (ht : t ∈ d.filtered I inner)
      {k : DecorrelatedKey} (hk : k ∈ d.keys) :=
    sameKey_iff U I S info d innerOnly hclass outer inner hc ρ hρ hk (hin s hs) (hin t ht)
  constructor
  · intro s hs t ht hons hont
    simp only [Decorrelated.onKeys, Decorrelated.sameGroup, all_eq_true, decide_eq_true_eq] at hons hont ⊢
    exact fun k hk => (hsame hs ht hk (hons k hk)).mpr (hont k hk)
  · intro s hs t ht hons hst
    simp only [Decorrelated.onKeys, Decorrelated.sameGroup, all_eq_true, decide_eq_true_eq] at hons hst ⊢
    exact fun k hk => (hsame hs ht hk (hons k hk)).mp (hst k hk)

include hfilter

theorem matching_eq_where :
    (inner.map (bodyRow U S ρ)).filter (fun r => info.whereExpr.truth I r = .true) =
      (d.matching U I S inner ρ).map (bodyRow U S ρ) := by
  rw [filter_map, Decorrelated.matching, Decorrelated.filtered, filter_filter]
  congr 1
  refine filter_congr fun t _ => ?_
  have hspec := classify_spec U I S _ _ _ _ hclass hc.keys ρ t
  have hinner : AllTrue I (bodyRow U S ρ t) innerOnly ↔
      ∀ n ∈ d.innerFilter, n.truth I (innerRow t) = .true := by
    rw [hfilter, forall_mem_map]
    refine forall₂_congr fun n hn => ?_
    obtain ⟨hmem, hnot⟩ := (classify_parts U S _ _ _ _ hclass).2 n hn
    rw [Node.truth, Node.truth, hc.filters n hmem hnot ρ t]
  rw [Bool.eq_iff_iff]
  simp only [Function.comp_apply, decide_eq_true_eq, Bool.and_eq_true, Decorrelated.onKeys,
    all_eq_true]
  rw [truth_flattenASTNodes, hspec, hinner]

variable (hagg : ∃ m ∈ findAllAggregates U info.column, ∃ a ∈ aggOf U m, d.agg = a.strip)

include hagg

theorem slotValue_eq (hρ : ρ ∈ outer) :
    d.slotValue U I A S inner ρ = A.value I d.agg ((d.matching U I S inner ρ).map innerRow) := by
  have hrows := matching_eq_where U I S info d innerOnly hclass hfilter outer inner hc ρ
  unfold Decorrelated.slotValue
  split
  next hempty =>
    have hnil : d.matching U I S inner ρ = [] := by simpa using hempty
    have hcount : d.agg.func ≠ .count := by
      obtain ⟨m, hm, a, ha, heq⟩ := hagg
      intro hfunc
      rw [heq] at hfunc
      obtain ⟨t, ht, htrue⟩ := hc.counted ⟨m, hm, a, ha, hfunc⟩ ρ hρ
      have hmem : bodyRow U S ρ t ∈
          (inner.map (bodyRow U S ρ)).filter fun r => info.whereExpr.truth I r = .true :=
        mem_filter.mpr ⟨mem_map_of_mem ht, by simpa using htrue⟩
      rw [hrows, hnil] at hmem
      cases hmem
    rw [hnil, map_nil, value_nil I A d.agg hcount]
  next => rfl

theorem bodyRows_of_carried (hρ : ρ ∈ outer) (sql : String) (answer : Row V → List (Option V)) :
    scalarRow (bodyRows U I A S info inner ρ) =
        (replaceAggregate U d.slot info.column).eval (answering I sql answer)
          (slotted d.slot ρ (d.slotValue U I A S inner ρ)) ∧
      (replaceAggregate U d.slot info.column).evalTuple (answering I sql answer)
          (slotted d.slot ρ (d.slotValue U I A S inner ρ)) = none := by
  have hrows := matching_eq_where U I S info d innerOnly hclass hfilter outer inner hc ρ
  have hvalue := slotValue_eq U I A S info d innerOnly hclass hfilter outer inner hc ρ hagg hρ
  have hslots : ∀ m ∈ findAllAggregates U info.column,
      groupRow U I A info.column ((d.matching U I S inner ρ).map (bodyRow U S ρ)) aggTable (m.text U) =
        d.slotValue U I A S inner ρ := by
    intro m hm
    obtain ⟨m', hfind⟩ : ∃ m', (findAllAggregates U info.column).find? (·.text U = m.text U) = some m' := by
      rw [← Option.isSome_iff_exists, find?_isSome]
      exact ⟨m, hm, by simp⟩
    have hm' := mem_of_find?_eq_some hfind
    obtain ⟨a, ha⟩ := Option.isSome_iff_exists.mp (isAggregate_of_mem U hm')
    obtain ⟨m₀, hm₀, a₀, ha₀, heq⟩ := hagg
    rw [hvalue, heq, ← hc.oneAggregate m' hm' m₀ hm₀ a ha a₀ ha₀,
      ← value_strip U I A S a (hc.inputs m' hm' a ha) ρ]
    simp [groupRow, hfind, ha]
  have hbody : bodyRows U I A S info inner ρ =
      [overGroup U I A info.column ((d.matching U I S inner ρ).map (bodyRow U S ρ))] := by
    obtain ⟨hgroup, hhaving⟩ := hc.noGrouping
    obtain ⟨hlimit, hoffset⟩ := hc.noBound
    have hzero : info.offset.getD 0 = 0 := by rcases hoffset with h | h <;> simp [h]
    simp only [bodyRows, hgroup, hhaving, hrows, hzero, isEmpty_nil, if_true, drop_zero]
    rcases hl : info.limit with _ | _ | n
    · rfl
    · exact absurd hl hlimit
    · simp
  have heval := eval_replaceAggregate U I sql answer d.slot _ _
    (slotted d.slot ρ (d.slotValue U I A S inner ρ)) (by simp [slotted]) info.column
    hc.arithmetic hslots
  rw [hbody]
  exact heval

end Rows

variable {slot : String}

-- The reserved slot is no column of the enclosing query, so the body cannot
-- see what it holds.
theorem bodyRow_slotted (hslot : S.isOuter U "" slot = false) (ρ : Row V)
    (v : Option V) (t : Tuple V) : bodyRow U S (slotted slot ρ v) t = bodyRow U S ρ t := by
  funext table column
  unfold bodyRow
  split
  next h =>
    have hne : ¬(table = "" ∧ column = slot) := by
      rintro ⟨rfl, rfl⟩
      rw [hslot] at h
      cases h
    simp [slotted, hne]
  next => rfl

theorem SlotFree.agree {pred : Node} {sql : String} (hfree : SlotFree U I S pred sql slot) (inner : List (Tuple V))
    (ρ : Row V) (v : Option V) :
    AgreeOn (answering I sql (bodyRows U I A S info inner)) pred ρ (slotted slot ρ v) where
  refs r hr := by
    have hne : ¬(r.1 = "" ∧ r.2 = slot) := fun ⟨h₁, h₂⟩ => hfree.unread (by rwa [← h₁, ← h₂])
    simp [slotted, hne]
  subqueries s hs := by
    have hbody : bodyRows U I A S info inner (slotted slot ρ v) = bodyRows U I A S info inner ρ := by
      unfold bodyRows
      rw [funext (bodyRow_slotted U S hfree.notOuter ρ v)]
    simp only [answering, hbody]
    split
    · rfl
    next hne => exact hfree.others s hs hne ρ v

end Main

def Aggregates.nat : Aggregates Nat where
  ofNat n := n
  reduce func vs :=
    if vs.isEmpty then none
    else match func with
      | .count => some vs.length
      | .sum => some vs.sum
      | .min => vs.min?
      | .max => vs.max?
      | .avg => some (vs.sum / vs.length)
  reduce_nil _ := rfl
  dedup := List.dedup
  dedup_nil := rfl

private def zScope : Scope where
  outerTables := ["o"]
  outerCols := ["id"]
  innerTables := ["z"]
  innerCols := ["k", "v", "id", "w"]

private def call (name column : String) : Node := .funcCall name [.colRef "z" column] false false ""

private def countStar : Node := .funcCall "count" [] false true ""

private def onKey : Node := .cmp (.colRef "z" "k") .eq (.colRef "o" "id")

-- The query `n = (SELECT ... FROM z WHERE z.k = o.id ...)` over one outer row
-- with id 1 and the given inner rows.
private def equalsBody (n : String) : Node := .cmp (.lit n .number) .eq (.subquery "q" false)

private def outerOne : Row Nat := fun _ column => if column = "id" then some 1 else none

private def zRow (k v id w : Nat) : Tuple Nat := fun column =>
  if column = "k" then some k else if column = "v" then some v
  else if column = "id" then some id else if column = "w" then some w else none

-- COUNT over no row; two aggregates; HAVING, GROUP BY and LIMIT that decide
-- the rows; a condition on two inner columns, one named like the outer key.
def notCarried : List (String × SelectInfo × List (Tuple Nat)) :=
  [("0", ⟨countStar, onKey, [], none, none, none⟩, []),
    ("1", ⟨.binaryOp (call "max" "v") .sub (call "min" "v"), onKey, [], none, none, none⟩,
      [zRow 1 2 0 0, zRow 1 1 0 0]),
    ("1", ⟨countStar, onKey, [], some (.cmp countStar .gt (.lit "5" .number)), none, none⟩,
      [zRow 1 1 0 0]),
    ("2", ⟨call "max" "v", onKey, [.colRef "z" "v"], none, none, none⟩, [zRow 1 2 0 0, zRow 1 1 0 0]),
    ("1", ⟨countStar, onKey, [], none, some 0, none⟩, [zRow 1 1 0 0]),
    ("1", ⟨countStar, .and onKey (.cmp (.colRef "z" "id") .eq (.colRef "z" "w")), [], none, none, none⟩,
      [zRow 1 1 5 5])]

private def queryInterp (info : SelectInfo) (inner : List (Tuple Nat)) : Interp Nat :=
  answering Interp.nat "q" (bodyRows Unicode.ascii Interp.nat Aggregates.nat zScope info inner)

-- `2 = (SELECT MAX(z.v) FROM z WHERE z.k = o.id AND z.w = 3)`.
private def carriedInfo : SelectInfo :=
  ⟨call "max" "v", .and onKey (.cmp (.colRef "z" "w") .eq (.lit "3" .number)), [], none, none, none⟩

private def carriedPlan : Decorrelated where
  keys := [⟨"o", "id", "k"⟩]
  innerFilter := [.cmp (.colRef "" "w") .eq (.lit "3" .number)]
  agg := ⟨.max, some (.colRef "" "v"), false⟩
  slot := "__scalar_0"
  pred := .cmp (.lit "2" .number) .eq (.colRef "" "__scalar_0")

private theorem carriedInfo_carried (outer : List (Row Nat)) (inner : List (Tuple Nat)) :
    Carried Unicode.ascii Interp.nat zScope carriedInfo outer inner where
  noGrouping := ⟨rfl, rfl⟩
  noBound := ⟨by decide, Or.inl rfl⟩
  arithmetic := by decide
  oneAggregate m hm m' hm' a ha a' ha' := by
    obtain rfl : m = call "max" "v" := mem_singleton.mp hm
    obtain rfl : m' = call "max" "v" := mem_singleton.mp hm'
    rw [Option.mem_unique ha ha']
  inputs m hm a ha e he := by
    obtain rfl : m = call "max" "v" := mem_singleton.mp hm
    obtain rfl := Option.some.inj ha
    obtain rfl := Option.some.inj he
    exact readsInner_of_refs _ _ _ _ (by decide) rfl
  keys n hn _ := by
    rcases mem_cons.mp hn with rfl | hn
    · rintro lt lc rt rc ⟨⟩
      decide
    · obtain rfl := mem_singleton.mp hn
      rintro lt lc rt rc ⟨⟩
  filters n hn hnot := by
    rcases mem_cons.mp hn with rfl | hn
    · exact absurd (by decide) hnot
    · obtain rfl := mem_singleton.mp hn
      exact readsInner_of_refs _ _ _ _ (by decide) rfl
  counted := by
    rintro ⟨m, hm, a, ha, hfunc⟩
    obtain rfl : m = call "max" "v" := mem_singleton.mp hm
    obtain rfl := Option.some.inj ha
    cases hfunc
  transitive a b c _ _ _ hab hbc := by
    simp only [Interp.nat, Interp.plain, Truth.ofBool_eq_true, decide_eq_true_eq] at hab hbc ⊢
    exact hab.trans hbc

end Wadjet.Logical.ScalarDecorrelate
