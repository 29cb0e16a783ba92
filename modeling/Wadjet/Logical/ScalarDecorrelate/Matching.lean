import Wadjet.Logical.ScalarDecorrelate.Model

namespace Wadjet.Logical.ScalarDecorrelate

open Wadjet.Sql Wadjet.Data List

section Join

variable {V : Type} (U : Unicode) (I : Interp V) (A : Aggregates V) (S : Scope) (d : Decorrelated)

namespace Decorrelated

variable (inner : List (Tuple V))

def matching (ρ : Row V) : List (Tuple V) :=
  (d.filtered I inner).filter (d.onKeys U I S ρ)

def slotValue (ρ : Row V) : Option V :=
  if (d.matching U I S inner ρ).isEmpty then none
  else A.value I d.agg ((d.matching U I S inner ρ).map innerRow)

theorem leftRow_aggregated (ρ : Row V) (hselects : Selects (d.sameGroup I) (d.onKeys U I S ρ) (d.filtered I inner)) :
    ∃ g : Option (Tuple V × Option V), g.bind (·.2) = d.slotValue U I A S inner ρ ∧
      leftRow (fun ρ g => d.onKeys U I S ρ g.1) (d.aggregated I A inner) ρ = [(some ρ, g)] := by
  have hfilter : (d.aggregated I A inner).filter (fun g => d.onKeys U I S ρ g.1) =
      ((groups (d.sameGroup I) id (d.filtered I inner)).filter fun g => d.onKeys U I S ρ g.1).map
        fun g => (g.1, A.value I d.agg (g.2.map innerRow)) := by
    rw [aggregated, filter_map]
    rfl
  have hselect := Selects.filter_groups id (d.filtered I inner) (by rwa [map_id])
  rcases hselect with ⟨hnone, hgroups⟩ | ⟨hsome, k, hgroups⟩
  · refine ⟨none, ?_, ?_⟩
    · have hm : d.matching U I S inner ρ = [] := hnone
      simp [slotValue, hm]
    · rw [hgroups] at hfilter
      have hany : (d.aggregated I A inner).any (fun g => d.onKeys U I S ρ g.1) = false := by
        rw [any_eq_false]
        exact filter_eq_nil_iff.mp hfilter
      simp [leftRow, hany]
  · refine ⟨some (k, A.value I d.agg ((d.matching U I S inner ρ).map innerRow)), ?_, ?_⟩
    · have hm : d.matching U I S inner ρ ≠ [] := hsome
      simp [slotValue, hm]
    · rw [hgroups] at hfilter
      have hany : (d.aggregated I A inner).any (fun g => d.onKeys U I S ρ g.1) := by
        rw [any_eq_true]
        have hmem : (k, A.value I d.agg (((d.filtered I inner).filter fun t =>
            d.onKeys U I S ρ (id t)).map innerRow)) ∈
              (d.aggregated I A inner).filter fun g => d.onKeys U I S ρ g.1 := by
          simp [hfilter]
        exact ⟨_, mem_filter.mp hmem⟩
      rw [leftRow, if_pos hany, hfilter]
      rfl

theorem rows_perm (J : Interp V) (outer : List (Row V)) (inner : List (Tuple V))
    (hselects : ∀ ρ ∈ outer, Selects (d.sameGroup I) (d.onKeys U I S ρ) (d.filtered I inner)) :
    (d.rows U I A S J outer inner).Perm
      (outer.filter fun ρ => d.pred.truth J (slotted d.slot ρ (d.slotValue U I A S inner ρ)) = .true) := by
  choose! g hslot hrow using fun ρ hρ => d.leftRow_aggregated U I A S inner ρ (hselects ρ hρ)
  have hmap : outer.flatMap (leftRow (fun ρ g => d.onKeys U I S ρ g.1) (d.aggregated I A inner)) =
      outer.map fun ρ => (some ρ, g ρ) := by
    rw [flatMap_congr fun ρ hρ => hrow ρ hρ]
    exact flatMap_pure_eq_map _ outer
  have hperm := join_left_perm (fun ρ g => d.onKeys U I S ρ g.1) outer (d.aggregated I A inner)
  rw [hmap] at hperm
  refine ((hperm.filter _).filterMap _).trans (List.Perm.of_eq ?_)
  rw [filter_map, filterMap_map]
  simp only [Function.comp_def, filterMap_some]
  exact filter_congr fun ρ hρ => by rw [hslot ρ hρ]

end Decorrelated

end Join

variable {V : Type} (U : Unicode) (I : Interp V) (S : Scope) (ρ : Row V) (n : Node)

theorem truth_flattenASTNodes : n.truth I ρ = .true ↔ AllTrue I ρ (flattenASTNodes n) := by
  fun_induction flattenASTNodes n with
  | case1 l r ihl ihr => rw [Node.truth_and, Truth.and_eq_true, ihl, ihr, allTrue_append]
  | case2 n h => simp

def CrossEquality (n : Node) : Prop :=
  ∀ lt lc rt rc, n = .cmp (.colRef lt lc) .eq (.colRef rt rc) →
    S.isOuter U lt lc ≠ S.isOuter U rt rc

theorem outerKey_of_isOuter (k : DecorrelatedKey) (h : S.isOuter U k.outerQualifier k.outerColumn) :
    Decorrelated.outerKey U S ρ k = ρ k.outerQualifier k.outerColumn := by
  unfold Decorrelated.outerKey
  unfold Scope.isOuter at h
  split at h
  next hq =>
    rw [hq]
    split <;> rfl
  next hq =>
    rw [Bool.and_eq_true] at h
    rw [if_pos h.1]

variable (cols : List String)

-- A key's two sides are the two columns its conjunct compares.
theorem correlationKey_sides (n : Node) (k : DecorrelatedKey) (hk : correlationKey U S cols n = some k)
    (hcross : CrossEquality U S n) :
    ∃ lt lc rt rc, n = .cmp (.colRef lt lc) .eq (.colRef rt rc) ∧ ∀ (ρ : Row V) (t : Tuple V),
      Decorrelated.outerKey U S ρ k = bodyRow U S ρ t lt lc ∧ t k.innerCol = bodyRow U S ρ t rt rc ∨
      Decorrelated.outerKey U S ρ k = bodyRow U S ρ t rt rc ∧ t k.innerCol = bodyRow U S ρ t lt lc := by
  unfold correlationKey at hk
  split at hk
  next lt lc rt rc =>
    refine ⟨lt, lc, rt, rc, rfl, fun ρ t => ?_⟩
    split at hk
    · cases hk
    · have hside := hcross lt lc rt rc rfl
      rcases hl : S.isOuter U lt lc with _ | _ <;> rcases hr : S.isOuter U rt rc with _ | _
      · exact absurd (hl.trans hr.symm) hside
      · simp only [hl, hr, Bool.not_true, Bool.and_false, Bool.false_eq_true, if_false, Bool.not_false,
          Bool.and_true, if_true, Option.some.injEq] at hk
        subst hk
        rw [outerKey_of_isOuter U S ρ _ hr]
        simp [bodyRow, hl, hr]
      · simp only [hl, hr, Bool.not_false, Bool.and_true, if_true, Option.some.injEq] at hk
        subst hk
        rw [outerKey_of_isOuter U S ρ _ hl]
        simp [bodyRow, hl, hr]
      · exact absurd (hl.trans hr.symm) hside
  next => cases hk

theorem truth_correlationKey (n : Node) (k : DecorrelatedKey)
    (hk : correlationKey U S cols n = some k) (hcross : CrossEquality U S n) (ρ : Row V) (t : Tuple V) :
    n.truth I (bodyRow U S ρ t) = .true ↔
      I.cmpNull .eq (Decorrelated.outerKey U S ρ k) (t k.innerCol) = .true := by
  obtain ⟨lt, lc, rt, rc, rfl, hsides⟩ := correlationKey_sides U S cols n k hk hcross
  have htruth : (Node.cmp (.colRef lt lc) .eq (.colRef rt rc)).truth I (bodyRow U S ρ t) =
      I.cmpNull .eq (bodyRow U S ρ t lt lc) (bodyRow U S ρ t rt rc) := by
    simp [Node.truth, Node.eval, Node.evalTuple, Interp.compareOp]
  rcases hsides ρ t with ⟨houter, hinner⟩ | ⟨houter, hinner⟩ <;> rw [htruth, houter, hinner]
  exact ⟨I.cmpNull_eq_comm _ _, I.cmpNull_eq_comm _ _⟩

theorem classify_spec (ns : List Node) (keys : List DecorrelatedKey)
    (inner : List Node) (h : classify U S cols ns = some (keys, inner))
    (hcross : ∀ n ∈ ns, refsOuterColumn U cols n → CrossEquality U S n) (ρ : Row V) (t : Tuple V) :
    AllTrue I (bodyRow U S ρ t) ns ↔
      (∀ k ∈ keys, I.cmpNull .eq (Decorrelated.outerKey U S ρ k) (t k.innerCol) = .true) ∧
        AllTrue I (bodyRow U S ρ t) inner := by
  induction ns generalizing keys inner with
  | nil =>
    obtain ⟨rfl, rfl⟩ := Prod.mk.inj (Option.some.inj h)
    simp
  | cons n ns ih =>
    have hrest : ∀ m ∈ ns, refsOuterColumn U cols m → CrossEquality U S m :=
      fun m hm => hcross m (mem_cons_of_mem n hm)
    rw [classify] at h
    split at h
    · cases h
    · split at h
      next hn =>
        split at h
        next key keys' inner' hkey hclass =>
          obtain ⟨rfl, rfl⟩ := Prod.mk.inj (Option.some.inj h)
          rw [allTrue_cons, forall_mem_cons, and_assoc, ih keys' inner' hclass hrest,
            truth_correlationKey U I S cols n key hkey (hcross n mem_cons_self hn) ρ t]
        next => cases h
      next hn =>
        split at h
        next keys' inner' hclass =>
          obtain ⟨rfl, rfl⟩ := Prod.mk.inj (Option.some.inj h)
          rw [allTrue_cons, allTrue_cons, ih keys' inner' hclass hrest]
          exact and_left_comm
        next => cases h

-- Where the two parts of the WHERE come from.
theorem classify_parts (ns : List Node) (keys : List DecorrelatedKey) (inner : List Node)
    (h : classify U S cols ns = some (keys, inner)) :
    (∀ k ∈ keys, ∃ n ∈ ns, refsOuterColumn U cols n ∧ correlationKey U S cols n = some k) ∧
      ∀ n ∈ inner, n ∈ ns ∧ ¬refsOuterColumn U cols n := by
  induction ns generalizing keys inner with
  | nil =>
    obtain ⟨rfl, rfl⟩ := Prod.mk.inj (Option.some.inj h)
    exact ⟨nofun, nofun⟩
  | cons m ns ih =>
    have hlater : ∀ keys' inner', classify U S cols ns = some (keys', inner') →
        (∀ k ∈ keys', ∃ n ∈ m :: ns, refsOuterColumn U cols n ∧ correlationKey U S cols n = some k) ∧
          ∀ n ∈ inner', n ∈ m :: ns ∧ ¬refsOuterColumn U cols n := by
      intro keys' inner' hclass
      obtain ⟨hkeys, hinner⟩ := ih keys' inner' hclass
      refine ⟨fun k hk => ?_, fun n hn => (hinner n hn).imp_left (mem_cons_of_mem m)⟩
      obtain ⟨n, hn, hfound⟩ := hkeys k hk
      exact ⟨n, mem_cons_of_mem m hn, hfound⟩
    rw [classify] at h
    split at h
    · cases h
    · split at h
      next hm =>
        split at h
        next key keys' inner' hkey hclass =>
          obtain ⟨rfl, rfl⟩ := Prod.mk.inj (Option.some.inj h)
          obtain ⟨hkeys, hinner⟩ := hlater keys' inner' hclass
          exact ⟨forall_mem_cons.mpr ⟨⟨m, mem_cons_self, hm, hkey⟩, hkeys⟩, hinner⟩
        next => cases h
      next hm =>
        split at h
        next keys' inner' hclass =>
          obtain ⟨rfl, rfl⟩ := Prod.mk.inj (Option.some.inj h)
          obtain ⟨hkeys, hinner⟩ := hlater keys' inner' hclass
          exact ⟨hkeys, forall_mem_cons.mpr ⟨⟨mem_cons_self, hm⟩, hinner⟩⟩
        next => cases h

def ReadsInner (n : Node) : Prop :=
  ∀ (ρ : Row V) (t : Tuple V), n.eval I (bodyRow U S ρ t) = (stripTableQualifiers n).eval I (innerRow t)

theorem readsInner_of_refs (hrefs : ∀ r ∈ n.refs, S.isOuter U r.1 r.2 = false)
    (hsub : n.subqueryTexts = []) : ReadsInner U I S n := by
  intro ρ t
  have hagree : AgreeOn I n (bodyRow U S ρ t) (innerRow t) :=
    ⟨fun r hr => by simp [bodyRow, innerRow, hrefs r hr], by simp [hsub]⟩
  refine (same_rewrite n fun m hm => ?_).eval
  have hm := hagree.visited hm
  cases m with
  | colRef table column =>
    have href := hm.refs (table, column) (by simp [Node.refs, Node.walk, Node.refLeaf])
    exact SameUnder.of_eval rfl rfl (by simpa [Node.eval, innerRow] using href)
  | _ => exact fun _ => hm

end Wadjet.Logical.ScalarDecorrelate
