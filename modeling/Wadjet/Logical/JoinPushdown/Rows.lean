import Wadjet.Logical.JoinPushdown.Model

namespace Wadjet.Logical.JoinPushdown

open Wadjet.Sql Wadjet.Data List

section Holds

variable {V : Type} (I : Interp V)

@[simp] theorem holds_nil (ρ : Row V) : holds I [] ρ := rfl

@[simp] theorem filter_holds_nil (zs : List (Row V)) : zs.filter (holds I []) = zs :=
  filter_eq_self.mpr fun ρ _ => holds_nil I ρ

@[simp] theorem holds_append (ns ms : List Node) (ρ : Row V) :
    holds I (ns ++ ms) ρ = (holds I ns ρ && holds I ms ρ) := by
  simp [holds]

variable (ns : List Node)

theorem holds_eq_true (ρ : Row V) : holds I ns ρ ↔ ∀ n ∈ ns, n.truth I ρ = .true := by
  simp [holds]

theorem holds_congr (ρ ρ' : Row V) (h : ∀ n ∈ ns, n.truth I ρ = n.truth I ρ') :
    holds I ns ρ = holds I ns ρ' := by
  rw [Bool.eq_iff_iff, holds_eq_true, holds_eq_true]
  exact forall₂_congr fun n hn => by rw [h n hn]

theorem holds_filter (p : Node → Bool) (ns : List Node) (ρ : Row V) :
    holds I ns ρ = (holds I (ns.filter p) ρ && holds I (ns.filter fun n => !p n) ρ) := by
  rw [Bool.eq_iff_iff, Bool.and_eq_true, holds_eq_true, holds_eq_true, holds_eq_true]
  constructor
  · intro h
    exact ⟨fun n hn => h n (mem_filter.mp hn).1, fun n hn => h n (mem_filter.mp hn).1⟩
  · intro h n hn
    cases hp : p n with
    | true => exact h.1 n (mem_filter.mpr ⟨hn, hp⟩)
    | false => exact h.2 n (mem_filter.mpr ⟨hn, by simp [hp]⟩)

theorem holds_placed (side : Node → Placement) (ns : List Node) (ρ : Row V) :
    holds I ns ρ = (holds I (ns.filter (side · = .left)) ρ && holds I (ns.filter (side · = .right)) ρ &&
      holds I (ns.filter (side · = .above)) ρ) := by
  rw [Bool.eq_iff_iff, Bool.and_eq_true, Bool.and_eq_true, holds_eq_true, holds_eq_true, holds_eq_true,
    holds_eq_true]
  simp only [mem_filter, decide_eq_true_eq]
  constructor
  · intro h
    exact ⟨⟨fun n hn => h n hn.1, fun n hn => h n hn.1⟩, fun n hn => h n hn.1⟩
  · rintro ⟨⟨hl, hr⟩, ha⟩ n hn
    cases hside : side n with
    | left => exact hl n ⟨hn, hside⟩
    | right => exact hr n ⟨hn, hside⟩
    | above => exact ha n ⟨hn, hside⟩

theorem holds_flatten (ρ : Row V) : holds I (ns.flatMap flattenANDNodes) ρ = holds I ns ρ := by
  induction ns with
  | nil => rfl
  | cons n ns ih =>
    rw [flatMap_cons, holds_append, ih]
    have hn : holds I (flattenANDNodes n) ρ = decide (n.truth I ρ = .true) := by
      rw [Bool.eq_iff_iff, holds_eq_true, decide_eq_true_eq, truth_eq_true_iff_flattenAND]
      rfl
    rw [hn]
    rfl

def partHolds (part : Option (Row V)) : Bool := ns.isEmpty || part.any (holds I ns)

end Holds

variable {V : Type} (I : Interp V)

theorem demoteJoinKind_eq (kind : JoinKind) (l r : Bool) :
    demoteJoinKind kind ((nullSupplyingSides kind).1 && l) ((nullSupplyingSides kind).2 && r) =
      if r then (if l then kind.keepLeft else kind).keepRight
      else if l then kind.keepLeft else kind := by
  cases kind <;> cases l <;> cases r <;> rfl

variable (on : Row V → Row V → Bool) (kind : JoinKind)

private theorem join_left_part (ns : List Node) (xs ys : List (Row V)) :
    join on (if !ns.isEmpty then kind.keepLeft else kind) (xs.filter (holds I ns)) ys =
      (join on kind xs ys).filter fun r => partHolds I ns r.1 := by
  cases ns with
  | nil => simp [partHolds]
  | cons n ns => exact join_keepLeft on kind (holds I (n :: ns)) xs ys

private theorem join_right_part (ns : List Node)
    (hkind : ns ≠ [] → kind.answersLeft = false) (xs ys : List (Row V)) :
    join on (if !ns.isEmpty then kind.keepRight else kind) xs (ys.filter (holds I ns)) =
      (join on kind xs ys).filter fun r => partHolds I ns r.2 := by
  cases ns with
  | nil => simp [partHolds]
  | cons n ns => exact join_keepRight on kind (hkind (by simp)) (holds I (n :: ns)) xs ys

theorem join_demoted (ls rs : List Node)
    (hkind : rs ≠ [] → kind.answersLeft = false) (xs ys : List (Row V)) :
    join on (demoteJoinKind kind ((nullSupplyingSides kind).1 && !ls.isEmpty)
        ((nullSupplyingSides kind).2 && !rs.isEmpty)) (xs.filter (holds I ls)) (ys.filter (holds I rs)) =
      (join on kind xs ys).filter fun r => partHolds I ls r.1 && partHolds I rs r.2 := by
  have hkeep : (if !ls.isEmpty then kind.keepLeft else kind).answersLeft = kind.answersLeft := by
    split
    · cases kind <;> rfl
    · rfl
  rw [demoteJoinKind_eq, join_right_part I on _ rs (fun h => hkeep.trans (hkind h)), join_left_part,
    filter_filter]
  exact filter_congr fun r _ => Bool.and_comm _ _

def onPair (toLeft : String → String → Bool) (cond : List Node) (ρ ρ' : Row V) : Bool :=
  holds I cond (merge toLeft (some ρ, some ρ'))

def pairs (db : List String → List (String → Option V)) (kind : JoinKind) (cond : List Node)
    (left right : Plan) : List (Option (Row V) × Option (Row V)) :=
  join (onPair I (left.toLeft right) cond) kind (left.rows I db) (right.rows I db)

theorem rows_join (db : List String → List (String → Option V)) (kind : JoinKind) (cond : List Node)
    (left right : Plan) :
    (Plan.join kind cond left right).rows I db = (pairs I db kind cond left right).map (merge (left.toLeft right)) :=
  rfl

theorem join_residuals (toLeft : String → String → Bool) (kind : JoinKind) (cond : List Node)
    (xs ys : List (Row V)) :
    ((join (onPair I toLeft (takeJoinCondResiduals kind cond).2.1) (takeJoinCondResiduals kind cond).1
        xs ys).map (merge toLeft)).filter (holds I (takeJoinCondResiduals kind cond).2.2) =
      (join (onPair I toLeft cond) kind xs ys).map (merge toLeft) := by
  have hsplit : ∀ (parts : List Node) (ρ ρ' : Row V),
      (onPair I toLeft (parts.filter isJoinKeyEquality) ρ ρ' &&
        holds I (parts.filter fun part => !isJoinKeyEquality part) (merge toLeft (some ρ, some ρ'))) =
      onPair I toLeft parts ρ ρ' := fun parts ρ ρ' => (holds_filter I _ parts _).symm
  have hinner : ((matched (onPair I toLeft ((splitJoinConjuncts cond).filter isJoinKeyEquality))
        xs ys).map (merge toLeft)).filter
          (holds I ((splitJoinConjuncts cond).filter fun part => !isJoinKeyEquality part)) =
      (matched (onPair I toLeft cond) xs ys).map (merge toLeft) := by
    rw [filter_map, filter_matched]
    congr 1
    refine matched_congr fun ρ _ ρ' _ => ?_
    rw [Function.comp_apply, hsplit]
    exact holds_flatten I cond _
  unfold takeJoinCondResiduals
  cases kind with
  | left | right | full | semi | anti => exact filter_holds_nil I _
  | inner | cross =>
    dsimp only
    split
    · exact filter_holds_nil I _
    · split
      next hkeys =>
        rw [List.isEmpty_iff] at hkeys
        rw [hkeys] at hinner
        exact hinner
      next => exact hinner

def passes (side : Node → Placement) (toLeft : String → String → Bool) (flat : List Node)
    (r : Option (Row V) × Option (Row V)) : Bool :=
  partHolds I (flat.filter (side · = .left)) r.1 && partHolds I (flat.filter (side · = .right)) r.2 &&
    holds I (flat.filter (side · = .above)) (merge toLeft r)

theorem placement_right_answers (U : Unicode) (kind : JoinKind) (left right : Plan) (n : Node)
    (h : placement U kind left right n = .right) : kind.answersLeft = false := by
  unfold placement at h
  dsimp only at h
  split at h
  · cases h
  · cases h
  · split at h
    · split at h <;> cases h
    · split at h
      next hright => exact Bool.not_eq_true' _ ▸ (Bool.and_eq_true_iff.mp hright).2
      next => cases h

theorem rows_split (U : Unicode) (db : List String → List (String → Option V)) (preds : List Node)
    (kind : JoinKind) (cond : List Node) (left right left' right' : Plan)
    (htoLeft : left'.toLeft right' = left.toLeft right)
    (hleft : (left'.rows I db).Perm
      ((left.rows I db).filter (holds I (splitFilter U preds kind cond left right).left)))
    (hright : (right'.rows I db).Perm
      ((right.rows I db).filter (holds I (splitFilter U preds kind cond left right).right))) :
    (((Plan.join (splitFilter U preds kind cond left right).kind (splitFilter U preds kind cond left right).cond
        left' right').rows I db).filter (holds I (splitFilter U preds kind cond left right).above)).Perm
      (((pairs I db kind cond left right).filter
        (passes I (placement U kind left right) (left.toLeft right) (flattenANDPredicates preds))).map
          (merge (left.toLeft right))) := by
  generalize hs : splitFilter U preds kind cond left right = s at hleft hright ⊢
  have hkind : s.right ≠ [] → kind.answersLeft = false := by
    intro hne
    obtain ⟨n, hn⟩ := exists_mem_of_ne_nil _ hne
    rw [← hs] at hn
    exact placement_right_answers U kind left right n (of_decide_eq_true (mem_filter.mp hn).2)
  -- the children, under the demoted kind and the full ON
  have hjoin : (((Plan.join s.kind s.cond left' right').rows I db).filter (holds I s.above)).Perm
      (((join (onPair I (left.toLeft right) cond)
          (demoteJoinKind kind ((nullSupplyingSides kind).1 && !s.left.isEmpty)
        ((nullSupplyingSides kind).2 && !s.right.isEmpty)) ((left.rows I db).filter (holds I s.left))
          ((right.rows I db).filter (holds I s.right))).map (merge (left.toLeft right))).filter
            (holds I ((flattenANDPredicates preds).filter (placement U kind left right · = .above)))) := by
    rw [rows_join, pairs, htoLeft]
    have hperm := ((join_perm (onPair I (left.toLeft right) s.cond) s.kind hleft hright).map
      (merge (left.toLeft right))).filter (holds I s.above)
    refine hperm.trans (List.Perm.of_eq ?_)
    rw [← hs]
    simp only [splitFilter]
    split
    · rw [← join_residuals I (left.toLeft right) _ cond, filter_filter]
      exact filter_congr fun ρ _ => holds_append I _ _ ρ
    next hnone =>
      rw [Bool.or_eq_true, not_or, Bool.not_eq_true, Bool.not_eq_true] at hnone
      rw [hnone.1, hnone.2, append_nil]
      cases kind <;> rfl
  rw [join_demoted I _ kind s.left s.right hkind] at hjoin
  refine hjoin.trans (List.Perm.of_eq ?_)
  rw [filter_map, filter_filter]
  congr 1
  refine filter_congr fun r _ => ?_
  rw [← hs, Bool.and_comm]
  rfl

end Wadjet.Logical.JoinPushdown
