import Wadjet.Coordinator.ProbeSplit.Sound

namespace Wadjet.Coordinator.ProbeSplit

open Wadjet.Data List

section Families

variable {kind : JoinKind} {on : Row → Row → Bool} (columns : List String)

theorem merges_concat (parts : List (List Row)) :
    Merges columns ⟨[], [], [], none, 0, false, false⟩ parts parts.flatten :=
  ⟨parts.flatten, rfl, parts.flatten, rfl, parts.flatten, rfl, rfl⟩

private def twoRelations (ls rs : List Row) : Database :=
  fun name => if name = "l" then ⟨["a"], ls⟩ else ⟨["a"], rs⟩

private theorem forall₂_map_self {answer : List Row → List Row → Prop} {f : List Row → List Row}
    (h : ∀ slice, answer slice (f slice)) (slices : List (List Row)) :
    List.Forall₂ answer slices (slices.map f) := by
  rw [forall₂_map_right_iff]
  exact forall₂_same.mpr fun slice _ => h slice

private theorem length_of_answer {ls rs out : List Row}
    (h : (Plan.join kind on (.scan "l") (.scan "r")).Answer (twoRelations ls rs) out) :
    out.length = (Data.join on kind ls rs).length := by
  obtain ⟨ls', rs', hl, hr, hout⟩ := h
  rw [hout.length_eq, length_map]
  exact (join_perm on kind hl hr).length_eq

private theorem length_of_cut {plan : Plan} {scanAlias : String} {ls rs : List Row}
    {f : List Row → List (Option Row × Option Row)}
    (hplan : plan = .join kind on (.scan "l") (.scan "r"))
    (h : AnswersPlan plan scanAlias (extractMergeInfo plan)) (slices : List (List Row)) (hne : slices ≠ [])
    (hslices : slices.flatten = (twoRelations ls rs scanAlias).rows)
    (hf : ∀ slice, plan.Answer (restrict (twoRelations ls rs) scanAlias slice)
      ((f slice).map (joinRow kind 1 1))) :
    (slices.flatMap f).length = (Data.join on kind ls rs).length := by
  subst hplan
  obtain ⟨-, hanswers⟩ := h (twoRelations ls rs) slices (slices.map fun slice => (f slice).map (joinRow kind 1 1))
    (fun key hkey => nomatch hkey) hne (hslices ▸ List.Perm.refl _) (forall₂_map_self hf slices)
  rw [← length_of_answer (hanswers _ (merges_concat _ _)), ← flatMap_def]
  simp

-- A join under every condition is split right on its left side by the kinds
-- that answer one left row at a time.
theorem answersPlan_join_left_iff (kind : JoinKind) :
    (∀ on, AnswersPlan (.join kind on (.scan "l") (.scan "r")) "l"
      (extractMergeInfo (.join kind on (.scan "l") (.scan "r")))) ↔ kind.cutsLeft := by
  constructor
  · intro h
    -- An empty slice pads the right rows that another slice matches.
    have hlength := length_of_cut rfl (h fun l r => l == r) [[[some 1]], []] (by simp) rfl
      fun slice => ⟨slice, [[some 1]], .refl _, .refl _, .refl _⟩
    cases kind with
    | inner | cross | left | semi | anti => rfl
    | right | full => exact absurd hlength (by decide)
  · intro hkind on
    exact answersPlan_of_splittable (Or.inr ⟨Or.inl rfl,
      Or.inl ⟨Or.inl ⟨hkind, rfl, show "r" ≠ "l" by decide⟩, trivial⟩⟩)

theorem answersPlan_join_right_iff (kind : JoinKind) :
    (∀ on, AnswersPlan (.join kind on (.scan "l") (.scan "r")) "r"
      (extractMergeInfo (.join kind on (.scan "l") (.scan "r")))) ↔ kind.cutsRight := by
  constructor
  · intro h
    have hlength := length_of_cut rfl (h fun l r => l == r) [[[some 1]], [[some 1]], []] (by simp)
      rfl fun slice => ⟨[[some 1]], slice, .refl _, .refl _, .refl _⟩
    cases kind with
    | inner | cross | right => rfl
    | left | full | semi | anti => exact absurd hlength (by decide)
  · intro hkind on
    exact answersPlan_of_splittable (Or.inr ⟨Or.inl rfl,
      Or.inl ⟨Or.inr ⟨hkind, show "l" ≠ "r" by decide, rfl⟩, trivial⟩⟩)

private def copies (n : Nat) : List Row := replicate n [some 0]

private theorem limitRows_copies (limitVal : Option Nat) (offsetVal : Nat) :
    limitRows limitVal offsetVal (copies offsetVal) = [] := by
  cases limitVal <;> simp [limitRows, copies]

variable {limitVal : Option Nat} {offsetVal : Nat} {orderBy : List OrderExpr}

private theorem arranges_copies (n : Nat) :
    Arranges (rowLe columns orderBy) (copies n) (copies n) :=
  ⟨List.Perm.refl _, pairwise_replicate.mpr (Or.inr ((isOrder_rowLe orderBy).refl _))⟩

private theorem merges_nothing (mi : MergeInfo) (h : mi.hasAggregate = false)
    (hdistinct : mi.hasDistinct = false) : Merges columns mi [[], []] [] := by
  refine ⟨[], by simp [combinePartials, h, hdistinct], [], by simp, [], ?_, ?_⟩
  · split
    · rfl
    · exact ⟨Or.inl (Nat.zero_le 1), List.Perm.refl _, .nil⟩
  · rw [keepRows_drop]
    cases hlimit : mi.limit <;> simp [limitRows]

theorem answersPlan_offset_iff (horder : ∀ key ∈ orderBy, key.column = "a") :
    AnswersPlan (.limit limitVal offsetVal (.sort orderBy (.scan "t"))) "t"
        (extractMergeInfo (.limit limitVal offsetVal (.sort orderBy (.scan "t")))) ↔
      offsetVal = 0 ∨ limitVal = some 0 := by
  constructor
  · intro h
    by_contra hbound
    obtain ⟨hoffset, hlimit⟩ := not_or.mp hbound
    let db : Database := fun _ => ⟨["a"], copies (offsetVal + offsetVal)⟩
    have htask : (Plan.limit limitVal offsetVal (.sort orderBy (.scan "t"))).Answer
        (restrict db "t" (copies offsetVal)) [] :=
      ⟨copies offsetVal, ⟨copies offsetVal, by simp [Plan.Answer, restrict], arranges_copies _ _⟩,
        (limitRows_copies limitVal offsetVal).symm⟩
    obtain ⟨-, hanswers⟩ := h db [copies offsetVal, copies offsetVal] [[], []]
      (fun key hkey => by simp [Plan.columns, db, horder key hkey]) (by simp)
      (by simp [db, copies]) (.cons htask (.cons htask .nil))
    obtain ⟨sorted, ⟨rows, hrows, harranges⟩, hout⟩ := hanswers [] (merges_nothing _ _ rfl rfl)
    have hlength : sorted.length = offsetVal + offsetVal := by
      rw [(harranges.perm.trans hrows).length_eq]
      exact length_replicate
    have hout := congrArg length hout
    cases limitVal with
    | none =>
      simp only [limitRows, length_nil, length_drop] at hout
      omega
    | some n =>
      simp only [limitRows, length_nil, length_take, length_drop] at hout
      have : n ≠ 0 := fun hn => hlimit (by rw [hn])
      omega
  · intro hbound
    exact answersPlan_of_splittable (Or.inr ⟨hbound, Or.inl ⟨rfl, trivial⟩⟩)

end Families

-- Whatever relation SubmitSQL cuts, a splittable plan is answered; which side
-- of a join may be cut and when a page may be skipped is exact.
theorem probeSplit_answers_plan (kind : JoinKind) :
    (∀ stages workerCount plan scanAlias files mi,
      submitSQL stages workerCount false plan = some (scanAlias, files, mi) →
        plan.Splittable scanAlias → AnswersPlan plan scanAlias mi) ∧
    ((∀ on, AnswersPlan (.join kind on (.scan "l") (.scan "r")) "l"
      (extractMergeInfo (.join kind on (.scan "l") (.scan "r")))) ↔ kind.cutsLeft) ∧
    ((∀ on, AnswersPlan (.join kind on (.scan "l") (.scan "r")) "r"
      (extractMergeInfo (.join kind on (.scan "l") (.scan "r")))) ↔ kind.cutsRight) ∧
    ∀ limitVal offsetVal orderBy, (∀ key ∈ orderBy, key.column = "a") →
      (AnswersPlan (.limit limitVal offsetVal (.sort orderBy (.scan "t"))) "t"
        (extractMergeInfo (.limit limitVal offsetVal (.sort orderBy (.scan "t")))) ↔
          offsetVal = 0 ∨ limitVal = some 0) := by
  refine ⟨?_, answersPlan_join_left_iff kind, answersPlan_join_right_iff kind, fun _ _ _ horder =>
      answersPlan_offset_iff horder⟩
  intro stages workerCount plan scanAlias files mi hchosen hsplit
  simp only [submitSQL, Bool.false_eq_true, if_false, Option.map_eq_some_iff] at hchosen
  obtain ⟨probe, -, -, -, rfl⟩ := hchosen
  exact answersPlan_of_splittable hsplit

private def largeScan : List Stage := [⟨true, "t", ["f1", "f2", "f3", "f4"], 2 ^ 27⟩]

-- `SELECT a, COUNT(*) AS n FROM t GROUP BY a` is split and answered.
theorem probeSplit_answers_plan_count :
    let plan : Plan := .project [⟨.column "a", ""⟩, ⟨.column "count", "n"⟩]
      (.aggregate ["a"] [⟨.count, none, "count", false⟩] (.scan "t"))
    submitSQL largeScan 2 false plan = some ("t", ["f1", "f2", "f3", "f4"], extractMergeInfo plan) ∧
      AnswersPlan plan "t" (extractMergeInfo plan) := by
  intro plan
  have hchosen : submitSQL largeScan 2 false plan = some ("t", ["f1", "f2", "f3", "f4"], extractMergeInfo plan) := rfl
  refine ⟨hchosen, (probeSplit_answers_plan .inner).1 largeScan 2 plan "t" _ _ hchosen (Or.inl ?_)⟩
  refine ⟨⟨rfl, by simp, by simp [AggExpr.Mergeable], by decide⟩, by simp, fun _ => ?_, by decide⟩
  exact List.Perm.refl _

-- `SELECT a FROM t ORDER BY a LIMIT 10 OFFSET 2` is split; over two slices of
-- two rows the merge answers nothing.
theorem probeSplit_skips_twice :
    let plan : Plan := .limit (some 10) 2 (.sort [⟨"a", false, none⟩] (.scan "t"))
    submitSQL largeScan 2 false plan = some ("t", ["f1", "f2", "f3", "f4"], extractMergeInfo plan) ∧
      ¬ AnswersPlan plan "t" (extractMergeInfo plan) := by
  refine ⟨rfl, fun h => ?_⟩
  have hbound := (answersPlan_offset_iff (by simp)).mp h
  simp at hbound

end Wadjet.Coordinator.ProbeSplit
