import Wadjet.Logical.JoinPushdown.Refinement

namespace Wadjet.Logical.JoinPushdown

open Wadjet.Sql Wadjet.Data Option

section Termination

def Plan.joins : Plan → Nat
  | .scan _ _ => 0
  | .filter _ child => child.joins
  | .join _ _ left right => left.joins + right.joins + 1

variable (U : Unicode) {rec rec' : Plan → Option Plan} {left right plan : Plan}
  {push : (Plan → Option Plan) → Option Plan}

-- What both pushes through a join do: they leave the plan as it is, or push into
-- its two inputs and join what comes back.
def Descends (push : (Plan → Option Plan) → Option Plan) (left right : Plan) : Prop :=
  ∃ (skip : Bool) (whole : Plan) (toLeft toRight : List Node) (joined : Plan → Plan → Plan),
    (∀ rec, push rec = if skip then some whole else
      (wrapChild rec toLeft left).bind fun left' =>
        (wrapChild rec toRight right).bind fun right' => some (joined left' right')) ∧
    whole.joins = left.joins + right.joins + 1 ∧
    ∀ left' right', (joined left' right').joins = left'.joins + right'.joins + 1

theorem descends_pushFilterThroughJoin (preds : List Node) (kind : JoinKind) (cond : List Node)
    (left right : Plan) :
    Descends (pushFilterThroughJoin U · preds kind cond left right) left right := by
  refine ⟨_, _, _, _, _, fun rec => rfl, rfl, fun left' right' => ?_⟩
  split <;> rfl

theorem descends_extractJoinCondPredicates (kind : JoinKind) (cond : List Node) (left right : Plan) :
    Descends (extractJoinCondPredicates U · kind cond left right) left right :=
  ⟨_, _, _, _, _, fun _ => rfl, rfl, fun _ _ => rfl⟩

theorem wrapChild_joins (hrec : ∀ n n', rec n = some n' → n'.joins = n.joins) (preds : List Node)
    (child child' : Plan) (h : wrapChild rec preds child = some child') : child'.joins = child.joins := by
  unfold wrapChild at h
  split at h
  · rw [some.inj h]
  · exact hrec (.filter preds child) child' h

theorem Descends.joins (hpush : Descends push left right)
    (hrec : ∀ n n', rec n = some n' → n'.joins = n.joins) (h : push rec = some plan) :
    plan.joins = left.joins + right.joins + 1 := by
  obtain ⟨skip, whole, toLeft, toRight, joined, heq, hwhole, hjoined⟩ := hpush
  rw [heq] at h
  split at h
  · rw [← some.inj h, hwhole]
  · obtain ⟨left', hl, h⟩ := bind_eq_some_iff.mp h
    obtain ⟨right', hr, h⟩ := bind_eq_some_iff.mp h
    rw [← some.inj h, hjoined, wrapChild_joins hrec _ left left' hl,
      wrapChild_joins hrec _ right right' hr]

theorem pushdownPredicates_joins (fuel : Nat) (n n' : Plan) (h : pushdownPredicates U fuel n = some n') :
    n'.joins = n.joins := by
  induction fuel generalizing n n' with
  | zero => cases h
  | succ fuel ih =>
    cases n with
    | scan names columns => rw [← some.inj h]
    | filter preds child =>
      obtain ⟨child', hchild, h⟩ := bind_eq_some_iff.mp h
      have hjoins := ih child child' hchild
      cases child' with
      | join kind cond left right =>
        exact ((descends_pushFilterThroughJoin U preds kind cond left right).joins ih h).trans hjoins
      | scan names columns =>
        rw [← some.inj h]
        exact hjoins
      | filter preds' child' =>
        rw [← some.inj h]
        exact hjoins
    | join kind cond left right =>
      obtain ⟨left', hleft, h⟩ := bind_eq_some_iff.mp h
      obtain ⟨right', hright, h⟩ := bind_eq_some_iff.mp h
      have hjoins := (descends_extractJoinCondPredicates U kind cond left' right').joins ih h
      rw [hjoins, ih left left' hleft, ih right right' hright]
      rfl

theorem wrapChild_mono (hrec : ∀ n n', rec n = some n' → rec' n = some n') (preds : List Node)
    (child child' : Plan) (h : wrapChild rec preds child = some child') :
    wrapChild rec' preds child = some child' := by
  unfold wrapChild at h ⊢
  split at h
  next hnil => rw [if_pos hnil, h]
  next hne => rw [if_neg hne, hrec _ _ h]

theorem Descends.mono (hpush : Descends push left right)
    (hrec : ∀ n n', rec n = some n' → rec' n = some n') (h : push rec = some plan) :
    push rec' = some plan := by
  obtain ⟨skip, whole, toLeft, toRight, joined, heq, -, -⟩ := hpush
  rw [heq] at h ⊢
  split at h
  next hskip => rw [if_pos hskip, h]
  next hskip =>
    obtain ⟨left', hl, h⟩ := bind_eq_some_iff.mp h
    obtain ⟨right', hr, h⟩ := bind_eq_some_iff.mp h
    rw [if_neg hskip, wrapChild_mono hrec _ left left' hl,
      wrapChild_mono hrec _ right right' hr]
    exact h

theorem pushdownPredicates_succ (fuel : Nat) (n n' : Plan) (h : pushdownPredicates U fuel n = some n') :
    pushdownPredicates U (fuel + 1) n = some n' := by
  induction fuel generalizing n n' with
  | zero => cases h
  | succ fuel ih =>
    cases n with
    | scan names columns => exact h
    | filter preds child =>
      obtain ⟨child', hchild, h⟩ := bind_eq_some_iff.mp h
      rw [pushdownPredicates, ih child child' hchild]
      cases child' with
      | join kind cond left right => exact (descends_pushFilterThroughJoin U ..).mono ih h
      | scan names columns => exact h
      | filter preds' child' => exact h
    | join kind cond left right =>
      obtain ⟨left', hleft, h⟩ := bind_eq_some_iff.mp h
      obtain ⟨right', hright, h⟩ := bind_eq_some_iff.mp h
      rw [pushdownPredicates, ih left left' hleft, ih right right' hright]
      exact (descends_extractJoinCondPredicates U ..).mono ih h

theorem pushdownPredicates_mono {fuel fuel' : Nat} (hle : fuel ≤ fuel') (n n' : Plan)
    (h : pushdownPredicates U fuel n = some n') : pushdownPredicates U fuel' n = some n' := by
  induction hle with
  | refl => exact h
  | step _ ih => exact pushdownPredicates_succ U _ n n' ih

variable {U} in
private theorem wrapChild_isSome {j : Nat}
    (hrec : ∀ n : Plan, n.joins < j → ∃ fuel n', pushdownPredicates U fuel n = some n') (preds : List Node)
    (child : Plan) (hchild : child.joins < j) :
    ∃ fuel child', wrapChild (pushdownPredicates U fuel) preds child = some child' := by
  cases preds with
  | nil => exact ⟨0, child, rfl⟩
  | cons p preds => exact hrec (.filter (p :: preds) child) hchild

theorem Descends.terminates {j : Nat} (hpush : Descends push left right)
    (hrec : ∀ n : Plan, n.joins < j → ∃ fuel n', pushdownPredicates U fuel n = some n')
    (hj : left.joins + right.joins < j) : ∃ fuel plan, push (pushdownPredicates U fuel) = some plan := by
  obtain ⟨skip, whole, toLeft, toRight, joined, heq, -, -⟩ := hpush
  obtain ⟨f₁, left', hl⟩ := wrapChild_isSome hrec toLeft left (by omega)
  obtain ⟨f₂, right', hr⟩ := wrapChild_isSome hrec toRight right (by omega)
  have hl := wrapChild_mono (fun n n' => pushdownPredicates_mono U (Nat.le_max_left f₁ f₂) n n') _ _ _ hl
  have hr := wrapChild_mono (fun n n' => pushdownPredicates_mono U (Nat.le_max_right f₁ f₂) n n') _ _ _ hr
  refine ⟨max f₁ f₂, ?_⟩
  rw [heq, hl, hr]
  split <;> exact ⟨_, rfl⟩

theorem pushdownPredicates_terminates (n : Plan) : ∃ fuel n', pushdownPredicates U fuel n = some n' := by
  suffices h : ∀ j, ∀ n : Plan, n.joins ≤ j → ∃ fuel n', pushdownPredicates U fuel n = some n' from
    h n.joins n (Nat.le_refl _)
  intro j
  induction j using Nat.strongRecOn with
  | _ j ihj =>
    -- a plan with fewer joins is done; the children of this one are smaller
    have hrec : ∀ n : Plan, n.joins < j → ∃ fuel n', pushdownPredicates U fuel n = some n' :=
      fun n hn => ihj n.joins hn n (Nat.le_refl _)
    intro n hn
    induction n with
    | scan names columns => exact ⟨1, _, rfl⟩
    | filter preds child ih =>
      obtain ⟨f, child', hchild⟩ := ih hn
      have hjoins := pushdownPredicates_joins U f child child' hchild
      cases child' with
      | join kind cond left right =>
        obtain ⟨f', plan, hplan⟩ :=
          (descends_pushFilterThroughJoin U preds kind cond left right).terminates U hrec
          (by simp only [Plan.joins] at hjoins hn; omega)
        refine ⟨max f f' + 1, plan, ?_⟩
        rw [pushdownPredicates, pushdownPredicates_mono U (Nat.le_max_left f f') _ _ hchild]
        exact (descends_pushFilterThroughJoin U ..).mono
          (fun n n' => pushdownPredicates_mono U (Nat.le_max_right f f') n n') hplan
      | scan names columns => exact ⟨f + 1, _, by rw [pushdownPredicates, hchild]; rfl⟩
      | filter preds' child' => exact ⟨f + 1, _, by rw [pushdownPredicates, hchild]; rfl⟩
    | join kind cond left right ihl ihr =>
      simp only [Plan.joins] at hn
      obtain ⟨f₁, left', hl⟩ := ihl (by omega)
      obtain ⟨f₂, right', hr⟩ := ihr (by omega)
      have hjl := pushdownPredicates_joins U f₁ left left' hl
      have hjr := pushdownPredicates_joins U f₂ right right' hr
      obtain ⟨f₃, plan, hplan⟩ :=
        (descends_extractJoinCondPredicates U kind cond left' right').terminates U hrec (by omega)
      refine ⟨max f₁ (max f₂ f₃) + 1, plan, ?_⟩
      rw [pushdownPredicates, pushdownPredicates_mono U (by omega) _ _ hl,
        pushdownPredicates_mono U (by omega) _ _ hr]
      exact (descends_extractJoinCondPredicates U ..).mono
        (fun n n' => pushdownPredicates_mono U (by omega) n n') hplan

end Termination

section Result

variable {V : Type} (U : Unicode) (I : Interp V)

end Result

def scanA : Plan := .scan ["a"] ["k", "x"]

def scanB : Plan := .scan ["b"] ["k", "y"]

def oneRowEach : List String → List (String → Option String)
  | ["a"] => [fun column => if column = "k" then some "1" else some "2"]
  | ["b"] => [fun _ => some "1"]
  | _ => []

-- `b.y = '1'` over a left join on `a.k = b.k`, which becomes an inner join.
def demotingFilter : Node := .cmp (.colRef "b" "y") .eq (.lit "1" .string)

def keyEquality : Node := .cmp (.colRef "a" "k") .eq (.colRef "b" "k")

theorem seen_of_visible {n : Node} (sides : List (List String))
    (hrefs : ∀ r ∈ n.refs, r ∈ n.walk Node.refLeaf collectInto) (hsub : n.subqueryTexts = []) : Seen sides n :=
  fun _ _ _ _ hall => ⟨fun r hr => hall r (hrefs r hr), hsub⟩

theorem demotingFilter_ok :
    (Plan.filter [demotingFilter] (.join .left [keyEquality] scanA scanB)).Ok Interp.text := by
  have hfilter : (∀ sides, Seen sides demotingFilter) ∧ Accepted Interp.text demotingFilter :=
    ⟨fun _ => seen_of_visible _ (by decide) (by decide), by decide, fun hr ρ hn =>
      (truth_ne_true_iff_harmless _ hr hn).mpr (harmless_of_plain _ (by decide) hn)⟩
  have hkey : (∀ sides, Seen sides keyEquality) ∧ Accepted Interp.text keyEquality :=
    ⟨fun _ => seen_of_visible _ (by decide) (by decide), by decide, fun hr ρ hn =>
      (truth_ne_true_iff_harmless _ hr hn).mpr (harmless_of_plain _ (by decide) hn)⟩
  refine ⟨?_, ?_, by simp [scanA, scanB, Plan.tables], trivial, trivial⟩
  · intro p hp n hn
    obtain rfl : n = demotingFilter := by simpa [List.mem_singleton.mp hp, flattenANDNodes, demotingFilter] using hn
    exact ⟨hfilter.1 _, hfilter.2⟩
  · intro p hp n hn
    obtain rfl : n = keyEquality := by simpa [List.mem_singleton.mp hp, flattenANDNodes, keyEquality] using hn
    exact ⟨hkey.1 _, hkey.2⟩

-- `a.x = '1' OR b.y = ANY ('1', '2')` and `a.x = '1' OR (b.y, b.k) = ('1', '1')`.
def halfSeen : List Node :=
  [.or (.cmp (.colRef "a" "x") .eq (.lit "1" .string))
      (.anyAll (.colRef "b" "y") .eq .any [.lit "1" .string, .lit "2" .string]),
    .or (.cmp (.colRef "a" "x") .eq (.lit "1" .string))
      (.cmp (.tuple [.colRef "b" "y", .colRef "b" "k"]) .eq (.tuple [.lit "1" .string, .lit "1" .string]))]

end Wadjet.Logical.JoinPushdown
