import Wadjet.Logical.CountDistinct.Values

namespace Wadjet.Logical.CountDistinct

open Wadjet.Data Wadjet.Engine List

section Lookup

structure Named (n : Aggregate) (x : Col) : Prop where
  nodup : n.columns.Nodup
  user : ∀ c ∈ x :: n.columns, ∃ name, c = .user name
  fresh : x ∉ n.groupBy

variable {aggs : List AggExpr} {a : AggExpr}

theorem find?_output (ha : a ∈ aggs)
    (huniq : ∀ b ∈ aggs, b.output = a.output → b = a) : aggs.find? (·.output = a.output) = some a := by
  cases hf : aggs.find? (·.output = a.output) with
  | none =>
    have hnot := find?_eq_none.mp hf a ha
    simp at hnot
  | some b =>
    have hout := find?_some hf
    rw [huniq b (mem_of_find?_eq_some hf) (of_decide_eq_true hout)]

variable {c : Col}

theorem find?_output_none (h : ∀ b ∈ aggs, b.output ≠ c) : aggs.find? (·.output = c) = none := by
  rw [find?_eq_none]
  intro b hb
  simpa using h b hb

def outerOf (i : Nat) (a : AggExpr) : List AggExpr :=
  if a.distinct then [{ func := .count, input := a.input, output := a.output }] else combined i a

variable {i : Nat} {p : AggExpr}

theorem partials_output (hp : p ∈ partials i a) : ∃ k, p.output = .slot k i := by
  unfold partials at hp
  split at hp <;> simp only [mem_cons, not_mem_nil, or_false] at hp
  · rcases hp with rfl | rfl <;> exact ⟨_, rfl⟩
  all_goals exact hp ▸ ⟨_, rfl⟩

variable {q : AggExpr}

theorem partials_unique (hp : p ∈ partials i a) (hq : q ∈ partials i a)
    (h : q.output = p.output) : q = p := by
  refine inj_on_of_nodup_map (f := AggExpr.output) ?_ hq hp h
  unfold partials
  split <;> simp

theorem outerOf_output (hq : q ∈ outerOf i a) :
    (∃ k, q.output = .slot k i) ∨ q.output = a.output := by
  unfold outerOf combined at hq
  split at hq
  · simp only [mem_singleton] at hq
    exact Or.inr (hq ▸ rfl)
  · split at hq <;> simp only [mem_cons, not_mem_nil, or_false] at hq
    · rcases hq with rfl | rfl <;> exact Or.inl ⟨_, rfl⟩
    all_goals exact Or.inr (hq ▸ rfl)

theorem outerOf_unique (hp : p ∈ outerOf i a) (hq : q ∈ outerOf i a)
    (h : q.output = p.output) : q = p := by
  refine inj_on_of_nodup_map (f := AggExpr.output) ?_ hq hp h
  unfold outerOf combined
  split
  · simp
  · split <;> simp

variable {n : Aggregate} {x : Col} {α : Type}

theorem zipIdx_eq {l : List α} {a b : α} (ha : (a, i) ∈ l.zipIdx)
    (hb : (b, i) ∈ l.zipIdx) : a = b := by
  rw [mk_mem_zipIdx_iff_getElem?] at ha hb
  exact Option.some.inj (ha.symm.trans hb)

theorem mem_of_zipIdx {l : List α} {a : α} (h : (a, i) ∈ l.zipIdx) : a ∈ l := by
  rw [mk_mem_zipIdx_iff_getElem?] at h
  exact mem_of_getElem? h

theorem Named.index_eq (h : Named n x) {b : AggExpr} {i j : Nat} (ha : (a, i) ∈ n.aggs.zipIdx)
    (hb : (b, j) ∈ n.aggs.zipIdx) (hout : a.output = b.output) : i = j := by
  rw [mk_mem_zipIdx_iff_getElem?] at ha hb
  have hnodup : (n.aggs.map (·.output)).Nodup := (nodup_append.mp h.nodup).2.1
  have hi : (n.aggs.map (·.output))[i]? = some a.output := by simp [ha]
  have hj : (n.aggs.map (·.output))[j]? = some a.output := by simp [hb, hout]
  have hlt : i < (n.aggs.map (·.output)).length := (List.getElem?_eq_some_iff.mp hi).1
  exact (getElem?_inj hlt hnodup).mp (hi.trans hj.symm)

theorem Named.output_user (h : Named n x) (ha : a ∈ n.aggs) : ∃ name, a.output = .user name :=
  h.user a.output (mem_cons_of_mem _ (mem_append_right _ (mem_map_of_mem ha)))

theorem find?_innerAggs (ha : (a, i) ∈ n.aggs.zipIdx) (hd : a.distinct = false)
    (hp : p ∈ partials i a) : (innerAggs n).find? (·.output = p.output) = some p := by
  refine find?_output (mem_flatMap.mpr ⟨(a, i), ha, by simpa [hd] using hp⟩) fun q hq hout => ?_
  obtain ⟨⟨b, j⟩, hb, hq⟩ := mem_flatMap.mp hq
  dsimp only at hq
  split at hq
  · cases hq
  · obtain ⟨k, hk⟩ := partials_output hp
    obtain ⟨k', hk'⟩ := partials_output hq
    rw [hk, hk'] at hout
    obtain rfl : j = i := by injection hout
    obtain rfl := zipIdx_eq ha hb
    exact partials_unique hp hq (by rw [hk, hk', hout])

theorem find?_innerAggs_user (name : String) : (innerAggs n).find? (·.output = .user name) = none := by
  refine find?_output_none fun q hq hout => ?_
  obtain ⟨⟨b, j⟩, -, hq⟩ := mem_flatMap.mp hq
  dsimp only at hq
  split at hq
  · cases hq
  · obtain ⟨k, hk⟩ := partials_output hq
    rw [hk] at hout
    cases hout

variable (h : Named n x)

include h

theorem find?_outerAggs (ha : (a, i) ∈ n.aggs.zipIdx)
    (hp : p ∈ outerOf i a) : (outerAggs n).find? (·.output = p.output) = some p := by
  refine find?_output (mem_flatMap.mpr ⟨(a, i), ha, hp⟩) fun q hq hout => ?_
  obtain ⟨⟨b, j⟩, hb, hq⟩ := mem_flatMap.mp hq
  have hij : j = i := by
    obtain ⟨name, hname⟩ := h.output_user (mem_of_zipIdx ha)
    obtain ⟨name', hname'⟩ := h.output_user (mem_of_zipIdx hb)
    rcases outerOf_output hp with ⟨k, hk⟩ | hk <;> rcases outerOf_output hq with ⟨k', hk'⟩ | hk'
    · rw [hk, hk'] at hout
      injection hout
    · rw [hk, hk', hname'] at hout
      cases hout
    · rw [hk, hk', hname] at hout
      cases hout
    · exact h.index_eq hb ha (hk'.symm.trans (hout.trans hk))
  subst hij
  obtain rfl := zipIdx_eq ha hb
  exact outerOf_unique hp hq hout

theorem find?_outerAggs_key (hc : c ∈ n.groupBy) : (outerAggs n).find? (·.output = c) = none := by
  obtain ⟨name, hname⟩ := h.user c (mem_cons_of_mem _ (mem_append_left _ hc))
  refine find?_output_none fun q hq hout => ?_
  obtain ⟨⟨b, j⟩, hb, hq⟩ := mem_flatMap.mp hq
  rcases outerOf_output hq with ⟨k, hk⟩ | hk
  · rw [hk, hname] at hout
    cases hout
  · have hmem : c ∈ n.aggs.map (·.output) :=
      mem_map.mpr ⟨b, mem_of_zipIdx hb, hk.symm.trans hout⟩
    exact (nodup_append.mp h.nodup).2.2 c hc c hmem rfl

theorem find?_aggs (ha : (a, i) ∈ n.aggs.zipIdx) : n.aggs.find? (·.output = a.output) = some a := by
  refine find?_output (mem_of_zipIdx ha) fun b hb hout => ?_
  obtain ⟨j, hj⟩ := getElem?_of_mem hb
  have hb' : (b, j) ∈ n.aggs.zipIdx := mk_mem_zipIdx_iff_getElem?.mpr hj
  obtain rfl := h.index_eq hb' ha hout
  exact zipIdx_eq hb' ha

theorem find?_aggs_key (hc : c ∈ n.groupBy) : n.aggs.find? (·.output = c) = none := by
  refine find?_output_none fun b hb hout => ?_
  exact (nodup_append.mp h.nodup).2.2 c hc c (mem_map.mpr ⟨b, hb, hout⟩) rfl

end Lookup

variable (type : Col → ColType)

def InCarrier (a : AggExpr) (g : List Row) : Prop :=
  match a.func, a.input with
  | .count, _ => g.length < 2 ^ 63
  | .sum, some c => magnitude (nums g c) < sumBound (type c)
  | .avg, some c =>
    g.length < 2 ^ 63 ∧ magnitude (nums g c) < sumBound (type c) ∧ magnitude (nums g c) * 10 ^ 6 < 10 ^ 38
  | _, _ => True

structure Numeric (a : AggExpr) (g : List Row) : Prop where
  func : decomposable a.func
  input : a.func ≠ .count → ∃ c, a.input = some c ∧ type c ≠ .text ∧ (type c).scale ≤ 38 ∧
    ∀ row ∈ g, ∀ v, row c = some v → v.num?.isSome

variable {type} {n : Aggregate} {x : Col}

def innerOf (n : Aggregate) (x : Col) : Aggregate := { groupBy := n.groupBy ++ [x], aggs := innerAggs n }

def outerLevel (n : Aggregate) : Aggregate := { groupBy := n.groupBy, aggs := outerAggs n }

variable {a p : AggExpr} {i : Nat}

theorem outRow_slot (ha : (a, i) ∈ n.aggs.zipIdx) (hd : a.distinct = false)
    (hp : p ∈ partials i a) (g : List Row) :
    outRow (innerOf n x) type g p.output = (evalAgg type p g).join := by
  rw [outRow, innerOf, find?_innerAggs ha hd hp]

variable (x type) in
theorem outType_slot (ha : (a, i) ∈ n.aggs.zipIdx) (hd : a.distinct = false)
    (hp : p ∈ partials i a) : outType (innerOf n x) type p.output = aggType type p := by
  rw [outType, innerOf, find?_innerAggs ha hd hp]

theorem outRow_key (h : Named n x) {c : Col} (hc : c ∈ n.groupBy ++ [x]) (g : List Row) :
    outRow (innerOf n x) type g c = g.head?.bind (· c) := by
  have hmem : c ∈ x :: n.columns := by
    rcases mem_append.mp hc with hc | hc
    · exact mem_cons_of_mem _ (mem_append_left _ hc)
    · exact mem_singleton.mp hc ▸ mem_cons_self
  obtain ⟨name, rfl⟩ := h.user c hmem
  rw [outRow, innerOf, find?_innerAggs_user]
  simp [hc]

variable {key : Row → Option Value} {g : List Row} {gs : List (List Row)}

theorem nums_perm (h : Parts key g gs) (c : Col) : (gs.flatMap (nums · c)).Perm (nums g c) := by
  have hflat : gs.flatMap (nums · c) = nums gs.flatten c := by
    rw [nums, filterMap_flatten]
    rfl
  rw [hflat]
  exact h.perm.filterMap _

theorem present_perm (h : Parts key g gs)
    (c : Col) : (gs.flatMap (present · c)).Perm (present g c) := by
  have hflat : gs.flatMap (present · c) = present gs.flatten c := by
    rw [present, filterMap_flatten]
    rfl
  rw [hflat]
  exact h.perm.filterMap _

theorem total_perm {vs ws : List Int} (h : vs.Perm ws) : total vs = total ws := by
  have hempty : vs.isEmpty = ws.isEmpty := by
    rw [Bool.eq_iff_iff, List.isEmpty_iff, List.isEmpty_iff]
    exact ⟨fun hv => (hv ▸ h).symm.eq_nil, fun hw => (hw ▸ h).eq_nil⟩
  rw [total, total, hempty, h.sum_eq]

theorem magnitude_part_le (h : Parts key g gs) (c : Col) {p : List Row} (hp : p ∈ gs) :
    magnitude (nums p c) ≤ magnitude (nums g c) := by
  rw [← magnitude_perm (nums_perm h c)]
  obtain ⟨l, r, rfl⟩ := append_of_mem hp
  rw [flatMap_append, flatMap_cons, magnitude_append, magnitude_append]
  omega

variable {α β : Type}

theorem sum_lengths (gs : List (List α)) (f : List α → List β) :
    (gs.map fun g => ((f g).length : Int)).sum = ((gs.flatMap f).length : Int) := by
  induction gs with
  | nil => rfl
  | cons g gs ih => rw [map_cons, sum_cons, ih, flatMap_cons, length_append]; rfl

theorem magnitude_lengths (gs : List (List α)) (f : List α → List β) :
    magnitude (gs.map fun g => ((f g).length : Int)) = (gs.flatMap f).length := by
  induction gs with
  | nil => rfl
  | cons g gs ih =>
    rw [map_cons, magnitude_cons, ih, flatMap_cons, length_append]
    rfl

end Wadjet.Logical.CountDistinct
