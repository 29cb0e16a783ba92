import Wadjet.Logical.CountDistinct.Cells

namespace Wadjet.Logical.CountDistinct

open Wadjet.Sql Wadjet.Data Wadjet.Engine List

section Final

variable (n : Aggregate) (x : Col) (type : Col → ColType)

def outerType : Col → ColType := outType (outerLevel n) (outType (innerOf n x) type)

def outerRow (gs : List (List Row)) : Row :=
  outRow (outerLevel n) (outType (innerOf n x) type) (reps n x type gs)

-- The last level of the plan: a projection when an AVG is divided there.
def finalType : Col → ColType := fun c =>
  if n.aggs.any (·.func = .avg) then
    (((projections n).find? (·.out = c)).map (·.type (outerType n x type))).getD (outerType n x type c)
  else outerType n x type c

def finalRow (gs : List (List Row)) : Row :=
  if n.aggs.any (·.func = .avg) then projRow (projections n) (outerType n x type) (outerRow n x type gs)
  else outerRow n x type gs

def cell (type : Col → ColType) (row : Row) (c : Col) : Option (Value × Nat) :=
  (row c).map fun v => (v, (type c).scale)

variable {n x type} {g : List Row} {gs : List (List Row)} {a : AggExpr} {i : Nat}

theorem find?_of_nodup {β : Type} {l : List β} {f : β → Col} (h : (l.map f).Nodup) {p : β} (hp : p ∈ l) :
    l.find? (fun b => decide (f b = f p)) = some p := by
  induction l with
  | nil => cases hp
  | cons b l ih =>
    obtain ⟨hb, hl⟩ := nodup_cons.mp h
    rcases mem_cons.mp hp with rfl | hp
    · simp
    · have hne : f b ≠ f p := fun heq => hb (heq ▸ mem_map_of_mem hp)
      simp only [find?_cons, hne]
      exact ih hl hp

theorem projections_out (n : Aggregate) : (projections n).map (·.out) = n.columns := by
  have hout : ∀ p : AggExpr × Nat,
      (if p.1.func = .avg then Projection.quotient p.1.output (.slot .avgsum p.2) (.slot .avgcnt p.2)
        else .column p.1.output).out = p.1.output := by
    intro p
    split <;> rfl
  have haggs : n.aggs.zipIdx.map (fun p => p.1.output) = n.aggs.map (·.output) := by
    have hfst := congrArg (map AggExpr.output) (zipIdx_map_fst 0 n.aggs)
    rw [map_map] at hfst
    exact hfst
  rw [projections, map_append, map_map, map_map, Aggregate.columns, ← haggs]
  congr 1
  · exact map_id _
  · exact map_congr_left fun p _ => hout p

theorem find?_projections (hn : Named n x) {p : Projection} (hp : p ∈ projections n) (c : Col)
    (hc : p.out = c) : (projections n).find? (·.out = c) = some p := by
  subst hc
  exact find?_of_nodup (by rw [projections_out]; exact hn.nodup) hp

variable {c : Col}

theorem final_column (type : Col → ColType) (gs : List (List Row)) (hn : Named n x)
    (hc : .column c ∈ projections n) :
    finalRow n x type gs c = outerRow n x type gs c ∧ finalType n x type c = outerType n x type c := by
  have hfind := find?_projections hn hc c rfl
  unfold finalRow finalType
  split
  · rw [projRow, hfind]
    exact ⟨rfl, rfl⟩
  · exact ⟨rfl, rfl⟩

theorem outerRow_agg (type : Col → ColType) (gs : List (List Row)) (hn : Named n x)
    (ha : (a, i) ∈ n.aggs.zipIdx) {q : AggExpr} (hq : q ∈ outerOf i a) :
    outerRow n x type gs q.output =
        (evalAgg (outType (innerOf n x) type) q (reps n x type gs)).join ∧
      outerType n x type q.output = aggType (outType (innerOf n x) type) q := by
  have hfind := find?_outerAggs hn ha hq
  rw [outerRow, outerType, outRow, outType, outerLevel, hfind]
  exact ⟨rfl, rfl⟩

theorem outRow_agg (type : Col → ColType) (g : List Row) (hn : Named n x) (ha : (a, i) ∈ n.aggs.zipIdx) :
    outRow n type g a.output = (evalAgg type a g).join ∧ outType n type a.output = aggType type a := by
  have hfind := find?_aggs hn ha
  rw [outRow, outType, hfind]
  exact ⟨rfl, rfl⟩

structure Split (n : Aggregate) (x : Col) (type : Col → ColType) (g : List Row) (gs : List (List Row)) :
    Prop where
  parts : Parts (· x) g gs
  keys : ∀ c ∈ n.groupBy, ∀ r ∈ g, ∀ r' ∈ g, r c = r' c
  nonempty : n.groupBy ≠ [] → g ≠ []
  numeric : ∀ a ∈ n.aggs, Numeric type a g
  carrier : ∀ a ∈ n.aggs, InCarrier type a g
  distinct : ∀ a ∈ n.aggs, a.distinct → a.func = .count ∧ a.input = some x

theorem cell_key (hn : Named n x) (h : Split n x type g gs) (hc : c ∈ n.groupBy) :
    cell (finalType n x type) (finalRow n x type gs) c = cell (outType n type) (outRow n type g) c := by
  have hproj : Projection.column c ∈ projections n := mem_append_left _ (mem_map_of_mem hc)
  obtain ⟨hrow, htype⟩ := final_column type gs hn hproj
  have hname : ∃ name, c = .user name := hn.user c (mem_cons_of_mem _ (mem_append_left _ hc))
  have hcontains : n.groupBy.contains c := by simpa using hc
  -- both levels copy the key of a row of the group
  have hone : outRow n type g c = g.head?.bind (· c) := by
    rw [outRow, find?_aggs_key hn hc]
    simp only [hcontains, if_true]
  have htwo : outerRow n x type gs c = (reps n x type gs).head?.bind (· c) := by
    rw [outerRow, outRow, outerLevel, find?_outerAggs_key hn hc]
    simp only [hcontains, if_true]
  have htypes : outerType n x type c = outType n type c := by
    obtain ⟨name, rfl⟩ := hname
    rw [outerType, outType, outerLevel, find?_outerAggs_key hn hc]
    simp only [outType, innerOf, find?_innerAggs_user, find?_aggs_key hn hc]
  have hne := h.nonempty (ne_nil_of_mem hc)
  have hgs : gs ≠ [] := fun hnil => hne (h.parts.eq_nil_iff.mp hnil)
  obtain ⟨r, g', rfl⟩ := exists_cons_of_ne_nil hne
  obtain ⟨q, gs', rfl⟩ := exists_cons_of_ne_nil hgs
  obtain ⟨r', q', rfl⟩ := exists_cons_of_ne_nil (h.parts.nonempty q mem_cons_self)
  have hsame := h.keys c hc r mem_cons_self r' (h.parts.mem mem_cons_self mem_cons_self)
  rw [cell, cell, hrow, htype, hone, htwo, htypes, reps, map_cons, head?_cons, Option.bind_some,
    outRow_key hn (mem_append_left _ hc), head?_cons, Option.bind_some, head?_cons,
    Option.bind_some, hsame]

theorem cell_nonavg (hn : Named n x) (h : Split n x type g gs) (ha : (a, i) ∈ n.aggs.zipIdx)
    (havg : a.func ≠ .avg) :
    cell (finalType n x type) (finalRow n x type gs) a.output =
        cell (outType n type) (outRow n type g) a.output ↔ CellOk type a g := by
  have hmem := mem_of_zipIdx ha
  have hproj : Projection.column a.output ∈ projections n :=
    mem_append_right _ (mem_map.mpr ⟨(a, i), ha, if_neg havg⟩)
  obtain ⟨hrow, htype⟩ := final_column type gs hn hproj
  obtain ⟨q, hq, hout, heval, hscale⟩ := combined_nonavg hn ha h.parts (h.distinct a hmem) havg
    (h.numeric a hmem) (h.carrier a hmem)
  obtain ⟨hrow₂, htype₂⟩ := outerRow_agg type gs hn ha (q := q) (by simp [hq])
  obtain ⟨hrow₁, htype₁⟩ := outRow_agg type g hn ha
  rw [hout] at hrow₂ htype₂
  rw [cell, cell, hrow, htype, hrow₂, htype₂, hrow₁, htype₁, heval, hscale]
  by_cases hlost : a.func = .count ∧ a.distinct = false ∧ g = []
  · obtain ⟨hf, hd, hg⟩ := hlost
    have hcount : evalAgg type a g = some (some (.num (counted a g))) := evalAgg_count hf hd g
    rw [if_pos ⟨hf, hd, hg⟩, hcount]
    exact iff_of_false (by simp) fun hok => hok.count hf hd hg
  · rw [if_neg hlost]
    refine iff_of_true rfl ⟨fun hf hd hg => hlost ⟨hf, hd, hg⟩, fun hf => absurd hf havg⟩

theorem distinct_of_avg (h : Split n x type g gs) (ha : a ∈ n.aggs) (havg : a.func = .avg) :
    a.distinct = false := by
  cases hd : a.distinct with
  | false => rfl
  | true =>
    rw [(h.distinct a ha hd).1] at havg
    cases havg

theorem outer_quotient (hn : Named n x) (h : Split n x type g gs) (ha : (a, i) ∈ n.aggs.zipIdx)
    (havg : a.func = .avg) (hc : a.input = some c) (ht : type c ≠ .text)
    (hs : (type c).scale ≤ 38) (hval : ∀ row ∈ g, ∀ v, row c = some v → v.num?.isSome) :
    evalQuotient (outerType n x type) (.slot .avgsum i) (.slot .avgcnt i) (outerRow n x type gs) =
        some (average (nums g c) (max (type c).scale 6 - (type c).scale)) ∧
      quotientType (outerType n x type) (.slot .avgsum i) (.slot .avgcnt i) = (38, max (type c).scale 6) := by
  have hmem := mem_of_zipIdx ha
  have hd := distinct_of_avg h hmem havg
  have hcar := h.carrier a hmem
  obtain ⟨hsum, hcnt, hsumType, hcntType⟩ := combined_avg ha hd h.parts havg hc hcar
  simp only [InCarrier, havg, hc] at hcar
  have hq : outerOf i a = combined i a := by simp [outerOf, hd]
  obtain ⟨hrow₁, htype₁⟩ := outerRow_agg type gs hn ha
    (q := { func := .sum, input := some (.slot .avgsum i), output := .slot .avgsum i })
    (by simp [hq, combined, havg])
  obtain ⟨hrow₂, htype₂⟩ := outerRow_agg type gs hn ha
    (q := { func := .sum, input := some (.slot .avgcnt i), output := .slot .avgcnt i })
    (by simp [hq, combined, havg])
  rw [hsum] at hrow₁
  rw [hcnt] at hrow₂
  rw [hsumType] at htype₁
  rw [hcntType] at htype₂
  refine evalQuotient_avg ht hs htype₁ htype₂ hrow₁ (fun hne => ?_) (length_nums_lt hcar.1) hcar.2.2
  have hgs : gs.isEmpty = false := by
    rw [Bool.eq_false_iff, ne_eq, List.isEmpty_iff, h.parts.eq_nil_iff]
    rintro rfl
    exact hne rfl
  rw [hrow₂, hgs, present_length hval]
  rfl

theorem cell_avg (hn : Named n x) (h : Split n x type g gs) (ha : (a, i) ∈ n.aggs.zipIdx)
    (havg : a.func = .avg) :
    cell (finalType n x type) (finalRow n x type gs) a.output =
        cell (outType n type) (outRow n type g) a.output ↔ CellOk type a g := by
  have hmem := mem_of_zipIdx ha
  obtain ⟨c, hc, ht, hs, hval⟩ := (h.numeric a hmem).input (by simp [havg])
  have hcar := h.carrier a hmem
  simp only [InCarrier, havg, hc] at hcar
  obtain ⟨hquot, hqtype⟩ := outer_quotient hn h ha havg hc ht hs hval
  have hproj : Projection.quotient a.output (.slot .avgsum i) (.slot .avgcnt i) ∈ projections n :=
    mem_append_right _ (mem_map.mpr ⟨(a, i), ha, if_pos havg⟩)
  have hfind := find?_projections hn hproj a.output rfl
  have hany : n.aggs.any (·.func = .avg) := by
    rw [any_eq_true]
    exact ⟨a, hmem, by simp [havg]⟩
  have hfinal : finalRow n x type gs a.output = average (nums g c) (max (type c).scale 6 - (type c).scale) := by
    rw [finalRow, if_pos hany, projRow, hfind, Option.bind_some, Projection.eval, hquot]
    rfl
  have hfinalType : (finalType n x type a.output).scale = max (type c).scale 6 := by
    rw [finalType, if_pos hany, hfind, Option.map_some, Projection.type, hqtype]
    rfl
  obtain ⟨hone, honeType⟩ := outRow_agg type g hn ha
  have htypeOne : (aggType type a).scale = avgScale (type c).scale := by
    simp only [aggType, havg, hc]
    exact avgType_scale _ ht
  rw [cell, cell, hfinal, hfinalType, hone, honeType, htypeOne, evalAgg_avg havg hc,
    avgOf_eq _ ht _ (length_nums_lt hcar.1) hcar.2.2, Option.join_some, average_eq_iff _ _ hs]
  constructor
  · intro hscale
    refine ⟨fun hf => absurd (havg.symm.trans hf) (by simp), fun _ c' hc' hne => ?_⟩
    obtain rfl : c = c' := Option.some.inj (hc.symm.trans hc')
    exact hscale hne
  · intro hok hne
    exact hok.avg havg c hc hne

theorem cells_iff (hn : Named n x) (h : Split n x type g gs) :
    n.columns.map (cell (finalType n x type) (finalRow n x type gs)) =
        n.columns.map (cell (outType n type) (outRow n type g)) ↔
      ∀ a ∈ n.aggs, CellOk type a g := by
  have hcell : ∀ a ∈ n.aggs, cell (finalType n x type) (finalRow n x type gs) a.output =
      cell (outType n type) (outRow n type g) a.output ↔ CellOk type a g := by
    intro a ha
    obtain ⟨i, hi⟩ := getElem?_of_mem ha
    have hidx : (a, i) ∈ n.aggs.zipIdx := mk_mem_zipIdx_iff_getElem?.mpr hi
    by_cases havg : a.func = .avg
    · exact cell_avg hn h hidx havg
    · exact cell_nonavg hn h hidx havg
  rw [map_inj_left, Aggregate.columns, forall_mem_append, forall_mem_map, forall₂_congr hcell]
  exact and_iff_right fun c => cell_key hn h

end Final

section Groups

variable {n : Aggregate} {x : Col} {type : Col → ColType} {rows : List Row}

def innerGroups (n : Aggregate) (x : Col) (rows : List Row) : List (List Row) :=
  (groups eqKey (fun row => (n.groupBy ++ [x]).map row) rows).map (·.2)

theorem groupsOf_inner : groupsOf (n.groupBy ++ [x]) rows = innerGroups n x rows := by
  rw [groupsOf, if_neg (by simp)]
  rfl

theorem key_rep (hn : Named n x) {q : List Row} (hq : q ∈ innerGroups n x rows) {r : Row} (hr : r ∈ q) :
    n.groupBy.map (outRow (innerOf n x) type q) = n.groupBy.map r := by
  have hparts := parts_groups (fun row => (n.groupBy ++ [x]).map row) rows
  refine map_congr_left fun c hc => ?_
  obtain ⟨r', q', rfl⟩ := exists_cons_of_ne_nil (hparts.nonempty q hq)
  rw [outRow_key hn (mem_append_left _ hc), head?_cons]
  exact map_inj_left.mp (hparts.const _ hq r' mem_cons_self r hr) c (mem_append_left _ hc)

theorem exists_pairs (type : Col → ColType) (rows : List Row) (hn : Named n x) :
    ∃ ps : List (List Row × List (List Row)),
      (ps.map (·.1)).Perm (groupsOf n.groupBy rows) ∧
      ps.map (fun p => reps n x type p.2) = groupsOf n.groupBy (reps n x type (innerGroups n x rows)) ∧
      (n.groupBy = [] → ps = [(rows, innerGroups n x rows)]) ∧
      ∀ p ∈ ps, Parts (· x) p.1 p.2 ∧ p.1.Sublist rows ∧
        (∀ c ∈ n.groupBy, ∀ r ∈ p.1, ∀ r' ∈ p.1, r c = r' c) ∧ (n.groupBy ≠ [] → p.1 ≠ []) := by
  have hparts : Parts (fun row : Row => (n.groupBy ++ [x]).map row) rows (innerGroups n x rows) :=
    parts_groups (fun row => (n.groupBy ++ [x]).map row) rows
  by_cases hk : n.groupBy = []
  · refine ⟨[(rows, innerGroups n x rows)], ?_, ?_, fun _ => rfl, ?_⟩
    · simp [groupsOf, hk]
    · simp [groupsOf, hk]
    · intro p hp
      obtain rfl := mem_singleton.mp hp
      refine ⟨hparts.of_key fun r _ r' _ => by simp [hk], List.Sublist.refl _, by simp [hk],
        fun h => absurd hk h⟩
  · have hcont : n.groupBy.isEmpty = false := by simpa using hk
    -- a key is met among the rows exactly when it is met among the parts
    have hkeys : ∀ k, k ∈ (reps n x type (innerGroups n x rows)).map (fun row => n.groupBy.map row) ↔
        k ∈ rows.map (fun row : Row => n.groupBy.map row) := by
      intro k
      rw [reps, map_map, mem_map, mem_map]
      constructor
      · rintro ⟨q, hq, rfl⟩
        obtain ⟨r, hr⟩ := exists_mem_of_ne_nil q (hparts.nonempty q hq)
        exact ⟨r, hparts.mem hq hr, (key_rep hn hq hr).symm⟩
      · rintro ⟨r, hr, rfl⟩
        obtain ⟨q, hq, hrq⟩ := mem_flatten.mp (hparts.perm.mem_iff.mpr hr)
        exact ⟨q, hq, key_rep hn hq hrq⟩
    refine ⟨(distinctBy eqKey ((reps n x type (innerGroups n x rows)).map fun row => n.groupBy.map row)).map
      fun k => (rows.filter fun r => eqKey k (n.groupBy.map r),
        (innerGroups n x rows).filter fun q => eqKey k (n.groupBy.map (outRow (innerOf n x) type q))),
      ?_, ?_, fun h => absurd h hk, ?_⟩
    · rw [groupsOf, hcont, groups, map_map, map_map]
      exact (distinctBy_perm hkeys).map _
    · rw [groupsOf, hcont, groups, map_map, map_map]
      simp only [reps, filter_map]
      rfl
    · intro p hp
      obtain ⟨k, hkmem, rfl⟩ := mem_map.mp hp
      have hsame : ∀ r ∈ rows.filter fun r => eqKey k (n.groupBy.map r), n.groupBy.map r = k :=
        fun r hr => (of_decide_eq_true (mem_filter.mp hr).2).symm
      refine ⟨?_, filter_sublist, fun c hc r hr r' hr' => ?_, fun _ => ?_⟩
      · refine (hparts.restrict (fun r => eqKey k (n.groupBy.map r)) _ fun q hq r hr => ?_).of_key ?_
        · rw [key_rep hn hq hr]
        · intro r hr r' hr'
          rw [map_append, map_append, hsame r hr, hsame r' hr']
          simp
      · exact map_inj_left.mp ((hsame r hr).trans (hsame r' hr').symm) c hc
      · obtain ⟨r, hr, hkey⟩ := mem_map.mp ((hkeys k).mp ((mem_distinctBy _ k).mp hkmem))
        exact ne_nil_of_mem (mem_filter.mpr ⟨hr, by simp [eqKey, hkey]⟩)

end Groups

structure QueryNames (n : Aggregate) : Prop where
  nodup : n.columns.Nodup
  user : ∀ c ∈ n.columns ++ n.aggs.filterMap (·.input), ∃ name, c = .user name

structure Rewrites (n : Aggregate) (x : Col) : Prop where
  distinct : ∀ a ∈ n.aggs, a.distinct → a.func = .count ∧ a.input = some x
  source : x ∈ n.aggs.filterMap (·.input)
  fresh : x ∉ n.groupBy
  alone : n.groupBy ≠ [] → ∀ a ∈ n.aggs, a.distinct

variable (U : Unicode) (intCols : Option (List String))

theorem alone_of_gate (n : Aggregate) (x : Col) (d : AggExpr)
    (hd : d ∈ n.aggs.filter (·.distinct)) (hgate : groupGate U intCols n x) (hk : n.groupBy ≠ []) :
    ∀ a ∈ n.aggs, a.distinct := by
  unfold groupGate at hgate
  rw [Bool.or_eq_true, List.isEmpty_iff] at hgate
  rcases hgate with hgate | hgate
  · exact absurd hgate hk
  split at hgate
  · cases hgate
  · rw [Bool.and_eq_true, decide_eq_true_eq] at hgate
    obtain ⟨hdmem, hddist⟩ := mem_filter.mp hd
    intro a ha
    obtain ⟨b, hb⟩ := length_eq_one_iff.mp
      (Nat.le_antisymm hgate.2 (length_pos_of_mem hdmem))
    rw [hb, mem_singleton] at ha hdmem
    rw [ha, ← hdmem]
    exact hddist

theorem not_mem_of_equalFold (cols : List Col) (x : Col)
    (h : cols.any (Col.equalFold U · x) = false) : x ∉ cols := by
  intro hx
  have hself := any_eq_false.mp h x hx
  cases x <;> simp [Col.equalFold, Unicode.equalFold] at hself

theorem rewrite_cases (n : Aggregate) (plan : Plan)
    (h : rewriteCountDistinctTwoLevel U intCols n = plan) (hne : plan ≠ .one n) :
    ∃ x, Rewrites n x ∧ plan =
      if n.aggs.any (·.func = .avg) then .averaged (innerOf n x) (outerLevel n) (projections n)
      else .two (innerOf n x) (outerLevel n) := by
  unfold rewriteCountDistinctTwoLevel at h
  split at h
  · exact absurd h.symm hne
  · split at h
    next d hd =>
      have hdmem : d ∈ n.aggs.filter (·.distinct) := hd ▸ mem_singleton_self d
      have hmem : ∀ a ∈ n.aggs, a.distinct → a = d := fun a ha hdist =>
        mem_singleton.mp (hd ▸ mem_filter.mpr ⟨ha, hdist⟩)
      split at h
      next x hfunc hinput =>
        split at h
        next hgate =>
          rw [Bool.and_eq_true, Bool.and_eq_true, Bool.not_eq_true'] at hgate
          have hplan : plan =
              if n.aggs.any (·.func = .avg) then .averaged (innerOf n x) (outerLevel n) (projections n)
              else .two (innerOf n x) (outerLevel n) := by
            rw [← h, innerOf, outerLevel]
          have hdistinct : ∀ a ∈ n.aggs, a.distinct → a.func = .count ∧ a.input = some x := by
            intro a ha hdist
            rw [hmem a ha hdist]
            exact ⟨hfunc, hinput⟩
          exact ⟨x, ⟨hdistinct, mem_filterMap.mpr ⟨d, (mem_filter.mp hdmem).1, hinput⟩,
            not_mem_of_equalFold U n.groupBy x hgate.2, alone_of_gate U intCols n x d hdmem hgate.1.2⟩, hplan⟩
        next => exact absurd h.symm hne
      next => exact absurd h.symm hne
    next => exact absurd h.symm hne

variable {n : Aggregate} {x : Col} {type : Col → ColType} {rows : List Row}

theorem evalAggregate_eq_some {m : Aggregate} {r : Relation}
    (h : ∀ g ∈ groupsOf m.groupBy r.rows, ∀ a ∈ m.aggs, (evalAgg r.type a g).isSome) :
    evalAggregate m r = some ⟨outType m r.type, (groupsOf m.groupBy r.rows).map (outRow m r.type)⟩ := by
  rw [evalAggregate, if_pos]
  rw [all_eq_true]
  intro g hg
  rw [all_eq_true]
  exact h g hg

theorem inner_evaluates (hsome : ∀ q ∈ innerGroups n x rows, ∀ a ∈ n.aggs, Numeric type a q ∧ InCarrier type a q) :
    evalAggregate (innerOf n x) ⟨type, rows⟩ =
      some ⟨outType (innerOf n x) type, reps n x type (innerGroups n x rows)⟩ := by
  have hgroups : groupsOf (innerOf n x).groupBy rows = innerGroups n x rows := groupsOf_inner
  rw [evalAggregate_eq_some]
  · rw [hgroups]
    rfl
  · intro q hq p hp
    rw [hgroups] at hq
    obtain ⟨⟨a, i⟩, ha, hp⟩ := mem_flatMap.mp hp
    dsimp only at hp
    split at hp
    · cases hp
    next hd =>
      obtain ⟨hnum, hcar⟩ := hsome q hq a (mem_of_zipIdx ha)
      exact partial_isSome (Bool.not_eq_true _ ▸ hd) hp hnum hcar

variable {ps : List (List Row × List (List Row))}

theorem outer_evaluates (hn : Named n x)
    (hps : ps.map (fun p => reps n x type p.2) = groupsOf n.groupBy (reps n x type (innerGroups n x rows)))
    (hsplit : ∀ p ∈ ps, Split n x type p.1 p.2) :
    evalAggregate (outerLevel n) ⟨outType (innerOf n x) type, reps n x type (innerGroups n x rows)⟩ =
      some ⟨outerType n x type, ps.map fun p => outerRow n x type p.2⟩ := by
  have hgroups : groupsOf (outerLevel n).groupBy (reps n x type (innerGroups n x rows)) =
      ps.map fun p => reps n x type p.2 := hps.symm
  rw [evalAggregate_eq_some]
  · rw [hgroups, map_map]
    rfl
  · intro g hg q hq
    rw [hgroups] at hg
    obtain ⟨p, hp, rfl⟩ := mem_map.mp hg
    obtain ⟨⟨a, i⟩, ha, hq⟩ := mem_flatMap.mp hq
    have hs := hsplit p hp
    have hmem := mem_of_zipIdx ha
    have hq : q ∈ outerOf i a := hq
    by_cases havg : a.func = .avg
    · obtain ⟨c, hc, -⟩ := (hs.numeric a hmem).input (by simp [havg])
      have hd := distinct_of_avg hs hmem havg
      obtain ⟨hsum, hcnt, -⟩ := combined_avg ha hd hs.parts havg hc (hs.carrier a hmem)
      simp only [outerOf, hd, Bool.false_eq_true, if_false, combined, havg, mem_cons,
        not_mem_nil, or_false] at hq
      rcases hq with rfl | rfl
      · rw [hsum]
        rfl
      · rw [hcnt]
        rfl
    · obtain ⟨q', hq', -, heval, -⟩ := combined_nonavg hn ha hs.parts (hs.distinct a hmem) havg
        (hs.numeric a hmem) (hs.carrier a hmem)
      rw [hq', mem_singleton] at hq
      rw [hq, heval]
      rfl

theorem project_evaluates (hn : Named n x)
    (hsplit : ∀ p ∈ ps, Split n x type p.1 p.2) :
    evalProject (projections n) ⟨outerType n x type, ps.map fun p => outerRow n x type p.2⟩ =
      some ⟨fun c => (((projections n).find? (·.out = c)).map (·.type (outerType n x type))).getD
          (outerType n x type c),
        ps.map fun p => projRow (projections n) (outerType n x type) (outerRow n x type p.2)⟩ := by
  rw [evalProject, if_pos, map_map]
  · rfl
  · rw [all_eq_true]
    intro row hrow
    obtain ⟨p, hp, rfl⟩ := mem_map.mp hrow
    rw [all_eq_true]
    intro proj hproj
    rcases mem_append.mp hproj with hproj | hproj
    · obtain ⟨c, -, rfl⟩ := mem_map.mp hproj
      rfl
    obtain ⟨⟨a, i⟩, ha, rfl⟩ := mem_map.mp hproj
    dsimp only
    by_cases havg : a.func = .avg
    · obtain ⟨c, hc, ht, hs, hval⟩ := ((hsplit p hp).numeric a (mem_of_zipIdx ha)).input (by simp [havg])
      rw [if_pos havg, Projection.eval, (outer_quotient hn (hsplit p hp) ha havg hc ht hs hval).1]
      rfl
    · rw [if_neg havg]
      rfl

theorem plan_evaluates (hn : Named n x)
    (hinner : ∀ q ∈ innerGroups n x rows, ∀ a ∈ n.aggs, Numeric type a q ∧ InCarrier type a q)
    (hps : ps.map (fun p => reps n x type p.2) = groupsOf n.groupBy (reps n x type (innerGroups n x rows)))
    (hsplit : ∀ p ∈ ps, Split n x type p.1 p.2) :
    (if n.aggs.any (·.func = .avg) then Plan.averaged (innerOf n x) (outerLevel n) (projections n)
      else .two (innerOf n x) (outerLevel n)).eval ⟨type, rows⟩ =
      some ⟨finalType n x type, ps.map fun p => finalRow n x type p.2⟩ := by
  unfold finalType finalRow
  split
  · rw [Plan.eval, inner_evaluates hinner, Option.bind_some, outer_evaluates hn hps hsplit, Option.bind_some,
      project_evaluates hn hsplit]
  · rw [Plan.eval, inner_evaluates hinner, Option.bind_some, outer_evaluates hn hps hsplit]

def besideDistinct (a : AggExpr) : Aggregate where
  groupBy := []
  aggs := [{ func := .count, input := some (.user "x"), output := .user "d", distinct := true }, a]

def bigints (rows : List (Int × Int)) : Relation where
  type := fun _ => .int64
  rows := rows.map fun p c =>
    if c = .user "x" then some (.num p.1) else if c = .user "v" then some (.num p.2) else none

def countStar : AggExpr := { func := .count, input := none, output := .user "n" }

def sumV : AggExpr := { func := .sum, input := some (.user "v"), output := .user "s" }

def avgV : AggExpr := { func := .avg, input := some (.user "v"), output := .user "m" }

end Wadjet.Logical.CountDistinct
