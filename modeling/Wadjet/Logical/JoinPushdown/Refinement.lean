import Mathlib.Data.List.ReduceOption
import Wadjet.Logical.JoinPushdown.Rows

namespace Wadjet.Logical.JoinPushdown

open Wadjet.Sql Wadjet.Data List Option

section Attribution

variable {V : Type} (I : Interp V)

-- A term that the walk takes for one of a side reads nothing but that side: what it names
-- only under ANY/ALL, ARRAY, a row value or a window is there too, and is no subquery.
def Seen (sides : List (List String)) (n : Node) : Prop :=
  ∀ side ∈ sides, n.walk Node.subqueryLeaf collectInto = [] → (∃ r, r ∈ n.walk Node.refLeaf collectInto) →
    (∀ r ∈ n.walk Node.refLeaf collectInto, r.1 ∈ side) → (∀ r ∈ n.refs, r.1 ∈ side) ∧ n.subqueryTexts = []

-- What is assumed of every term: its references are qualified, and if it is
-- taken for rejecting NULLs it does.
structure Accepted (n : Node) : Prop where
  qualified : ∀ r ∈ n.refs, r.1 ≠ ""
  rejects : exprRejectsNulls n → ∀ ρ : Row V, NullOn ρ n → n.truth I ρ ≠ .true

variable {I} {n : Node} {sides : List (List String)} {side : List String}

theorem Seen.of_predicateTableRefs (h : Seen sides n) (hside : side ∈ sides)
    (hq : ∀ r ∈ n.refs, r.1 ≠ "") (U : Unicode) (colToTable : List (String × String)) {table : String}
    {tables : List String}
    (hrefs : predicateTableRefs U colToTable n = some (table :: tables))
    (hall : (table :: tables).all side.contains) : (∀ r ∈ n.refs, r.1 ∈ side) ∧ n.subqueryTexts = [] := by
  unfold predicateTableRefs at hrefs
  dsimp only at hrefs
  split at hrefs
  next hsome =>
    replace hrefs := some.inj hrefs
    refine h side hside ?_ ?_ fun r hr => ?_
    · rw [eq_nil_iff_forall_not_mem]
      intro s hs
      have hnone : none ∈ collectColTableRefs U colToTable n := by
        refine Node.mem_walk_of_leaf collectInto (fun m hm => ?_) hs
        cases m with
        | subquery sql array => exact mem_singleton_self _
        | «exists» negated sql => exact mem_singleton_self _
        | _ => cases hm
      have hsome := all_eq_true.mp hsome none hnone
      cases hsome
    · have hmem : some table ∈ collectColTableRefs U colToTable n := by
        rw [← reduceOption_mem_iff, hrefs]
        exact mem_cons_self
      obtain ⟨r, hr, -⟩ := @Node.exists_mem_walk _ _ _ _ Node.refLeaf collectInto _ (fun _ => True) (fun m hm => by
        cases m with
        | colRef table column => exact ⟨(table, column), mem_singleton_self _, trivial⟩
        | subquery | «exists» => simp [collectLeaf] at hm
        | _ => cases hm) hmem
      exact ⟨r, hr⟩
    · have hmem : some r.1 ∈ collectColTableRefs U colToTable n := by
        have hqualified := hq r (Node.mem_walk_of_into hr)
        refine Node.mem_walk_of_leaf collectInto (fun m hm => ?_) hr
        cases m with
        | colRef table column =>
          obtain rfl := mem_singleton.mp hm
          simp [collectLeaf, show table ≠ "" from hqualified]
        | _ => cases hm
      rw [← reduceOption_mem_iff, hrefs] at hmem
      simpa using all_eq_true.mp hall r.1 hmem
  next => cases hrefs

variable (U : Unicode) (kind : JoinKind) (left right : Plan)

structure Reads (n : Node) (tables : List String) (padded : Bool) : Prop where
  refs : ∀ r ∈ n.refs, r.1 ∈ tables
  subqueries : n.subqueryTexts = []
  rejects : padded → exprRejectsNulls n

theorem reads_of_placement (hs : Seen sides n) (hq : ∀ r ∈ n.refs, r.1 ≠ "") :
    (left.tables ∈ sides → placement U kind left right n = .left → Reads n left.tables kind.padsLeft) ∧
    (right.tables ∈ sides → placement U kind left right n = .right → Reads n right.tables kind.padsRight) := by
  unfold placement
  dsimp only
  split
  · exact ⟨nofun, nofun⟩
  · exact ⟨nofun, nofun⟩
  next table tables hrefs =>
    split_ifs with hall hrej hall hrej
    · refine ⟨fun hside _ => ?_, nofun⟩
      obtain ⟨hmem, hsub⟩ := hs.of_predicateTableRefs hside hq U _ hrefs hall
      refine ⟨hmem, hsub, fun hpad => ?_⟩
      cases kind <;> simp_all [nullSupplyingSides, JoinKind.padsLeft]
    · exact ⟨nofun, nofun⟩
    · rw [Bool.and_eq_true] at hall
      refine ⟨nofun, fun hside _ => ?_⟩
      obtain ⟨hmem, hsub⟩ := hs.of_predicateTableRefs hside hq U _ hrefs hall.1
      refine ⟨hmem, hsub, fun hpad => ?_⟩
      cases kind <;> simp_all [nullSupplyingSides, JoinKind.padsRight]
    · exact ⟨nofun, nofun⟩
    · exact ⟨nofun, nofun⟩

variable {left right} {padded : Bool}

theorem toLeft_of_mem {table : String} (h : table ∈ left.tables) (column : String) :
    left.toLeft right table column := by
  simp [Plan.toLeft, h]

theorem toLeft_of_mem_right (hdisj : left.tables.Disjoint right.tables) {table : String} (h : table ∈ right.tables)
    (column : String) : left.toLeft right table column = false := by
  have hnot : table ∉ left.tables := fun hmem => hdisj hmem h
  simp [Plan.toLeft, h, hnot]

theorem Reads.truth_left (h : Reads n left.tables padded) (ρ : Row V) (o : Option (Row V)) :
    n.truth I (merge (left.toLeft right) (some ρ, o)) = n.truth I ρ := by
  refine AgreeOn.truth ⟨fun r hr => ?_, by simp [h.subqueries]⟩
  rw [merge, if_pos (toLeft_of_mem (h.refs r hr) _), bind_some]

theorem Reads.nullOn_left (h : Reads n left.tables padded) (o : Option (Row V)) :
    NullOn (merge (left.toLeft right) (none, o)) n := by
  intro r hr
  rw [merge, if_pos (toLeft_of_mem (h.refs r hr) _), bind_none]

section

variable (h : Reads n right.tables padded) (hdisj : left.tables.Disjoint right.tables)

include h hdisj

theorem Reads.truth_right (ρ : Row V) (o : Option (Row V)) :
    n.truth I (merge (left.toLeft right) (o, some ρ)) = n.truth I ρ := by
  refine AgreeOn.truth ⟨fun r hr => ?_, by simp [h.subqueries]⟩
  rw [merge, toLeft_of_mem_right hdisj (h.refs r hr), if_neg Bool.false_ne_true, bind_some]

theorem Reads.nullOn_right (o : Option (Row V)) : NullOn (merge (left.toLeft right) (o, none)) n := by
  intro r hr
  rw [merge, toLeft_of_mem_right hdisj (h.refs r hr), if_neg Bool.false_ne_true, bind_none]

end

theorem partHolds_eq (ns : List Node) (part : Option (Row V)) (ρ : Row V)
    (hsome : ∀ σ, part = some σ → ∀ n ∈ ns, n.truth I ρ = n.truth I σ)
    (hnone : part = none → ∀ n ∈ ns, n.truth I ρ ≠ .true) : partHolds I ns part = holds I ns ρ := by
  cases ns with
  | nil => rfl
  | cons n ns =>
    cases part with
    | some σ =>
      rw [holds_congr I (n :: ns) ρ σ (hsome σ rfl)]
      simp [partHolds]
    | none =>
      have hn := hnone rfl n (by simp)
      simp [partHolds, holds, hn]

theorem passes_eq_holds (flat : List Node) (hdisj : left.tables.Disjoint right.tables)
    (hflat : ∀ n ∈ flat, Seen sides n ∧ Accepted I n) (hleft : left.tables ∈ sides)
    (hright : kind.answersLeft = false → right.tables ∈ sides) (on : Row V → Row V → Bool)
    (xs ys : List (Row V)) (r : Option (Row V) × Option (Row V))
    (hr : r ∈ join on kind xs ys) :
    passes I (placement U kind left right) (left.toLeft right) flat r =
      holds I flat (merge (left.toLeft right) r) := by
  obtain ⟨r₁, r₂⟩ := r
  have hl : ∀ n ∈ flat.filter (placement U kind left right · = .left),
      Reads n left.tables kind.padsLeft ∧ Accepted I n := by
    intro n hn
    obtain ⟨hmem, hside⟩ := mem_filter.mp hn
    obtain ⟨hseen, hacc⟩ := hflat n hmem
    exact ⟨(reads_of_placement U kind left right hseen hacc.qualified).1 hleft (of_decide_eq_true hside), hacc⟩
  have hrt : ∀ n ∈ flat.filter (placement U kind left right · = .right),
      Reads n right.tables kind.padsRight ∧ Accepted I n ∧ kind.answersLeft = false := by
    intro n hn
    obtain ⟨hmem, hside⟩ := mem_filter.mp hn
    obtain ⟨hseen, hacc⟩ := hflat n hmem
    have hanswers := placement_right_answers U kind left right n (of_decide_eq_true hside)
    exact ⟨(reads_of_placement U kind left right hseen hacc.qualified).2 (hright hanswers) (of_decide_eq_true hside),
      hacc, hanswers⟩
  rw [passes, holds_placed I (placement U kind left right) flat]
  congr 2
  · refine partHolds_eq _ _ _ (fun σ hσ n hn => ?_) (fun hnone n hn => ?_)
    · obtain rfl : r₁ = some σ := hσ
      exact (hl n hn).1.truth_left σ r₂
    · obtain rfl : r₁ = none := hnone
      have hpad := padsLeft_of_mem on kind xs ys r₂ hr
      exact (hl n hn).2.rejects ((hl n hn).1.rejects hpad) _ ((hl n hn).1.nullOn_left r₂)
  · refine partHolds_eq _ _ _ (fun σ hσ n hn => ?_) (fun hnone n hn => ?_)
    · obtain rfl : r₂ = some σ := hσ
      exact (hrt n hn).1.truth_right hdisj σ r₁
    · obtain rfl : r₂ = none := hnone
      obtain ⟨hreads, hacc, hanswers⟩ := hrt n hn
      have hpad := padsRight_of_mem on kind hanswers xs ys r₁ hr
      exact hacc.rejects (hreads.rejects hpad) _ (hreads.nullOn_right hdisj r₁)

end Attribution

variable {V : Type} (I : Interp V)

-- The inputs of joins that a predicate above the plan may move to.
def Plan.sides : Plan → List (List String)
  | .scan _ _ => []
  | .filter _ child => child.sides
  | .join kind _ left right =>
    left.tables :: (left.sides ++ if kind.answersLeft then [] else right.tables :: right.sides)

def TermsOk (sides : List (List String)) (preds : List Node) : Prop :=
  ∀ p ∈ preds, ∀ n ∈ flattenANDNodes p, Seen sides n ∧ Accepted I n

-- The relations of a join answer to different names, and every predicate of
-- the plan is seen.
def Plan.Ok : Plan → Prop
  | .scan _ _ => True
  | .filter preds child => TermsOk I child.sides preds ∧ child.Ok
  | .join kind cond left right =>
    TermsOk I (Plan.join kind cond left right).sides cond ∧ left.tables.Disjoint right.tables ∧ left.Ok ∧ right.Ok

-- Plans that differ in their predicates, and in kinds of join that answer alike.
structure Alike (n n' : Plan) : Prop where
  tables : n'.tables = n.tables
  columns : n'.columns = n.columns
  sides : n'.sides = n.sides

structure Refines (n n' : Plan) : Prop where
  ok : n'.Ok I
  alike : Alike n n'
  rows : ∀ db, (n'.rows I db).Perm (n.rows I db)

variable {I}

theorem Alike.refl (n : Plan) : Alike n n := ⟨rfl, rfl, rfl⟩

theorem Alike.filtered {n n' : Plan} {preds : List Node} (h : Alike n n') : Alike (.filter preds n) n' :=
  ⟨h.tables, h.columns, h.sides⟩

theorem Alike.unfiltered {n n' : Plan} {preds : List Node} (h : Alike (.filter preds n) n') : Alike n n' :=
  ⟨h.tables, h.columns, h.sides⟩

section

variable {l l' r r' : Plan} (hl : Alike l l') (hr : Alike r r')

include hl hr

theorem Alike.join {kind kind' : JoinKind} (hkind : kind'.answersLeft = kind.answersLeft) (cond cond' : List Node) :
    Alike (.join kind cond l r) (.join kind' cond' l' r') := by
  constructor <;>
    simp [Plan.tables, Plan.columns, Plan.sides, hl.tables, hl.columns, hl.sides, hr.tables,
        hr.columns, hr.sides, hkind]

theorem Alike.toLeft : l'.toLeft r' = l.toLeft r := by
  funext table column
  simp [Plan.toLeft, hl.tables, hl.columns, hr.tables]

end

theorem flattenANDNodes_flat (n : Node) : ∀ m ∈ flattenANDNodes n, flattenANDNodes m = [m] := by
  fun_induction flattenANDNodes n with
  | case1 l r ihl ihr =>
    intro m hm
    exact (mem_append.mp hm).elim (ihl m) (ihr m)
  | case2 l r ihl ihr =>
    intro m hm
    exact (mem_append.mp hm).elim (ihl m) (ihr m)
  | case3 n h₁ h₂ =>
    intro m hm
    obtain rfl := mem_singleton.mp hm
    unfold flattenANDNodes
    split
    · exact absurd rfl (h₁ _ _)
    · exact absurd rfl (h₂ _ _)
    · rfl

variable {preds : List Node}

section

variable {sides sides' : List (List String)}

theorem TermsOk.nil : TermsOk I sides [] := fun _ hp => absurd hp not_mem_nil

theorem TermsOk.mono (h : TermsOk I sides preds) (hsub : sides' ⊆ sides) : TermsOk I sides' preds :=
  fun p hp n hn => ⟨fun side hside => (h p hp n hn).1 side (hsub hside), (h p hp n hn).2⟩

theorem TermsOk.flatten (h : TermsOk I sides preds) {n : Node}
    (hn : n ∈ preds.flatMap flattenANDNodes) : Seen sides n ∧ Accepted I n := by
  obtain ⟨p, hp, hmem⟩ := mem_flatMap.mp hn
  exact h p hp n hmem

theorem TermsOk.of_flatten {ns : List Node} (h : TermsOk I sides preds)
    (hns : ∀ n ∈ ns, n ∈ preds.flatMap flattenANDNodes) : TermsOk I sides ns := by
  intro n hn m hm
  obtain ⟨p, hp, hmem⟩ := mem_flatMap.mp (hns n hn)
  rw [flattenANDNodes_flat p n hmem, mem_singleton] at hm
  exact hm ▸ h p hp n hmem

theorem TermsOk.append {ns ms : List Node} (hn : TermsOk I sides ns) (hm : TermsOk I sides ms) :
    TermsOk I sides (ns ++ ms) :=
  fun p hp => (mem_append.mp hp).elim (hn p) (hm p)

theorem TermsOk.filter_flatten (h : TermsOk I sides preds) (keep : Node → Bool) :
    TermsOk I sides ((preds.flatMap flattenANDNodes).filter keep) :=
  h.of_flatten fun _ hn => (mem_filter.mp hn).1

theorem TermsOk.residuals {cond : List Node} (h : TermsOk I sides cond) (kind : JoinKind) :
    TermsOk I sides (takeJoinCondResiduals kind cond).2.1 ∧
        TermsOk I sides (takeJoinCondResiduals kind cond).2.2 := by
  unfold takeJoinCondResiduals
  cases kind with
  | left | right | full | semi | anti => exact ⟨h, .nil⟩
  | inner | cross =>
    dsimp only
    split
    · exact ⟨h, .nil⟩
    · split
      · exact ⟨.nil, h.filter_flatten _⟩
      · exact ⟨h.filter_flatten _, h.filter_flatten _⟩

end

-- A side takes the terms that may move to it; the build side of a semi or anti join none.
theorem TermsOk.onLeft {kind : JoinKind} {cond : List Node} {left right : Plan}
    (h : TermsOk I (Plan.join kind cond left right).sides preds) : TermsOk I left.sides preds :=
  h.mono fun _ hside => mem_cons_of_mem _ (mem_append_left _ hside)

theorem TermsOk.onRight {kind : JoinKind} {cond : List Node} {left right : Plan} {ns : List Node}
    (h : TermsOk I (Plan.join kind cond left right).sides ns) (hkind : ns ≠ [] → kind.answersLeft = false) :
    TermsOk I right.sides ns := by
  cases ns with
  | nil => exact .nil
  | cons n ns =>
    refine h.mono fun side hside => mem_cons_of_mem _ (mem_append_right _ ?_)
    rw [hkind (cons_ne_nil n ns)]
    exact mem_cons_of_mem _ hside

variable (U : Unicode) {rec : Plan → Option Plan}

theorem wrapChild_refines (hrec : ∀ n n', n.Ok I → rec n = some n' → Refines I n n') (preds : List Node)
    (child child' : Plan) (hpreds : TermsOk I child.sides preds) (hchild : child.Ok I)
    (h : wrapChild rec preds child = some child') : Refines I (.filter preds child) child' := by
  unfold wrapChild at h
  split at h
  next hnil =>
    obtain rfl := some.inj h
    rw [List.isEmpty_iff] at hnil
    subst hnil
    refine ⟨hchild, (Alike.refl child).filtered, fun db => ?_⟩
    rw [Plan.rows, filter_holds_nil]
  next => exact hrec _ _ ⟨hpreds, hchild⟩ h

theorem answersLeft_residuals (kind : JoinKind) (cond : List Node) :
    (takeJoinCondResiduals kind cond).1.answersLeft = kind.answersLeft := by
  unfold takeJoinCondResiduals
  cases kind <;> dsimp only <;> split_ifs <;> rfl

theorem answersLeft_split (preds : List Node) (kind : JoinKind) (cond : List Node) (left right : Plan) :
    (splitFilter U preds kind cond left right).kind.answersLeft = kind.answersLeft := by
  simp only [splitFilter]
  split
  · rw [answersLeft_residuals, demoteJoinKind_eq]
    cases kind <;> split_ifs <;> rfl
  · rfl

theorem rows_filter_or (ns : List Node) (n : Plan) (db : List String → List (String → Option V)) :
    (if ns.isEmpty then n else .filter ns n).rows I db = (n.rows I db).filter (holds I ns) := by
  cases ns with
  | nil => exact (filter_holds_nil I _).symm
  | cons m ns => rfl

theorem pushFilterThroughJoin_refines (hrec : ∀ n n', n.Ok I → rec n = some n' → Refines I n n')
    (preds : List Node) (kind : JoinKind) (cond : List Node) (left right plan : Plan)
    (hok : (Plan.filter preds (.join kind cond left right)).Ok I)
    (h : pushFilterThroughJoin U rec preds kind cond left right = some plan) :
    Refines I (.filter preds (.join kind cond left right)) plan := by
  obtain ⟨hpreds, hcond, hdisj, hleft, hright⟩ := hok
  unfold pushFilterThroughJoin at h
  split at h
  · obtain rfl := some.inj h
    exact ⟨⟨hpreds, hcond, hdisj, hleft, hright⟩, .refl _, fun _ => List.Perm.refl _⟩
  · obtain ⟨left', hl, h⟩ := bind_eq_some_iff.mp h
    obtain ⟨right', hr, h⟩ := bind_eq_some_iff.mp h
    obtain rfl := some.inj h
    have hanswers : (splitFilter U preds kind cond left right).right ≠ [] → kind.answersLeft = false := by
      intro hne
      obtain ⟨n, hn⟩ := exists_mem_of_ne_nil _ hne
      exact placement_right_answers U kind left right n (of_decide_eq_true (mem_filter.mp hn).2)
    have hleft' := wrapChild_refines hrec _ left left' (hpreds.filter_flatten _).onLeft hleft hl
    have hright' := wrapChild_refines hrec _ right right' ((hpreds.filter_flatten _).onRight hanswers) hright hr
    have hl' := hleft'.alike.unfiltered
    have hr' := hright'.alike.unfiltered
    have halike := hl'.join hr' (answersLeft_split U preds kind cond left right) cond
      (splitFilter U preds kind cond left right).cond
    have htables : left'.tables.Disjoint right'.tables := by
      rw [hl'.tables, hr'.tables]
      exact hdisj
    -- what is left of the ON, and what stays above the join
    have hterms : TermsOk I (Plan.join kind cond left right).sides (splitFilter U preds kind cond left right).cond ∧
        TermsOk I (Plan.join kind cond left right).sides (splitFilter U preds kind cond left right).above := by
      simp only [splitFilter]
      split
      · exact ⟨(hcond.residuals _).1, (hpreds.filter_flatten _).append (hcond.residuals _).2⟩
      · rw [append_nil]
        exact ⟨hcond, hpreds.filter_flatten _⟩
    have hsides : (Plan.join kind cond left right).sides = _ := halike.sides.symm
    rw [hsides] at hterms
    refine ⟨?_, ?_, fun db => ?_⟩
    · split
      · exact ⟨hterms.1, htables, hleft'.ok, hright'.ok⟩
      · exact ⟨hterms.2, hterms.1, htables, hleft'.ok, hright'.ok⟩
    · split <;> exact ⟨halike.tables, halike.columns, halike.sides⟩
    · rw [rows_filter_or]
      refine (rows_split I U db preds kind cond left right left' right' (hl'.toLeft hr') (hleft'.rows db)
        (hright'.rows db)).trans ?_
      rw [Plan.rows, rows_join, map_filter_perm_iff]
      intro r hr
      have hpass := passes_eq_holds U kind (flattenANDPredicates preds) hdisj
        (fun n hn => hpreds.flatten hn) mem_cons_self (fun hkind => ?_) _ _ _ r hr
      · exact hpass.trans (holds_flatten I preds _)
      · simp [Plan.sides, hkind]

structure CondReads (kind : JoinKind) (left right : Plan) (n : Node) : Prop where
  onLeft : condPlacement U kind left right n = .left →
    Reads n left.tables false ∧ kind.padsRight = false ∧ kind.answersLeft = false
  onRight : condPlacement U kind left right n = .right →
    Reads n right.tables false ∧ kind.padsLeft = false ∧ kind.answersLeft = false

theorem condReads (kind : JoinKind) {cond : List Node} (left right : Plan) (n : Node)
    (hs : Seen (Plan.join kind cond left right).sides n)
    (hq : ∀ r ∈ n.refs, r.1 ≠ "") : CondReads U kind left right n := by
  constructor
  · intro h
    unfold condPlacement at h
    split at h
    · cases h
    · cases h
    next table tables hrefs =>
      split at h
      next hall =>
        rw [Bool.and_eq_true] at hall
        obtain ⟨hmem, hsub⟩ := hs.of_predicateTableRefs mem_cons_self hq U _ hrefs hall.1
        refine ⟨⟨hmem, hsub, nofun⟩, ?_⟩
        cases kind <;> simp_all [condSides, JoinKind.padsRight, JoinKind.answersLeft]
      next => split at h <;> cases h
  · intro h
    unfold condPlacement at h
    split at h
    · cases h
    · cases h
    next table tables hrefs =>
      split at h
      · cases h
      · split at h
        next hall =>
          rw [Bool.and_eq_true] at hall
          have hkind : kind.padsLeft = false ∧ kind.answersLeft = false := by
            cases kind <;> simp_all [condSides, JoinKind.padsLeft, JoinKind.answersLeft]
          obtain ⟨hmem, hsub⟩ := hs.of_predicateTableRefs
            (show right.tables ∈ _ by simp [Plan.sides, hkind.2]) hq U _ hrefs hall.1
          exact ⟨⟨hmem, hsub, nofun⟩, hkind⟩
        next => cases h

variable (on : Row V → Row V → Bool)

private theorem join_filter_left (kind : JoinKind) (ns : List Node)
    (hkind : ns ≠ [] → kind.padsRight = false ∧ kind.answersLeft = false) (xs ys : List (Row V)) :
    join on kind (xs.filter (holds I ns)) ys = join (fun ρ ρ' => on ρ ρ' && holds I ns ρ) kind xs ys := by
  cases ns with
  | nil => simp
  | cons n ns => exact (join_and_left on kind (hkind (by simp)) _ xs ys).symm

private theorem join_filter_right (kind : JoinKind) (ns : List Node)
    (hkind : ns ≠ [] → kind.padsLeft = false ∧ kind.answersLeft = false) (xs ys : List (Row V)) :
    join on kind xs (ys.filter (holds I ns)) = join (fun ρ ρ' => on ρ ρ' && holds I ns ρ') kind xs ys := by
  cases ns with
  | nil => simp
  | cons n ns => exact (join_and_right on kind (hkind (by simp)) _ xs ys).symm

private theorem onPair_moved (kind : JoinKind) {left right : Plan}
    (hdisj : left.tables.Disjoint right.tables) (parts : List Node)
    (hreads : ∀ n ∈ parts, CondReads U kind left right n) (ρ ρ' : Row V) :
    (onPair I (left.toLeft right) (parts.filter (condPlacement U kind left right · = .above)) ρ ρ' &&
        holds I (parts.filter (condPlacement U kind left right · = .right)) ρ' &&
        holds I (parts.filter (condPlacement U kind left right · = .left)) ρ) =
      onPair I (left.toLeft right) parts ρ ρ' := by
  have hl : ∀ n ∈ parts.filter (condPlacement U kind left right · = .left),
      n.truth I ρ = n.truth I (merge (left.toLeft right) (some ρ, some ρ')) := by
    intro n hn
    obtain ⟨hmem, hside⟩ := mem_filter.mp hn
    exact (((hreads n hmem).onLeft (of_decide_eq_true hside)).1.truth_left ρ (some ρ')).symm
  have hr : ∀ n ∈ parts.filter (condPlacement U kind left right · = .right),
      n.truth I ρ' = n.truth I (merge (left.toLeft right) (some ρ, some ρ')) := by
    intro n hn
    obtain ⟨hmem, hside⟩ := mem_filter.mp hn
    exact (((hreads n hmem).onRight (of_decide_eq_true hside)).1.truth_right hdisj ρ' (some ρ)).symm
  rw [onPair, onPair, holds_placed I (condPlacement U kind left right) parts, holds_congr I _ ρ _ hl,
    holds_congr I _ ρ' _ hr, Bool.and_comm, Bool.and_comm (holds I _ _) (holds I _ _), Bool.and_assoc]

theorem extractJoinCondPredicates_refines (hrec : ∀ n n', n.Ok I → rec n = some n' → Refines I n n')
    (kind : JoinKind) (cond : List Node) (left right plan : Plan)
    (hok : (Plan.join kind cond left right).Ok I)
    (h : extractJoinCondPredicates U rec kind cond left right = some plan) :
    Refines I (.join kind cond left right) plan := by
  obtain ⟨hcond, hdisj, hleft, hright⟩ := hok
  unfold extractJoinCondPredicates at h
  dsimp only at h
  split at h
  · obtain rfl := some.inj h
    exact ⟨⟨hcond, hdisj, hleft, hright⟩, .refl _, fun _ => List.Perm.refl _⟩
  · obtain ⟨left', hl, h⟩ := bind_eq_some_iff.mp h
    obtain ⟨right', hr, h⟩ := bind_eq_some_iff.mp h
    obtain rfl := some.inj h
    have hreads : ∀ n ∈ splitJoinConjuncts cond, CondReads U kind left right n := fun n hn =>
      condReads U kind left right n (hcond.flatten hn).1 (hcond.flatten hn).2.qualified
    have hanswers : (splitJoinConjuncts cond).filter (condPlacement U kind left right · = .right) ≠ [] →
        kind.padsLeft = false ∧ kind.answersLeft = false := by
      intro hne
      obtain ⟨n, hn⟩ := exists_mem_of_ne_nil _ hne
      obtain ⟨hmem, hside⟩ := mem_filter.mp hn
      exact ((hreads n hmem).onRight (of_decide_eq_true hside)).2
    have hleft' := wrapChild_refines hrec _ left left' (hcond.filter_flatten _).onLeft hleft hl
    have hright' := wrapChild_refines hrec _ right right'
      ((hcond.filter_flatten _).onRight fun hne => (hanswers hne).2) hright hr
    have hl' := hleft'.alike.unfiltered
    have hr' := hright'.alike.unfiltered
    have halike : Alike (.join kind cond left right) (.join kind _ left' right') := hl'.join hr' rfl cond
      ((splitJoinConjuncts cond).filter (condPlacement U kind left right · = .above))
    refine ⟨⟨halike.sides ▸ hcond.filter_flatten _, ?_, hleft'.ok, hright'.ok⟩, halike, fun db => ?_⟩
    · rw [hl'.tables, hr'.tables]
      exact hdisj
    rw [rows_join, pairs, hl'.toLeft hr']
    refine List.Perm.map _ ((join_perm _ kind (hleft'.rows db) (hright'.rows db)).trans
      (List.Perm.of_eq ?_))
    rw [Plan.rows, Plan.rows, join_filter_right _ kind _ ?_, join_filter_left _ kind _ ?_]
    · refine join_congr _ kind fun ρ _ ρ' _ => ?_
      exact (onPair_moved U kind hdisj (splitJoinConjuncts cond) hreads ρ ρ').trans (holds_flatten I cond _)
    · intro hne
      obtain ⟨n, hn⟩ := exists_mem_of_ne_nil _ hne
      obtain ⟨hmem, hside⟩ := mem_filter.mp hn
      exact ((hreads n hmem).onLeft (of_decide_eq_true hside)).2
    · exact hanswers

theorem Refines.trans {n₁ n₂ n₃ : Plan} (h : Refines I n₁ n₂) (h' : Refines I n₂ n₃) : Refines I n₁ n₃ :=
  ⟨h'.ok, ⟨h'.alike.tables.trans h.alike.tables, h'.alike.columns.trans h.alike.columns,
    h'.alike.sides.trans h.alike.sides⟩, fun db => (h'.rows db).trans (h.rows db)⟩

theorem Refines.filter {n n' : Plan} (h : Refines I n n') (preds : List Node) (hp : TermsOk I n.sides preds) :
    Refines I (.filter preds n) (.filter preds n') :=
  ⟨⟨h.alike.sides ▸ hp, h.ok⟩, ⟨h.alike.tables, h.alike.columns, h.alike.sides⟩, fun db => (h.rows db).filter _⟩

theorem Refines.join {l l' r r' : Plan} (hl : Refines I l l') (hr : Refines I r r') (kind : JoinKind)
    (cond : List Node) (hcond : TermsOk I (Plan.join kind cond l r).sides cond) (hdisj : l.tables.Disjoint r.tables) :
    Refines I (.join kind cond l r) (.join kind cond l' r') := by
  have halike : Alike (.join kind cond l r) (.join kind cond l' r') := hl.alike.join hr.alike rfl cond cond
  refine ⟨⟨halike.sides ▸ hcond, by rw [hl.alike.tables, hr.alike.tables]; exact hdisj, hl.ok, hr.ok⟩, halike,
    fun db => ?_⟩
  rw [rows_join, pairs, hl.alike.toLeft hr.alike]
  exact (join_perm _ kind (hl.rows db) (hr.rows db)).map _

theorem pushdownPredicates_refines (fuel : Nat) (n n' : Plan) (hok : n.Ok I)
    (h : pushdownPredicates U fuel n = some n') : Refines I n n' := by
  induction fuel generalizing n n' with
  | zero => cases h
  | succ fuel ih =>
    cases n with
    | scan names columns =>
      obtain rfl := some.inj h
      exact ⟨hok, .refl _, fun _ => List.Perm.refl _⟩
    | filter preds child =>
      obtain ⟨child', hchild, h⟩ := bind_eq_some_iff.mp h
      have hr := (ih child child' hok.2 hchild).filter preds hok.1
      cases child' with
      | join kind cond left right =>
        exact hr.trans (pushFilterThroughJoin_refines U ih preds kind cond left right n' hr.ok h)
      | scan names columns =>
        obtain rfl := some.inj h
        exact hr
      | filter preds' child' =>
        obtain rfl := some.inj h
        exact hr
    | join kind cond left right =>
      obtain ⟨left', hleft, h⟩ := bind_eq_some_iff.mp h
      obtain ⟨right', hright, h⟩ := bind_eq_some_iff.mp h
      obtain ⟨hcond, hdisj, hl, hr⟩ := hok
      have hj := (ih left left' hl hleft).join (ih right right' hr hright) kind cond hcond hdisj
      exact hj.trans (extractJoinCondPredicates_refines U ih kind cond left' right' n' hj.ok h)

end Wadjet.Logical.JoinPushdown
