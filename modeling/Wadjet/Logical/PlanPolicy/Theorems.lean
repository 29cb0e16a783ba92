import Mathlib.Data.Multiset.Bind
import Wadjet.Logical.PlanPolicy.Visible

namespace Wadjet.Logical.PlanPolicy

open Wadjet.Sql List

-- The filters of a chain down to its scan, each with whether it is marked as
-- the policy's own.
def Plan.chain? : Plan → Option (List (Predicate × Bool) × Scan)
  | .scan s => some ([], s)
  | .filter ps policy child => child.chain?.map fun x => (ps.map (·, policy) ++ x.1, x.2)
  | .project _ _ _ => none
  | .other _ _ _ => none

def Scan.below (s : Scan) (ps : List (Predicate × Bool)) : List (Predicate × Bool) :=
  ps ++ s.attached.map fun p => (p.toPredicate, p.fromPolicy)

section Chain

theorem Plan.chain_induct {motive : ∀ c ps s, Plan.chain? c = some (ps, s) → Prop}
    (scan : ∀ s, motive (.scan s) [] s rfl)
    (filter : ∀ preds policy child qs s hchild, motive child qs s hchild →
      motive (.filter preds policy child) (preds.map (·, policy) ++ qs) s (by simp [chain?, hchild]))
    (c : Plan) (ps : List (Predicate × Bool)) (s : Scan) (h : c.chain? = some (ps, s)) :
    motive c ps s h := by
  fun_induction Plan.chain? c generalizing ps s with
  | case1 s' =>
    obtain ⟨rfl, rfl⟩ := Prod.mk.inj (Option.some.inj h)
    exact scan s'
  | case2 preds policy child ih =>
    obtain ⟨⟨qs, s'⟩, hchild, heq⟩ := Option.map_eq_some_iff.mp h
    obtain ⟨rfl, rfl⟩ := Prod.mk.inj heq
    exact filter preds policy child qs s' hchild (ih qs s' hchild)
  | case3 => cases h
  | case4 => cases h

variable {V : Type} (W : World V)

abbrev World.key (s : Scan) : String := W.unicode.lower s.table

def chainKeeps (db : Database V) (s : Scan) (ps : List (Predicate × Bool)) (r : Record V) : Bool :=
  ((s.below ps).all fun p => W.holds db (W.row r) p.1) &&
    s.partitionFilter.all fun e => W.partitionMatches (r (W.unicode.lower e.1)) e.2

theorem run_chain (db : Database V) (c : Plan) (ps : List (Predicate × Bool)) (s : Scan)
    (h : c.chain? = some (ps, s)) (hs : s.policed) :
    W.run db c = ((db (W.key s)).filter fun r => chainKeeps W db s ps r).map W.row := by
  induction c, ps, s, h using Plan.chain_induct with
  | scan s' =>
    rw [World.run, World.scanRows, if_pos hs]
    congr 1
    refine Multiset.filter_congr fun r _ => ?_
    simp [chainKeeps, World.scanKeeps, Scan.below]
  | filter preds policy child qs s' _ ih =>
    rw [World.run, ih hs, Multiset.filter_map, Multiset.filter_filter]
    congr 1
    refine Multiset.filter_congr fun r _ => ?_
    simp [chainKeeps, Scan.below, and_assoc]

variable {W} (P : Policies W)

-- Under a security projection a chain whose predicates are allowed, and which
-- carries the row filter wherever that excludes a row, shows only what the
-- policy exposes.
theorem noninterfering_barrier (c : Plan) (ps : List (Predicate × Bool)) (s : Scan)
    (cols : List String) (barrier : Bool) (hchain : c.chain? = some (ps, s)) (hs : s.policed)
    (hallowed : ∀ p ∈ s.below ps, P.Allowed (W.key s) p)
    (hpart : ∀ e ∈ s.partitionFilter, W.unicode.lower e.1 ∉ P.restricted (W.key s))
    (hrow : (s.below ps).any (·.2) ∨ ∀ db r, P.passes (W.key s) db r) :
    P.Noninterfering (.project (P.items (W.key s) cols) barrier c) := by
  intro db db' hagree
  have hkeeps : ∀ (db₁ : Database V) (r : Record V), chainKeeps W db₁ s ps r = (P.passes (W.key s) db₁ r &&
      (((s.below ps).all fun p => p.2 || W.holds db (W.row (visible (P.restricted (W.key s)) r)) p.1) &&
        s.partitionFilter.all fun e => W.partitionMatches
          (visible (P.restricted (W.key s)) r (W.unicode.lower e.1)) e.2)) := by
    intro db₁ r
    have hfilter : (s.partitionFilter.all fun e =>
          W.partitionMatches (r (W.unicode.lower e.1)) e.2) =
        s.partitionFilter.all fun e => W.partitionMatches
          (visible (P.restricted (W.key s)) r (W.unicode.lower e.1)) e.2 := by
      rw [Bool.eq_iff_iff, all_eq_true, all_eq_true]
      exact forall₂_congr fun e he => by simp [visible, hpart e he]
    have hpass : (!(s.below ps).any (·.2) || P.passes (W.key s) db₁ r) =
        P.passes (W.key s) db₁ r := by
      rcases hrow with hown | hall
      · simp [hown]
      · simp [hall db₁ r]
    rw [chainKeeps, P.all_holds _ _ hallowed db₁ db r, hpass, hfilter, Bool.and_assoc]
  simp only [World.run, run_chain W _ c ps s hchain hs, Multiset.map_map]
  exact Data.map_filter_congr_exposed _ _ _ _
    (fun v => ((s.below ps).all fun p => p.2 || W.holds db (W.row v) p.1) &&
      s.partitionFilter.all fun e => W.partitionMatches (v (W.unicode.lower e.1)) e.2)
    (fun v => W.projected db (P.items (W.key s) cols) (W.row v)) (hkeeps db)
    (P.projected_visible _ cols db db) (hkeeps db') (P.projected_visible _ cols db' db) (hagree (W.key s))

end Chain

section Check

variable (U : Unicode) (parse : String → Option Node) (policed : String → List ColumnPolicy)
  (c : Plan) (ps : List (Predicate × Bool))

theorem scanTables_chain (s : Scan)
    (h : c.chain? = some (ps, s)) (hs : s.policed) : scanTables c = [s.table] := by
  induction c, ps, s, h using Plan.chain_induct with
  | scan s' => simp [scanTables, hs]
  | filter preds policy child qs s' _ ih => exact ih hs

theorem checkScan_ok (s : Scan) (hs : s.policed) (hne : policed s.table ≠ [])
    (h : checkScan U parse policed true s = none) :
    (∀ p ∈ s.attached, p.fromPolicy = false →
      predicateNamesRestricted U parse p.toPredicate (restrictedColumns U (policed s.table)) = none) ∧
    ∀ e ∈ s.partitionFilter, U.lower e.1 ∉ restrictedColumns U (policed s.table) := by
  simp only [checkScan, hs, Bool.not_true, Bool.false_or, List.isEmpty_iff, hne, if_false,
    Bool.false_eq_true] at h
  split at h
  · cases h
  next hattached =>
    refine ⟨fun p hp hown => ?_, fun e he => ?_⟩
    · simp only [any_eq_true, not_exists, not_and, Bool.not_eq_true] at hattached
      have hscan := hattached p hp
      simp only [hown, Bool.not_false, Bool.true_and, scanPredicateIsRestricted,
        Bool.or_eq_false_iff] at hscan
      simpa using hscan.2
    · simp only [Option.map_eq_none_iff, find?_eq_none] at h
      simpa using h e he

theorem check_chain (s : Scan)
    (hchain : c.chain? = some (ps, s)) (hs : s.policed) (hne : policed s.table ≠ [])
    (h : checkPolicyPlanOrder U parse policed true c = none) :
    (∀ p ∈ s.below ps, p.2 = false →
      predicateNamesRestricted U parse p.1 (restrictedColumns U (policed s.table)) = none) ∧
    ∀ e ∈ s.partitionFilter, U.lower e.1 ∉ restrictedColumns U (policed s.table) := by
  induction c, ps, s, hchain using Plan.chain_induct with
  | scan s' =>
    obtain ⟨hattached, hpart⟩ := checkScan_ok U parse policed s' hs hne h
    refine ⟨fun p hp hown => ?_, hpart⟩
    obtain ⟨q, hq, rfl⟩ := mem_map.mp (by simpa [Scan.below] using hp)
    exact hattached q hq hown
  | filter preds policy child qs s' hchild ih =>
    rw [checkPolicyPlanOrder, Option.or_eq_none_iff] at h
    obtain ⟨hbelow, hpart⟩ := ih hs hne h.2
    refine ⟨fun p hp hown => ?_, hpart⟩
    simp only [Scan.below, append_assoc, mem_append] at hp
    rcases hp with hp | hp
    · obtain ⟨q, hq, rfl⟩ := mem_map.mp hp
      have hfilter := h.1
      have hrestricted : restrictedColumns U (policed s'.table) ≠ [] := by
        simpa [restrictedColumns] using hne
      simp only [Bool.true_and] at hfilter
      simp only at hown
      rw [hown] at hfilter
      simp only [Bool.not_false, if_true, checkFilter, policedScanTables,
        scanTables_chain child qs s' hchild hs, foldl_cons, any_nil, foldl_nil,
        Bool.false_eq_true, if_false, nil_append, findSome?_cons,
        List.isEmpty_iff, hrestricted] at hfilter
      split at hfilter
      · cases hfilter
      next hnone =>
        rw [Option.map_eq_none_iff, findSome?_eq_none_iff] at hnone
        exact hnone q hq
    · exact hbelow p (by simpa [Scan.below] using hp) hown

end Check

section Covered

variable (U : Unicode) (parse : String → Option Node) (tp : TablePolicies)
  (columnsOf : String → List String) (lookup : Option PolicyLookup)

mutual

theorem applyToNewScans_covered (p : Plan) :
    applyToNewScans U parse tp columnsOf lookup true p = ⟨p, 0, none⟩ := by
  match p with
  | .scan s => simp [applyToNewScans]
  | .filter ps policy child => simp [applyToNewScans, applyToNewScans_covered child]
  | .project items barrier child => simp [applyToNewScans, applyToNewScans_covered child]
  | .other op exprs children => simp [applyToNewScans, applyToNewScansList_covered children]

theorem applyToNewScansList_covered (ps : List Plan) :
    applyToNewScansList U parse tp columnsOf lookup true ps = ⟨ps, 0, none⟩ := by
  match ps with
  | [] => rfl
  | p :: ps =>
    simp [applyToNewScansList, applyToNewScans_covered p, applyToNewScansList_covered ps]

end

end Covered

section Enforced

variable {V : Type} {W : World V} (P : Policies W)

-- What may stand between a security projection and its scan: the table's own
-- row filter where it is marked so, and predicates the guard can read.
def Below (t : String) (p : Predicate × Bool) : Prop :=
  if p.2 then P.IsRowFilter t p.1 else W.Plain (P.restricted t) p.1

-- A barrier over one chain to one scan, with that table's projection, and the
-- row filter in the chain wherever it excludes a row.
def Guarded (items : List Projection) (child : Plan) : Prop :=
  ∃ ps s cols, child.chain? = some (ps, s) ∧ s.policed ∧
    items = P.items (W.unicode.lower s.table) cols ∧
    (∀ p ∈ s.below ps, Below P (W.unicode.lower s.table) p) ∧
    ((s.below ps).any (·.2) ∨ ∀ db r, P.passes (W.unicode.lower s.table) db r)

-- A scan the optimizer minted: where it has column policies, its row filter
-- excludes nothing.
def Minted (s : Scan) : Prop :=
  s.policed → P.columns (W.unicode.lower s.table) ≠ [] →
    (∀ db r, P.passes (W.unicode.lower s.table) db r) ∧
      ∀ p ∈ s.below [], Below P (W.unicode.lower s.table) p

def World.subqueries (W : World V) (p : Predicate) : List String :=
  ((p.expr W.parse).map Node.subqueryTexts).getD []

-- A subquery is a plan of its own, which has to be in order for every row it
-- is built for.
inductive Orderly : Plan → Prop
  | scan (s : Scan) (hminted : Minted P s)
      (hspecial : s.policed = false → P.Blind fun db => W.special db s.table)
      (hbodies : ∀ p ∈ s.attached, ∀ sql ∈ W.subqueries p.toPredicate, ∀ ρ, Orderly (W.body ρ sql)) :
      Orderly (.scan s)
  | filter (predicates : List Predicate) (policy : Bool) (child : Plan)
      (hbodies : ∀ p ∈ predicates, ∀ sql ∈ W.subqueries p, ∀ ρ, Orderly (W.body ρ sql))
      (hchild : Orderly child) : Orderly (.filter predicates policy child)
  | barrier (items : List Projection) (child : Plan) (hguarded : Guarded P items child) :
      Orderly (.project items true child)
  | project (items : List Projection) (child : Plan)
      (hbodies : ∀ item ∈ items, ∀ sql ∈ item.expr.subqueryTexts, ∀ ρ, Orderly (W.body ρ sql))
      (hchild : Orderly child) : Orderly (.project items false child)
  | other (op : String) (exprs : List Node) (children : List Plan)
      (hbodies : ∀ n ∈ exprs, ∀ sql ∈ n.subqueryTexts, ∀ ρ, Orderly (W.body ρ sql))
      (hchildren : ∀ c ∈ children, Orderly c) : Orderly (.other op exprs children)

variable (tp : TablePolicies) (columnsOf : String → List String)

abbrev walked (plan : Plan) := applyToNewScans W.unicode W.parse tp columnsOf (some P.lookup) false plan

abbrev covered (s : Scan) := coverNewScan W.unicode W.parse tp columnsOf (some P.lookup) s

abbrev checked (below : Bool) (plan : Plan) :=
  checkPolicyPlanOrder W.unicode W.parse (policedBy W.unicode tp (some P.lookup)) below plan

-- A subquery is planned for each row and enforced like the plan around it.
def Planned : Prop := ∀ db ρ sql, W.subqueryRows db ρ sql =
  match enforceOptimizedPlan W.unicode W.parse tp columnsOf (some P.lookup) (W.body ρ sql) with
  | .ok out => W.column (W.run db out)
  | .error _ => []

def Resolved : Prop :=
  ∀ table, table ≠ "" → tp.for W.unicode table = P.columns (W.unicode.lower table)

variable {s : Scan}

theorem table_ne_of_policed (hs : s.policed) : s.table ≠ "" := by
  simp only [Scan.policed, Bool.and_eq_true, bne_iff_ne] at hs
  exact hs.1.1

theorem policedBy_resolved (hres : Resolved P tp) (hs : s.policed) :
    policedBy W.unicode tp (some P.lookup) s.table = P.columns (W.key s) := by
  unfold policedBy
  rw [hres s.table (table_ne_of_policed hs)]
  rcases hcols : P.columns (W.key s) with _ | ⟨p, ps⟩
  · simp [Policies.lookup, hcols]
  · rfl

theorem policedScan_self (hs : s.policed) : policedScan W.unicode s s.table := by
  simp only [Scan.policed] at hs
  simp [policedScan, hs, Unicode.equalFold]

theorem allowed_of_check (hres : Resolved P tp) (c : Plan) (ps : List (Predicate × Bool)) (s : Scan)
    (hchain : c.chain? = some (ps, s)) (hs : s.policed)
    (hbelow : ∀ p ∈ s.below ps, Below P (W.key s) p)
    (hcheck : checked P tp true c =
      none) :
    (∀ p ∈ s.below ps, P.Allowed (W.key s) p) ∧
    ∀ e ∈ s.partitionFilter, W.unicode.lower e.1 ∉ P.restricted (W.key s) := by
  have hnames : (∀ p ∈ s.below ps, p.2 = false → P.restricted (W.key s) = [] ∨
      predicateNamesRestricted W.unicode W.parse p.1 (P.restricted (W.key s)) = none) ∧
      ∀ e ∈ s.partitionFilter, W.unicode.lower e.1 ∉ P.restricted (W.key s) := by
    have hpoliced := policedBy_resolved P tp hres hs
    by_cases hne : P.columns (W.key s) = []
    · simp [Policies.restricted, restrictedColumns, hne]
    · obtain ⟨hnames, hpart⟩ := check_chain W.unicode W.parse _ c ps s hchain hs (hpoliced ▸ hne) hcheck
      rw [hpoliced] at hnames hpart
      exact ⟨fun p hp hown => Or.inr (hnames p hp hown), hpart⟩
  refine ⟨fun p hp => ?_, hnames.2⟩
  have := hbelow p hp
  unfold Below at this
  unfold Policies.Allowed
  split at this
  · rwa [if_pos ‹_›]
  next hown =>
    rw [if_neg hown]
    exact ⟨this, hnames.1 p hp (by simpa using hown)⟩

theorem noninterfering_guarded (hres : Resolved P tp) (items : List Projection) (child : Plan)
    (h : Guarded P items child)
    (hcheck : checked P tp true child = none) : P.Noninterfering (.project items true child) := by
  obtain ⟨ps, s, cols, hchain, hs, rfl, hbelow, hrow⟩ := h
  obtain ⟨hallowed, hpart⟩ := allowed_of_check P tp hres child ps s hchain hs hbelow hcheck
  exact noninterfering_barrier P child ps s cols true hchain hs hallowed hpart hrow

theorem noninterfering_unrestricted (c : Plan) (ps : List (Predicate × Bool)) (s : Scan)
    (hchain : c.chain? = some (ps, s)) (hs : s.policed) (hnil : P.restricted (W.key s) = [])
    (hown : ∀ p ∈ ps, P.IsRowFilter (W.key s) p.1)
    (hrow : ps ≠ [] ∨ ∀ db r, P.passes (W.key s) db r)
    (hattached : ∀ p ∈ s.attached, P.Blind fun db ρ => W.holds db ρ p.toPredicate) :
    P.Noninterfering c := by
  intro db db' hagree
  have hfilters : ∀ db₁ r, (ps.all fun p => W.holds db₁ (W.row r) p.1) = P.passes (W.key s) db₁ r := by
    intro db₁ r
    rw [Bool.eq_iff_iff, all_eq_true]
    refine ⟨fun hall => ?_, fun hpass p hp => ?_⟩
    · rcases hrow with hne | hevery
      · obtain ⟨p, hp⟩ := exists_mem_of_ne_nil ps hne
        rw [← (hown p hp).holds P db₁ r]
        exact hall p hp
      · exact hevery db₁ r
    · rwa [(hown p hp).holds P db₁ r]
  have hkeeps : ∀ db₁, P.Agree db db₁ → ∀ r, chainKeeps W db₁ s ps r =
      (P.passes (W.key s) db₁ r && chainKeeps W db s [] (visible (P.restricted (W.key s)) r)) := by
    intro db₁ hagree₁ r
    have hscan : (s.attached.all fun p => W.holds db₁ (W.row r) p.toPredicate) =
        s.attached.all fun p => W.holds db (W.row r) p.toPredicate := by
      rw [Bool.eq_iff_iff, all_eq_true, all_eq_true]
      refine forall₂_congr fun p hp => ?_
      have hsame : W.holds db (W.row r) p.toPredicate = W.holds db₁ (W.row r) p.toPredicate :=
        congrFun (hattached p hp db db₁ hagree₁) (W.row r)
      rw [hsame]
    rw [hnil, visible_nil, ← hfilters db₁ r]
    simp [chainKeeps, Scan.below, Function.comp_def, hscan, Bool.and_assoc]
  simp only [run_chain W _ c ps s hchain hs]
  exact Data.map_filter_congr_exposed _ _ _ _ (chainKeeps W db s []) W.row (hkeeps db fun _ => rfl)
    (fun r => by rw [hnil, visible_nil]) (hkeeps db' hagree) (fun r => by rw [hnil, visible_nil])
    (hagree (W.key s))

variable (s : Scan) (restricted : List String)

theorem strip_policed :
    (stripRestrictedScanPredicates W.unicode W.parse s restricted).policed = s.policed := by
  unfold stripRestrictedScanPredicates
  split <;> rfl

theorem strip_table :
    (stripRestrictedScanPredicates W.unicode W.parse s restricted).table = s.table := by
  unfold stripRestrictedScanPredicates
  split <;> rfl

theorem mem_below_strip (p : Predicate × Bool)
    (h : p ∈ (stripRestrictedScanPredicates W.unicode W.parse s restricted).below []) :
    p ∈ s.below [] := by
  unfold stripRestrictedScanPredicates at h
  split at h
  · exact h
  · obtain ⟨q, hq, rfl⟩ := mem_map.mp (by simpa [Scan.below] using h)
    simp only [Scan.attached, mem_append, mem_filter] at hq
    refine mem_map_of_mem (mem_append.mpr ?_)
    exact hq.imp And.left And.left

theorem coverNewScan_policies (hres : Resolved P tp) (s : Scan) (hs : s.policed)
    (hne : P.columns (W.key s) ≠ [])
    (hun : (covered P tp columnsOf s).unprotected = 0) :
    ∃ cols, (covered P tp columnsOf s).result =
      .project (P.items (W.key s) cols) true (.scan (stripRestrictedScanPredicates
        W.unicode W.parse s (maskedOrDenied W.unicode (P.columns (W.key s))))) := by
  obtain ⟨p, ps, hcols⟩ := exists_cons_of_ne_nil hne
  have hfor := hres s.table (table_ne_of_policed hs)
  rw [hcols] at hfor
  have hob : obligations W.unicode tp (some P.lookup) s.table = .ok (p :: ps, "") := by
    simp [obligations, hfor]
  simp only [coverNewScan, hob, injectColumnPolicies, isEmpty_cons, Bool.false_eq_true, if_false,
    injectColumnPoliciesNode, policedScan_self hs, if_true, coverScan] at hun ⊢
  split at hun
  · cases hun
  next hitems =>
    rw [if_neg hitems]
    exact ⟨_, by rw [Policies.items, hcols]⟩

theorem coverNewScan_unrestricted (hres : Resolved P tp) (s : Scan) (hs : s.policed)
    (hnil : P.columns (W.key s) = [])
    (hattached : ∀ p ∈ s.attached, P.Blind fun db ρ => W.holds db ρ p.toPredicate) :
    P.Noninterfering (covered P tp columnsOf s).result := by
  have hfor := hres s.table (table_ne_of_policed hs)
  have hob : obligations W.unicode tp (some P.lookup) s.table =
      .ok ([], P.rowFilter (W.key s)) := by
    simp [obligations, hfor, Policies.lookup, hnil]
  have hrestricted : P.restricted (W.key s) = [] := by
    simp [Policies.restricted, restrictedColumns, hnil]
  simp only [coverNewScan, hob]
  split
  next hempty =>
    exact noninterfering_unrestricted P _ [] s rfl hs hrestricted nofun
      (Or.inr fun db r => by simp [Policies.passes, hempty]) hattached
  next hfilter =>
    unfold injectRowFilter
    rcases hparse : W.parse (P.rowFilter (W.key s)) with _ | ast
    · exact noninterfering_unrestricted P _ [] s rfl hs hrestricted nofun
        (Or.inr fun db r => by simp [Policies.passes, hparse]) hattached
    simp only [injectRowFilterNode, policedScan_self hs]
    refine noninterfering_unrestricted P _ _ s rfl hs hrestricted (fun p hp => ?_) (Or.inl (by simp)) hattached
    obtain rfl : p = (⟨some ast, P.rowFilter (W.key s), true⟩, true) := by simpa using hp
    exact ⟨hfilter, ast, hparse, rfl⟩

theorem noninterfering_newScan (hres : Resolved P tp) (s : Scan) (hs : s.policed)
    (hminted : Minted P s)
    (hattached : ∀ p ∈ s.attached, P.Blind fun db ρ => W.holds db ρ p.toPredicate)
    (hun : (covered P tp columnsOf s).unprotected = 0)
    (hcheck : checked P tp false (covered P tp columnsOf s).result = none) :
    P.Noninterfering (covered P tp columnsOf s).result := by
  by_cases hne : P.columns (W.key s) = []
  · exact coverNewScan_unrestricted P tp columnsOf hres s hs hne hattached
  obtain ⟨cols, hresult⟩ := coverNewScan_policies P tp columnsOf hres s hs hne hun
  obtain ⟨hpass, hbelow⟩ := hminted hs hne
  rw [hresult] at hcheck ⊢
  refine noninterfering_guarded P tp hres _ _ ⟨[], _, cols, rfl, ?_, ?_, ?_, ?_⟩ hcheck
  · rwa [strip_policed]
  · rw [strip_table]
  · rw [strip_table]
    exact fun p hp => hbelow p (mem_below_strip s _ p hp)
  · rw [strip_table]
    exact Or.inr hpass

theorem enforceOptimizedPlan_ok (plan out : Plan)
    (h : enforceOptimizedPlan W.unicode W.parse tp columnsOf (some P.lookup) plan = .ok out) :
    out = (walked P tp columnsOf plan).result ∧
    (walked P tp columnsOf plan).unprotected = 0 ∧
    checked P tp false out = none := by
  simp only [enforceOptimizedPlan, Option.isNone_some, Bool.and_false, Bool.false_eq_true,
    if_false] at h
  split at h
  · cases h
  · split at h
    · cases h
    next hun =>
      split at h
      · cases h
      next hcheck =>
        obtain rfl := Except.ok.inj h
        exact ⟨rfl, Nat.eq_zero_of_not_pos hun, hcheck⟩

theorem enforceOptimizedPlan_eq_ok (plan : Plan)
    (herr : (walked P tp columnsOf plan).firstErr = none)
    (hun : (walked P tp columnsOf plan).unprotected = 0)
    (hcheck : checked P tp false (walked P tp columnsOf plan).result = none) :
    enforceOptimizedPlan W.unicode W.parse tp columnsOf (some P.lookup) plan =
      .ok (walked P tp columnsOf plan).result := by
  simp [enforceOptimizedPlan, herr, hun, hcheck]

section Bodies

variable {db db' : Database V}

-- An expression tells no more than the subqueries in it do.
theorem agree_of_blind {n : Node} (h : ∀ sql ∈ n.subqueryTexts, ∀ ρ, P.Blind fun db => W.subqueryRows db ρ sql)
    (hagree : P.Agree db db') (ρ : Row V) : AgreeUnder (W.engine db) (W.engine db') n ρ ρ :=
  ⟨fun _ _ => rfl, fun sql hsql => h sql hsql ρ db db' hagree⟩

theorem eval_blind (n : Node) (h : ∀ sql ∈ n.subqueryTexts, ∀ ρ, P.Blind fun db => W.subqueryRows db ρ sql) :
    P.Blind fun db => n.eval (W.engine db) := fun db db' hagree =>
  funext fun ρ => ((agree_of_blind P h hagree ρ).same (W.engine_alike db db')).eval

theorem holds_blind (p : Predicate)
    (h : ∀ sql ∈ W.subqueries p, ∀ ρ, P.Blind fun db => W.subqueryRows db ρ sql) :
    P.Blind fun db ρ => W.holds db ρ p := by
  intro db db' hagree
  funext ρ
  unfold World.subqueries at h
  unfold World.holds
  rcases hexpr : p.expr W.parse with _ | n
  · rfl
  · rw [hexpr] at h
    simp only [(agree_of_blind P h hagree ρ).truth (W.engine_alike db db')]

theorem projected_blind (items : List Projection) (h : ∀ item ∈ items, ∀ sql ∈ item.expr.subqueryTexts, ∀ ρ,
      P.Blind fun db => W.subqueryRows db ρ sql) : P.Blind fun db => W.projected db items := by
  intro db db' hagree
  funext ρ
  refine congrArg W.row (funext fun name => ?_)
  rcases hfind : items.find? fun item => W.unicode.lower item.out == name with _ | item
  · rw [hfind]
    rfl
  · rw [hfind]
    exact congrFun (eval_blind P item.expr (h item (mem_of_find?_eq_some hfind)) db db' hagree) ρ

-- What the walk has to show of each plan.
def Walks (plan : Plan) : Prop :=
  (walked P tp columnsOf plan).unprotected = 0 →
    checked P tp false (walked P tp columnsOf plan).result = none →
      P.Noninterfering (walked P tp columnsOf plan).result

theorem subqueryRows_blind (hplanned : Planned P tp columnsOf) (sql : String) (ρ : Row V)
    (h : Walks P tp columnsOf (W.body ρ sql)) : P.Blind fun db => W.subqueryRows db ρ sql := by
  intro db db' hagree
  simp only [hplanned db ρ sql, hplanned db' ρ sql]
  rcases hbody : enforceOptimizedPlan W.unicode W.parse tp columnsOf (some P.lookup) (W.body ρ sql) with _ | out
  · rfl
  · obtain ⟨rfl, hun, hcheck⟩ := enforceOptimizedPlan_ok P tp columnsOf _ out hbody
    exact congrArg W.column (h hun hcheck db db' hagree)

theorem runList_walked (plans : List Plan) (h : ∀ c ∈ plans, Walks P tp columnsOf c)
    (hun : (applyToNewScansList W.unicode W.parse tp columnsOf (some P.lookup) false
      plans).unprotected = 0)
    (hcheck : checkPolicyPlanOrderList W.unicode W.parse (policedBy W.unicode tp (some P.lookup)) false
      (applyToNewScansList W.unicode W.parse tp columnsOf (some P.lookup) false plans).result = none) :
    P.Blind fun db => W.runList db
      (applyToNewScansList W.unicode W.parse tp columnsOf (some P.lookup) false plans).result := by
  intro db db' hagree
  induction plans with
  | nil => rfl
  | cons p ps ih =>
    simp only [applyToNewScansList, checkPolicyPlanOrderList, Option.or_eq_none_iff,
      Nat.add_eq_zero_iff] at hun hcheck
    have hhead := h p mem_cons_self hun.1 hcheck.1 db db' hagree
    have htail := ih (fun c hc => h c (mem_cons_of_mem p hc)) hun.2 hcheck.2
    simp only [applyToNewScansList, World.runList] at htail ⊢
    rw [htail]
    exact congrArg (· :: _) hhead

end Bodies

-- The walk, node by node: a scan it covers, a barrier it leaves alone, and
-- operators over children, and over subqueries, that show only what is exposed.
theorem walks_of_orderly (hres : Resolved P tp) (hplanned : Planned P tp columnsOf) (plan : Plan)
    (h : Orderly P plan) : Walks P tp columnsOf plan := by
  have hrows : ∀ sql, (∀ ρ, Walks P tp columnsOf (W.body ρ sql)) →
      ∀ ρ, P.Blind fun db => W.subqueryRows db ρ sql :=
    fun sql hbody ρ => subqueryRows_blind P tp columnsOf hplanned sql ρ (hbody ρ)
  induction h with
  | scan s hminted hspecial _ hbodies =>
    intro hun hcheck
    simp only [applyToNewScans, Bool.false_or] at hun hcheck ⊢
    by_cases hs : s.policed
    · simp only [hs, Bool.not_true, Bool.false_eq_true, if_false] at hun hcheck ⊢
      exact noninterfering_newScan P tp columnsOf hres s hs hminted
        (fun p hp => holds_blind P _ fun sql hsql => hrows sql (hbodies p hp sql hsql)) hun hcheck
    · intro db db' hagree
      simpa [hs, World.run, World.scanRows] using hspecial (by simpa using hs) db db' hagree
  | filter predicates policy child _ _ hbodies ih =>
    intro hun hcheck db db' hagree
    simp only [applyToNewScans, checkPolicyPlanOrder, Bool.false_and, Bool.false_eq_true, if_false,
      Option.none_or] at hun hcheck
    have hchild := ih hun hcheck db db' hagree
    have hholds : ∀ p ∈ predicates, (fun ρ => W.holds db ρ p) = fun ρ => W.holds db' ρ p := fun p hp =>
      holds_blind P p (fun sql hsql => hrows sql (hbodies p hp sql hsql)) db db' hagree
    simp only [applyToNewScans, World.run] at hchild ⊢
    rw [hchild]
    refine Multiset.filter_congr fun ρ _ => ?_
    rw [all_eq_true, all_eq_true]
    exact forall₂_congr fun p hp => by rw [congrFun (hholds p hp) ρ]
  | barrier items child hguarded =>
    intro _ hcheck
    simp only [applyToNewScans, Bool.or_true, applyToNewScans_covered, checkPolicyPlanOrder] at hcheck ⊢
    exact noninterfering_guarded P tp hres items child hguarded hcheck
  | project items child _ _ hbodies ih =>
    intro hun hcheck db db' hagree
    simp only [applyToNewScans, checkPolicyPlanOrder, Bool.or_false] at hun hcheck
    have hchild := ih hun hcheck db db' hagree
    have hitems := projected_blind P items (fun item hitem sql hsql => hrows sql (hbodies item hitem sql hsql))
      db db' hagree
    simp only [applyToNewScans, World.run, Bool.or_false] at hchild hitems ⊢
    rw [hchild, hitems]
  | other op exprs children _ _ hbodies ih =>
    intro hun hcheck db db' hagree
    simp only [applyToNewScans, checkPolicyPlanOrder] at hun hcheck
    have hchildren := runList_walked P tp columnsOf children ih hun hcheck db db' hagree
    have hexprs : exprs.map (fun n => n.eval (W.engine db)) = exprs.map fun n => n.eval (W.engine db') :=
      map_congr_left fun n hn =>
        eval_blind P n (fun sql hsql => hrows sql (hbodies n hn sql hsql)) db db' hagree
    simp only [applyToNewScans, World.run] at hchildren ⊢
    rw [hchildren, hexprs]

-- A minted scan that carries nothing shows every row of its table, so it
-- keeps the row filter only if that excludes none.
theorem noninterfering_bareScan_iff (hres : Resolved P tp) (hplain : P.PlainFilters) (s : Scan) (hs : s.policed)
    (hbare : s.attached = [] ∧ s.partitionFilter = [])
    (hne : P.columns (W.key s) ≠ [])
    (hun : (covered P tp columnsOf s).unprotected = 0) :
    P.Noninterfering (covered P tp columnsOf s).result ↔
      ∀ db r, P.passes (W.key s) db r := by
  obtain ⟨cols, hresult⟩ := coverNewScan_policies P tp columnsOf hres s hs hne hun
  have hattached := append_eq_nil_iff.mp hbare.1
  have hstrip : stripRestrictedScanPredicates W.unicode W.parse s
      (maskedOrDenied W.unicode (P.columns (W.key s))) = s := by
    unfold stripRestrictedScanPredicates
    split
    · rfl
    · cases s
      simp_all
  let empty : Database V := fun _ => 0
  let shows : Record V → Row V := fun v => W.projected empty (P.items (W.key s) cols) (W.row v)
  have hrun : ∀ db : Database V, W.run db (covered P tp columnsOf s).result =
      (db (W.key s)).map fun r => shows (visible (P.restricted (W.key s)) r) := by
    intro db
    have hkeep : ((db (W.key s)).filter fun r => chainKeeps W db s [] r) = db (W.key s) :=
      Multiset.filter_eq_self.mpr fun r _ => by simp [chainKeeps, Scan.below, hbare]
    rw [hresult, hstrip, World.run, run_chain W db _ [] s rfl hs, hkeep, Multiset.map_map]
    exact Multiset.map_congr rfl fun r _ => P.projected_visible (W.key s) cols db empty r
  have hiff := Data.map_congr_exposed_iff (P.passes (W.key s) empty) (visible (P.restricted (W.key s)))
    (fun r => shows (visible (P.restricted (W.key s)) r)) shows fun _ => rfl
  refine ⟨fun h db => ?_, fun h db db' hagree => ?_⟩
  · rw [P.passes_congr _ hplain db empty]
    refine hiff.mp fun m m' hm => ?_
    have hagree : P.Agree (fun t => if t = W.key s then m else 0) fun t => if t = W.key s then m' else 0 := by
      intro t
      simp only [Policies.exposed, P.passes_congr t hplain _ empty]
      by_cases ht : t = W.key s
      · subst ht
        simpa only [if_true] using hm
      · simp only [if_neg ht]
    simpa only [hrun, if_true] using h _ _ hagree
  · have hexposed := hagree (W.key s)
    rw [Policies.exposed, Policies.exposed, P.passes_congr _ hplain db empty,
      P.passes_congr _ hplain db' empty] at hexposed
    simpa only [hrun] using hiff.mpr (h empty) _ _ hexposed

end Enforced

-- Employees of one department, their numbers masked and their address, a ROW
-- column, denied; and sites of which only those of the department are shown.
def departmentX : Node := .cmp (.colRef "" "dept") .eq (.lit "x" .string)

def crossRow (a b : Row String) : Row String := fun table column =>
  if table = "site" then b table column else a table column

def officeWorld : World String where
  unicode := .ascii
  interp := .text
  subqueryRows _ _ _ := []
  body _ _ := .scan { table := "" }
  column _ := []
  parse text :=
    if text = "dept = 'x'" then some departmentX
    else if text = "'***'" then some (.lit "***" .string) else none
  rowColumn name := name == "addr"
  rowColumn_empty := by decide
  field v _ := some v
  partitionMatches _ _ := true
  op _ _ children :=
    match children with
    | [a, b] => Multiset.bind a fun x => b.map fun y => crossRow x y
    | _ => 0
  special _ _ := 0

def empPolicies : List ColumnPolicy := [⟨"ssn", false, "'***'"⟩, ⟨"addr", true, ""⟩]

def officePolicies : Policies officeWorld where
  columns t := if t = "emp" then empPolicies else []
  rowFilter t := if t = "emp" ∨ t = "site" then "dept = 'x'" else ""
  restricts t p hp := by
    split at hp
    · revert p
      decide
    · cases hp
  masks_visible t p hp hmask n hn := by
    split at hp
    · rcases mem_cons.mp hp with rfl | hp
      · obtain rfl := Option.some.inj hn
        exact ⟨rfl, fun ref href => nomatch href⟩
      · obtain rfl := mem_singleton.mp hp
        exact absurd hmask (by decide)
    · cases hp

def officeResolved : TablePolicies := [("emp", empPolicies)]

theorem resolved_office : Resolved officePolicies officeResolved := by
  intro table hne
  show (if table = "" then [] else _) = _
  rw [if_neg hne]
  by_cases h : Unicode.ascii.lower table = "emp"
  · simp [officePolicies, officeWorld, officeResolved, h]
  · have hb : (Unicode.ascii.lower table == "emp") = false := by simpa using h
    simp [officePolicies, officeWorld, officeResolved, h, lookup_cons, hb]

def noColumns : String → List String := fun _ => []

theorem planned_office : Planned officePolicies officeResolved noColumns := by
  intro db ρ sql
  split <;> rfl

def empColumns : List String := ["id", "ssn", "addr", "dept"]

def empScan : Scan := { table := "emp", scanColumns := empColumns }

def siteScan : Scan := { table := "site", scanColumns := ["dept"] }

def empItems : List Projection := officePolicies.items "emp" empColumns

def ownFilter : Predicate := ⟨some departmentX, "dept = 'x'", true⟩

def cityIs (city : String) : Predicate :=
  ⟨some (.cmp (.colRef "addr" "city") .eq (.lit city .string)), "", false⟩

def idIs (value : String) : Predicate :=
  ⟨some (.cmp (.colRef "" "id") .eq (.lit value .string)), "", false⟩

def office (emp site : Multiset (Record String)) : Database String := fun t =>
  if t = "emp" then emp else if t = "site" then site else 0

def member (dept addr : String) : Record String := fun c =>
  if c = "addr" then some addr else if c = "dept" then some dept else some "1"

theorem plain_office : officePolicies.PlainFilters := by
  intro t n hn
  have hparse : officeWorld.parse (if t = "emp" ∨ t = "site" then "dept = 'x'" else "") = some n := hn
  split at hparse
  · obtain rfl := Option.some.inj hparse
    rfl
  · cases hparse

def noRows : Database String := office 0 0

abbrev shown (t : String) (rows : Multiset (Record String)) : Multiset (Record String) :=
  Data.exposed (officePolicies.passes t noRows) (visible (officePolicies.restricted t)) rows

theorem agree_office (emp emp' site site' : Multiset (Record String))
    (hemp : shown "emp" emp = shown "emp" emp') (hsite : shown "site" site = shown "site" site') :
    officePolicies.Agree (office emp site) (office emp' site') := by
  intro t
  simp only [Policies.exposed, officePolicies.passes_congr t plain_office _ noRows]
  unfold office
  by_cases he : t = "emp"
  · subst he
    simpa using hemp
  · by_cases hst : t = "site"
    · subst hst
      simpa using hsite
    · simp [he, hst]

theorem exposed_excluded {t : String} {r : Record String} (h : officePolicies.passes t noRows r = false) :
    shown t {r} = shown t 0 := by
  simp [Data.exposed, h]

theorem visible_member {restricted : List String} (h : "addr" ∈ restricted) (city city' : String) :
    visible restricted (member "x" city) = visible restricted (member "x" city') := by
  funext c
  by_cases hc : c = "addr"
  · subst hc
    simp [visible, h]
  · simp [visible, member, hc]

theorem exposed_moved (city city' : String) :
    shown "emp" {member "x" city} = shown "emp" {member "x" city'} := by
  have hpass : ∀ c, officePolicies.passes "emp" noRows (member "x" c) := fun c => rfl
  have hrestricted : "addr" ∈ officePolicies.restricted "emp" := by decide
  simp [Data.exposed, Multiset.filter_singleton, hpass, visible_member hrestricted city city']

def guardedPlan : Plan :=
  .filter [idIs "1"] false (.project empItems true (.filter [ownFilter] true (.scan empScan)))

-- A minted scan drops the row filter; a filter below the barrier reads a field
-- of the denied ROW column; a barrier covers the scan of another table, whose
-- row filter is then never put in.
def mintedPlan : Plan := .scan empScan

def fieldPlan : Plan :=
  .project empItems true (.filter [cityIs "Rome"] false (.filter [ownFilter] true (.scan empScan)))

def coveredPlan : Plan :=
  .project empItems true (.other "join" [] [.filter [ownFilter] true (.scan empScan), .scan siteScan])

def accepted (plan : Plan) : Plan :=
  (applyToNewScans .ascii officeWorld.parse officeResolved noColumns (some officePolicies.lookup)
    false plan).result

theorem not_noninterfering (plan : Plan) {db db' : Database String}
    (hagree : officePolicies.Agree db db')
    (hcard : Multiset.card (officeWorld.run db plan) ≠ Multiset.card (officeWorld.run db' plan)) :
    ¬officePolicies.Noninterfering plan :=
  fun h => hcard (congrArg Multiset.card (h db db' hagree))

end Wadjet.Logical.PlanPolicy
