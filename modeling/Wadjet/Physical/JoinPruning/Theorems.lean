import Wadjet.Physical.JoinPruning.Matching

namespace Wadjet.Physical.JoinPruning

open List

def Value.le : Value → Value → Prop
  | .int a, .int b => a ≤ b
  | .str a, .str b => a ≤ b
  | .int _, .str _ | .str _, .int _ => False

structure RowGroup.Of (plan : JoinPlan) (group : RowGroup) : Prop where
  named : ∀ row ∈ group.rows, row.map (·.1.name) = plan.columns
  footer : ∀ name bounds, group.stats.bounds name = some bounds → name ∈ plan.columns
  bounded : ∀ row ∈ group.rows, ∀ name lo hi column v, group.stats.bounds name = some (lo, hi) →
    row.columnIndex name = some (column, some v) → lo.le v ∧ v.le hi

-- The filters of other joins only drop rows, so the rows that can reach the
-- join are those of the chain without them.
def JoinPlan.reaching (hashes : Hashes) (plan : JoinPlan) (row : Row) : List Row :=
  outputs hashes (plan.before.filter (!·.isBloom)) (plan.scan row)

-- No row that matches at the join is lost: its row group is read, and the
-- filter, where the reordered chain has it, keeps the row it comes from.
def JoinPlan.KeepsMatches (hashes : Hashes) (plan : JoinPlan) : Prop :=
  ∀ group : RowGroup, group.Of plan → ∀ row ∈ group.rows, ∀ key ∈ plan.join.build,
    (∀ out ∈ plan.reaching hashes row, plan.join.Matches out key →
      plan.prunes hashes group.stats = false) ∧
    ∀ op, plan.join.bloomPushdownOp hashes = some op →
      ∀ seen ∈ outputs hashes (plan.upstream hashes) (plan.scan row),
        ∀ out ∈ outputs hashes (plan.downstream hashes) seen, plan.join.Matches out key →
          ∀ batches : List (List Row), seen ∈ batches.flatten → seen ∈ op.run hashes .initial batches

-- The build's bounds are in the unit of the probe's footer. DECIMAL build
-- columns have no bounds.
def KeyPair.unitsAgree (pair : KeyPair) : Bool :=
  match pair.common with
  | some .timestamp => false
  | some .decimal => pair.build.id = .decimal || pair.probe.scale = 0
  | _ => true

-- The scan can look at the key: it has the name of a table column, and the key
-- has a range or the filter can go to the head of the chain.
def JoinPlan.sees (plan : JoinPlan) (pair : KeyPair) : Bool :=
  plan.columns.contains pair.left &&
    (pair.build.id ≠ .decimal || plan.join.keys.all (plan.required.contains ·.left))

-- Every row comes to the join with the table's own value under the key's name.
def JoinPlan.Carries (hashes : Hashes) (plan : JoinPlan) (pair : KeyPair) : Prop :=
  ∀ row : Row, row.map (·.1.name) = plan.columns → ∀ out ∈ plan.reaching hashes row,
    columnIndexFallback out pair.left = row.columnIndex pair.left

def JoinPlan.KeysIntact (hashes : Hashes) (plan : JoinPlan) : Prop :=
  ∀ pair ∈ plan.join.keys, plan.sees pair → pair.unitsAgree ∧ plan.Carries hashes pair

section Values

variable {a b c : Value}

theorem Value.le_trans (hab : a.le b) (hbc : b.le c) : a.le c := by
  cases a <;> cases b <;> cases c <;> simp_all only [Value.le]
  · exact hab.trans hbc
  · exact hab.trans hbc

private theorem cmpOrdered_of_le {α : Type} [LinearOrder α] {x y : α} (h : x ≤ y) :
    ¬ cmpOrdered y x < 0 ∧ ¬ 0 < cmpOrdered x y := by
  rcases h.lt_or_eq with hlt | rfl
  · simp [cmpOrdered, hlt, hlt.not_gt]
  · simp [cmpOrdered]

theorem compareValues_of_le (h : a.le b) : ¬ compareValues b a < 0 ∧ ¬ 0 < compareValues a b := by
  cases a <;> cases b <;> simp only [Value.le] at h
  · exact cmpOrdered_of_le h
  · exact cmpOrdered_of_le h

end Values

section Ranges

private theorem minMax_bounds {α : Type} [LinearOrder α] {values : List α} {lo hi x : α}
    (hlo : values.min? = some lo) (hhi : values.max? = some hi) (hx : x ∈ values) :
    lo ≤ x ∧ x ≤ hi :=
  ⟨(min?_eq_some_iff.mp hlo).2 x hx, (max?_eq_some_iff.mp hhi).2 x hx⟩

variable {pair : KeyPair} {v w : Value}

theorem updateKeyMinMax_bounds {values : List Value} {lo hi : Value}
    (h : updateKeyMinMax pair.build.id values = some (lo, hi)) (hmem : w ∈ values)
    (hequal : pair.equal v w) : lo.le w ∧ w.le hi := by
  rcases KeyPair.equal_cases hequal with ⟨a, b, rfl, rfl⟩ | ⟨s, rfl, rfl, -, hstring⟩
  · have hb : b ∈ values.filterMap Value.int? := mem_filterMap.mpr ⟨.int b, hmem, rfl⟩
    have hnot : pair.build.id ≠ .string := by
      rintro hstring
      obtain ⟨left, ⟨probe, scale⟩, ⟨build, scale'⟩⟩ := pair
      subst hstring
      cases probe <;> simp [KeyPair.equal, KeyPair.common, joinKeyCommonType, joinKeyNumeric] at hequal
    unfold updateKeyMinMax at h
    split at h <;> simp_all only [reduceCtorEq, ne_eq, not_true_eq_false, not_false_eq_true]
    all_goals
      simp only [Option.bind_eq_some_iff, Option.map_eq_some_iff] at h
      obtain ⟨lo, hlo, hi, hhi, rfl, rfl⟩ := h
      exact minMax_bounds hlo hhi hb
  · have hs : s ∈ values.filterMap Value.str? := mem_filterMap.mpr ⟨.str s, hmem, rfl⟩
    simp only [hstring, updateKeyMinMax, Option.bind_eq_some_iff, Option.map_eq_some_iff] at h
    obtain ⟨lo, hlo, hi, hhi, rfl, rfl⟩ := h
    exact minMax_bounds hlo hhi hs

theorem eq_of_unitsAgree (hunits : pair.unitsAgree)
    (hbuild : pair.build.id ≠ .decimal) (h : pair.equal v w) : v = w := by
  rcases KeyPair.equal_cases h with ⟨a, b, rfl, rfl⟩ | ⟨s, rfl, rfl, -⟩
  · obtain ⟨left, ⟨probe, scale⟩, ⟨build, scale'⟩⟩ := pair
    cases probe <;> cases build <;>
      simp_all [KeyPair.equal, KeyPair.unitsAgree, KeyPair.common, joinKeyCommonType, joinKeyNumeric,
        VectorType.decimalScale]
  · rfl

end Ranges

section Chain

variable {hashes : Hashes} {name : String} {row out : Row} {ops : List Op}

private theorem columnIndex_filter (keep : String → Bool) (hkeep : keep name) (row : Row) :
    Row.columnIndex (row.filter fun cell => keep cell.1.name) name = row.columnIndex name := by
  rw [Row.columnIndex, find?_filter]
  congr 1
  funext cell
  by_cases hname : cell.1.name = name <;> simp [hname, hkeep]

theorem columnIndex_of_named (hname : name ∈ row.map (·.1.name)) :
    ∃ type v, row.columnIndex name = some (⟨name, type⟩, v) := by
  obtain ⟨cell, hmem, hcell⟩ := mem_map.mp hname
  obtain ⟨⟨⟨stored, type⟩, v⟩, hstored⟩ : ∃ stored, row.columnIndex name = some stored :=
    Option.isSome_iff_exists.mp (find?_isSome.mpr ⟨cell, hmem, by simp [hcell]⟩)
  obtain rfl : stored = name := by simpa using find?_some hstored
  exact ⟨type, v, hstored⟩

theorem columnIndex_scan (plan : JoinPlan) (hname : name ∈ plan.required) (row : Row) :
    (plan.scan row).columnIndex name = row.columnIndex name :=
  columnIndex_filter plan.required.contains (by simpa using hname) row

theorem outputs_unfiltered (hout : out ∈ outputs hashes ops row) :
    out ∈ outputs hashes (ops.filter (!·.isBloom)) row := by
  induction ops generalizing row with
  | nil => exact hout
  | cons op ops ih =>
    obtain ⟨next, hnext, hrest⟩ := mem_flatMap.mp hout
    cases op with
    | bloom filter =>
      simp only [Op.apply, mem_ite_nil_right, mem_singleton] at hnext
      rw [hnext.2] at hrest
      exact ih hrest
    | filter | project | limit | probe => exact mem_flatMap.mpr ⟨next, hnext, ih hrest⟩

theorem eq_of_blooms (hops : ∀ op ∈ ops, op.isBloom) (hout : out ∈ outputs hashes ops row) :
    out = row := by
  have hnone : ops.filter (!·.isBloom) = [] :=
    filter_eq_nil_iff.mpr fun op hop => by simp [hops op hop]
  have hout := outputs_unfiltered hout
  rw [hnone] at hout
  exact mem_singleton.mp hout

theorem frontLoadBlooms_eq (scanCols : List String) (ops : List Op) :
    ∃ moves : Op × Nat → Bool,
      frontLoadBlooms scanCols ops = ops.zipIdx.filter moves ++ ops.zipIdx.filter (!moves ·) ∧
      (∀ placed, moves placed → placed.1.isBloom) ∧
      ∀ filter i, moves (.bloom filter, i) → ∀ name ∈ filter.leftKeys, name ∈ scanCols := by
  have hstay : ops.zipIdx = ops.zipIdx.filter (fun _ => false) ++ ops.zipIdx.filter (fun _ => !false) := by
    simp
  unfold frontLoadBlooms
  split
  · exact ⟨fun _ => false, hstay, by simp, by simp⟩
  · split
    · exact ⟨fun _ => false, hstay, by simp, by simp⟩
    · rename_i firstNonBloom _
      refine ⟨_, rfl, ?_, ?_⟩
      · rintro ⟨op, i⟩ hmoves
        cases op <;> first | rfl | cases hmoves
      · intro filter i hmoves
        simpa [Op.loadsFirst] using (Bool.and_eq_true_iff.mp hmoves).2

variable {moves : Op × Nat → Bool} (hbloom : ∀ placed, moves placed → placed.1.isBloom)

include hbloom

private theorem filter_moved (placed : List (Op × Nat)) :
    ((placed.filter moves).map Prod.fst).filter (!·.isBloom) = [] := by
  simp only [filter_eq_nil_iff, mem_map, mem_filter]
  rintro _ ⟨op, hop, rfl⟩
  simp [hbloom op hop.2]

private theorem filter_unmoved (placed : List (Op × Nat)) :
    ((placed.filter (!moves ·)).map Prod.fst).filter (!·.isBloom) =
      (placed.map Prod.fst).filter (!·.isBloom) := by
  rw [filter_map, filter_map, filter_filter]
  congr 1
  refine filter_congr fun op _ => ?_
  cases hmoves : moves op with
  | false => simp
  | true => simp [hbloom op hmoves]

end Chain

section Plans

variable {hashes : Hashes} {plan : JoinPlan} {group : RowGroup} {row out : Row}
  {key : List (Option Value)} {op : BloomFilterOp}

-- Either the filter goes to the head, where it reads table columns, or it
-- stays right below its probe.
theorem filter_placed (hop : plan.join.bloomPushdownOp hashes = some op) :
    ((∀ op ∈ plan.upstream hashes, op.isBloom) ∧ (∀ name ∈ op.leftKeys, name ∈ plan.required) ∧
      (plan.downstream hashes).filter (!·.isBloom) = plan.before.filter (!·.isBloom)) ∨
    plan.downstream hashes = [] := by
  obtain ⟨moves, horder, hbloom, hkeys⟩ := frontLoadBlooms_eq plan.required (plan.ops hashes)
  have hzip : (plan.ops hashes).zipIdx = plan.before.zipIdx ++ (Op.bloom op, plan.before.length) ::
      (Op.probe plan.probe, plan.before.length + 1) :: plan.after.zipIdx (plan.before.length + 2) := by
    simp [JoinPlan.ops, hop, zipIdx_append]
  have hprobe : moves (Op.probe plan.probe, plan.before.length + 1) = false := by
    by_contra hmoves
    exact absurd (hbloom _ (Bool.eq_true_of_not_eq_false hmoves)) (by simp [Op.isBloom])
  have hbefore : ∀ p : Op × Nat → Bool, ∀ placed ∈ plan.before.zipIdx.filter p,
      placed.2 < plan.before.length :=
    fun p placed hmem => by simpa using snd_lt_add_of_mem_zipIdx (mem_filter.mp hmem).1
  have hafter : ∀ p : Op × Nat → Bool, ∀ placed ∈ (plan.after.zipIdx (plan.before.length + 2)).filter p,
      plan.before.length + 2 ≤ placed.2 :=
    fun p placed hmem => le_snd_of_mem_zipIdx (mem_filter.mp hmem).1
  by_cases hmoves : moves (Op.bloom op, plan.before.length)
  · left
    have hchain : frontLoadBlooms plan.required (plan.ops hashes) =
        plan.before.zipIdx.filter moves ++ (Op.bloom op, plan.before.length) ::
          (((plan.after.zipIdx (plan.before.length + 2)).filter moves ++
            plan.before.zipIdx.filter (!moves ·)) ++ (Op.probe plan.probe, plan.before.length + 1) ::
              (plan.after.zipIdx (plan.before.length + 2)).filter (!moves ·)) := by
      rw [horder, hzip]
      simp [hmoves, hprobe]
    have hup : plan.upstream hashes = (plan.before.zipIdx.filter moves).map Prod.fst := by
      rw [JoinPlan.upstream, hchain, takeWhile_append_of_pos fun placed hmem => by
        simpa using (hbefore moves placed hmem).ne]
      simp
    have hdown : plan.downstream hashes =
        ((plan.after.zipIdx (plan.before.length + 2)).filter moves ++
          plan.before.zipIdx.filter (!moves ·)).map Prod.fst := by
      rw [JoinPlan.downstream, hchain, dropWhile_append_of_pos fun placed hmem => by
        simpa using (hbefore moves placed hmem).ne]
      rw [dropWhile_cons_of_neg (by simp), tail_cons, takeWhile_append_of_pos]
      · simp
      · intro placed hmem
        rcases mem_append.mp hmem with hmem | hmem
        · have hle := hafter moves placed hmem
          exact decide_eq_true (by omega)
        · have hlt := hbefore _ placed hmem
          exact decide_eq_true (by omega)
    refine ⟨?_, hkeys op _ hmoves, ?_⟩
    · rw [hup]
      intro other hother
      obtain ⟨placed, hmem, rfl⟩ := mem_map.mp hother
      exact hbloom placed (mem_filter.mp hmem).2
    · rw [hdown, map_append, filter_append, filter_moved hbloom, filter_unmoved hbloom, zipIdx_map_fst,
        nil_append]
  · right
    have hchain : frontLoadBlooms plan.required (plan.ops hashes) =
        (plan.before.zipIdx.filter moves ++ ((plan.after.zipIdx (plan.before.length + 2)).filter moves ++
            plan.before.zipIdx.filter (!moves ·))) ++ (Op.bloom op, plan.before.length) ::
            (Op.probe plan.probe, plan.before.length + 1) ::
              (plan.after.zipIdx (plan.before.length + 2)).filter (!moves ·) := by
      rw [horder, hzip]
      simp [hmoves, hprobe]
    rw [JoinPlan.downstream, hchain, dropWhile_append_of_pos, dropWhile_cons_of_neg (by simp), tail_cons]
    · simp
    · intro placed hmem
      simp only [mem_append] at hmem
      rcases hmem with hmem | hmem | hmem
      · simpa using (hbefore _ placed hmem).ne
      · simpa using (Nat.lt_of_lt_of_le (by omega) (hafter _ placed hmem)).ne'
      · simpa using (hbefore _ placed hmem).ne

section Kept

variable (hintact : plan.KeysIntact hashes) (hgroup : group.Of plan) (hrow : row ∈ group.rows)
  (hout : out ∈ plan.reaching hashes row)

include hintact hgroup hrow hout

theorem key_bounded {pair : KeyPair} (hpair : pair ∈ plan.join.keys) (hbuild : pair.build.id ≠ .decimal)
    {lo hi v : Value} {column : Column} (hbounds : group.stats.bounds pair.left = some (lo, hi))
    (hcolumn : columnIndexFallback out pair.left = some (column, some v)) :
    pair.unitsAgree ∧ lo.le v ∧ v.le hi := by
  have hsees : plan.sees pair := by
    simp [JoinPlan.sees, hgroup.footer _ _ hbounds, hbuild]
  obtain ⟨hunits, hcarries⟩ := hintact pair hpair hsees
  rw [hcarries row (hgroup.named row hrow) out hout] at hcolumn
  exact ⟨hunits, hgroup.bounded row hrow _ _ _ _ _ hbounds hcolumn⟩

omit hintact hgroup hrow hout in
private theorem getElem?_of_forall₂ {α β : Type} {R : α → β → Prop} {xs : List α} {ys : List β}
    (h : List.Forall₂ R xs ys) {i : Nat} {x : α} (hx : xs[i]? = some x) :
    ∃ y, ys[i]? = some y ∧ R x y := by
  obtain ⟨hi, rfl⟩ := List.getElem?_eq_some_iff.mp hx
  have hy : i < ys.length := h.length_eq ▸ hi
  exact ⟨ys[i], getElem?_eq_getElem hy, h.get hi hy⟩

variable (hkey : key ∈ plan.join.build) (hmatch : plan.join.Matches out key)

include hkey hmatch

theorem not_rangePruned :
    canRangePruneRowGroup plan.join.buildKeyRange group.stats = false := by
  rw [canRangePruneRowGroup, any_eq_false]
  intro range hrange
  unfold HashJoin.buildKeyRange at hrange
  split at hrange
  swap
  · simp at hrange
  obtain ⟨⟨pair, i⟩, hzip, hmap⟩ := mem_filterMap.mp hrange
  have hpair := mem_zipIdx_iff_getElem?.mp hzip
  obtain ⟨⟨lo, hi⟩, hvalues, rfl⟩ := Option.map_eq_some_iff.mp hmap
  obtain ⟨cell, hcell, column, v, w, hcolumn, -, rfl, hequal⟩ := getElem?_of_forall₂ hmatch hpair
  have hmem : w ∈ plan.join.buildColumn i := mem_filterMap.mpr ⟨key, hkey, by simp [hcell]⟩
  obtain ⟨hlo, hhi⟩ := updateKeyMinMax_bounds hvalues hmem hequal
  have hbuild : pair.build.id ≠ .decimal := by
    intro hdecimal
    simp [hdecimal, updateKeyMinMax] at hvalues
  split
  · simp
  · rename_i statLo statHi hbounds
    obtain ⟨hunits, hstatLo, hstatHi⟩ :=
      key_bounded hintact hgroup hrow hout (mem_of_getElem? hpair) hbuild hbounds hcolumn
    obtain rfl := eq_of_unitsAgree hunits hbuild hequal
    simp [(compareValues_of_le (Value.le_trans hlo hstatHi)).1, (compareValues_of_le (Value.le_trans hstatLo hhi)).2]

theorem not_bloomPruned (hop : plan.join.bloomPushdownOp hashes = some op) {filter : BloomScanFilter}
    (hfilter : op.bloomScanFilter = some filter) :
    canBloomPruneRowGroup hashes filter group.stats = false := by
  obtain ⟨pair, hkeys, hpath, hfilter⟩ : ∃ pair, plan.join.keys = [pair] ∧
      HashJoin.usesIntPath pair ∧ filter = ⟨op.bloom, pair.left⟩ := by
    rw [bloomPushdownOp_eq_some hop] at hfilter ⊢
    simp only [BloomFilterOp.bloomScanFilter, HashJoin.useIntKey] at hfilter
    split at hfilter
    · rename_i column hint hcolumns
      split at hint
      · rename_i pair hkeys
        refine ⟨pair, hkeys, hint, ?_⟩
        have hcolumn : pair.left = column := by simpa [hkeys] using hcolumns
        rw [hcolumn, ← Option.some.inj hfilter]
      · cases hint
    · cases hfilter
  have hpair : pair ∈ plan.join.keys := by simp [hkeys]
  have hbuild : pair.build.id ≠ .decimal := by
    intro hdecimal
    simp [HashJoin.usesIntPath, joinKeyUsesIntPath, isIntKeyColumn, hdecimal] at hpath
  obtain ⟨cell, hcell, column, v, w, hcolumn, -, rfl, hequal⟩ :=
    getElem?_of_forall₂ (i := 0) hmatch (by rw [hkeys]; rfl)
  obtain ⟨n, rfl, rfl⟩ := equal_of_usesIntPath hpath hequal
  have hcontains : op.bloom.contains (hashes.int n) := by
    rw [bloomPushdownOp_eq_some hop]
    apply Data.Bloom.contains_ofHashes
    refine mem_filterMap.mpr ⟨key, hkey, ?_⟩
    have hsingle : key = [some (.int n)] := by
      have hlength := hmatch.length_eq
      rw [hkeys] at hlength
      obtain ⟨only, rfl⟩ := length_eq_one_iff.mp hlength.symm
      simpa using hcell
    simp [HashJoin.buildKeyHash, HashJoin.useIntKey, hkeys, hpath, hsingle]
  rw [hfilter, canBloomPruneRowGroup]
  split
  · rfl
  · rename_i lo hi hbounds
    obtain ⟨-, hlo, hhi⟩ := key_bounded hintact hgroup hrow hout hpair hbuild hbounds hcolumn
    -- both bounds are integers, since the cell between them is one
    cases lo with
    | str s => exact hlo.elim
    | int lo =>
      cases hi with
      | str s => exact hhi.elim
      | int hi =>
        simp only [Value.le] at hlo hhi
        have hfound : ((range (hi - lo + 1).toNat).all fun (i : Nat) =>
            !op.bloom.contains (hashes.int (lo + i))) = false := by
          rw [all_eq_false]
          refine ⟨(n - lo).toNat, mem_range.mpr (by omega), ?_⟩
          have hn : lo + ((n - lo).toNat : Int) = n := by omega
          rw [hn, hcontains]
          decide
        simp only [toBloomInt64, hfound, ite_self]

end Kept

theorem matches_scan (hintact : plan.KeysIntact hashes) (hgroup : group.Of plan) (hrow : row ∈ group.rows)
    (hout : out ∈ plan.reaching hashes row) (hmatch : plan.join.Matches out key)
    (hrequired : ∀ pair ∈ plan.join.keys, pair.left ∈ plan.required) :
    plan.join.Matches (plan.scan row) key := by
  have hkeys : ∀ pair ∈ plan.join.keys,
      columnIndexFallback out pair.left = (plan.scan row).columnIndex pair.left := by
    intro pair hpair
    have hsees : plan.sees pair := by
      simpa [JoinPlan.sees, plan.required_subset (hrequired pair hpair)] using Or.inr hrequired
    rw [(hintact pair hpair hsees).2 row (hgroup.named row hrow) out hout,
      columnIndex_scan plan (hrequired pair hpair)]
  refine List.Forall₂.imp ?_ ((forall₂_and_left _ _).mpr ⟨hkeys, hmatch⟩)
  rintro pair cell ⟨hsame, column, v, w, hcolumn, hrest⟩
  exact ⟨column, v, w, columnIndexFallback_of_columnIndex (hsame ▸ hcolumn), hrest⟩

theorem keepsMatches_of_intact (hintact : plan.KeysIntact hashes) : plan.KeepsMatches hashes := by
  intro group hgroup row hrow key hkey
  constructor
  · intro out hout hmatch
    rw [JoinPlan.prunes, not_rangePruned hintact hgroup hrow hout hkey hmatch, Bool.false_or,
      Option.any_eq_false]
    intro filter hfilter
    obtain ⟨op, hop, hfilter⟩ := Option.bind_eq_some_iff.mp hfilter
    simp [not_bloomPruned hintact hgroup hrow hout hkey hmatch hop hfilter]
  · intro op hop seen hseen out hout hmatch batches hin
    refine mem_run .initial batches (mayMatch_of_matches hop hkey ?_) hin
    rcases filter_placed hop with ⟨hblooms, hleft, hsame⟩ | hlast
    · obtain rfl := eq_of_blooms hblooms hseen
      have hreach : out ∈ plan.reaching hashes row := by
        rw [JoinPlan.reaching, ← hsame]
        exact outputs_unfiltered hout
      rw [bloomPushdownOp_eq_some hop] at hleft
      exact matches_scan hintact hgroup hrow hreach hmatch
        fun pair hpair => hleft pair.left (mem_map_of_mem hpair)
    · rw [hlast] at hout
      rwa [← mem_singleton.mp hout]

end Plans

section Families

variable (hashes : Hashes)

def plainProbe : Probe := ⟨.semi, fun _ => [], [], fun _ => true⟩

def innerJoin (pair : KeyPair) (mask : Nat) (build : List (List (Option Value))) : HashJoin :=
  ⟨.inner, [pair], build, mask, false⟩

def scanPlan (pair : KeyPair) (mask : Nat) (build : List (List (Option Value))) : JoinPlan where
  columns := [pair.left]
  required := [pair.left]
  required_subset := List.Subset.refl _
  before := []
  join := innerJoin pair mask build
  probe := plainProbe
  after := []

-- A join that probes with `SELECT src AS key` over a table of BIGINTs.
def renamingPlan (columns : List String) (src key : String) (hsrc : src ∈ columns) (mask : Nat)
    (build : List (List (Option Value))) : JoinPlan where
  columns := columns
  required := [src]
  required_subset := by simpa using hsrc
  before := [.project [⟨key, .column src⟩]]
  join := innerJoin ⟨key, ⟨.int64, 0⟩, ⟨.int64, 0⟩⟩ mask build
  probe := plainProbe
  after := []

def singleGroup (row : Row) (name : String) (v : Int) : RowGroup :=
  ⟨⟨1, [(name, ⟨true, some (.int v), some (.int v), 0⟩)]⟩, [row]⟩

theorem bounds_single (row : Row) (name other : String) (v : Int) :
    (singleGroup row name v).stats.bounds other =
      if other = name then some (.int v, .int v) else none := by
  by_cases h : other = name
  · subst h
    simp [singleGroup, RowGroupStats.bounds]
  · simp [singleGroup, RowGroupStats.bounds, lookup_cons, beq_false_of_ne h, h]

variable {plan : JoinPlan} {row : Row} {v : Int}

theorem singleGroup_of {name : String} {column : Column}
    (hnamed : row.map (·.1.name) = plan.columns) (hname : name ∈ plan.columns)
    (hcell : row.columnIndex name = some (column, some (.int v))) : (singleGroup row name v).Of plan where
  named := by simpa [singleGroup] using hnamed
  footer := by
    intro other bounds h
    rw [bounds_single] at h
    split at h
    · subst other
      exact hname
    · cases h
  bounded := by
    intro row' hrow other lo hi column' v' h hcell'
    obtain rfl : row' = row := by simpa [singleGroup] using hrow
    rw [bounds_single] at h
    split at h
    · subst other
      rw [hcell, Option.some.injEq, Prod.mk.injEq, Option.some.injEq] at hcell'
      rw [Option.some.injEq, Prod.mk.injEq] at h
      rw [← h.1, ← h.2, ← hcell'.2]
      exact ⟨Int.le_refl v, Int.le_refl v⟩
    · cases h

variable {pair : KeyPair}

theorem prunes_single {mask : Nat} {w : Int}
    (hjoin : plan.join = innerJoin pair mask [[some (.int w)]])
    (htype : isIntKeyColumn pair.build.id) (hne : v ≠ w) :
    plan.prunes hashes (singleGroup row pair.left v).stats := by
  have hrange : plan.join.buildKeyRange = [⟨pair.left, .int w, .int w⟩] := by
    have hvalues : updateKeyMinMax pair.build.id [.int w] = some (.int w, .int w) := by
      cases hid : pair.build.id <;> rw [hid] at htype <;>
        first
        | rfl
        | cases htype
    have hcolumn : (innerJoin pair mask [[some (.int w)]]).buildColumn 0 = [.int w] := rfl
    rw [hjoin]
    simp only [HashJoin.buildKeyRange, HashJoin.dropsUnmatchedProbe, if_true, innerJoin, zipIdx_cons,
      zipIdx_nil, filterMap_cons, filterMap_nil]
    rw [innerJoin] at hcolumn
    simp [hcolumn, hvalues]
  have hprune : canRangePruneRowGroup [⟨pair.left, .int w, .int w⟩] (singleGroup row pair.left v).stats =
      true := by
    rcases lt_or_gt_of_ne hne with hlt | hgt
    · simp [canRangePruneRowGroup, bounds_single, compareValues, cmpOrdered, hlt]
    · simp [canRangePruneRowGroup, bounds_single, compareValues, cmpOrdered, hgt, hgt.not_gt]
  rw [JoinPlan.prunes, hrange, hprune, Bool.true_or]

theorem exists_distant_pair (h : pair.unitsAgree ≠ true) :
    ∃ v w : Int, pair.equal (.int v) (.int w) ∧ v ≠ w ∧ isIntKeyColumn pair.build.id := by
  obtain ⟨left, ⟨probe, scale⟩, ⟨build, scale'⟩⟩ := pair
  cases probe <;> cases build <;>
    simp_all [KeyPair.unitsAgree, KeyPair.equal, KeyPair.common, joinKeyCommonType, joinKeyNumeric,
      isIntKeyColumn, VectorType.decimalScale, VectorType.millis]
  · exact ⟨1, by decide⟩
  · exact ⟨1, by decide⟩
  all_goals
    refine ⟨1, ?_⟩
    have hlt : (1 : Int) < 10 ^ scale := one_lt_pow₀ (by decide) h
    rw [Int.one_mul]
    exact hlt.ne'

theorem not_keepsMatches_scan (mask : Nat) {w : Int} (hequal : pair.equal (.int v) (.int w))
    (hne : v ≠ w) (htype : isIntKeyColumn pair.build.id) :
    ¬ (scanPlan pair mask [[some (.int w)]]).KeepsMatches hashes := by
  intro hkeeps
  let row : Row := [(⟨pair.left, pair.probe⟩, some (.int v))]
  have hcell : row.columnIndex pair.left = some (⟨pair.left, pair.probe⟩, some (.int v)) := by
    simp [row, Row.columnIndex]
  have hscan : (scanPlan pair mask [[some (.int w)]]).scan row = row := by
    simp [row, JoinPlan.scan, scanPlan]
  have hmatch : (scanPlan pair mask [[some (.int w)]]).join.Matches row [some (.int w)] :=
    .cons ⟨_, .int v, .int w, columnIndexFallback_of_columnIndex hcell, rfl, rfl, hequal⟩ .nil
  have hgroup : (singleGroup row pair.left v).Of (scanPlan pair mask [[some (.int w)]]) :=
    singleGroup_of rfl (by simp [scanPlan]) hcell
  have hread := (hkeeps _ hgroup row (by simp [singleGroup]) _ (mem_singleton.mpr rfl)).1 row
    (by rw [JoinPlan.reaching, hscan]; exact mem_singleton.mpr rfl) hmatch
  rw [prunes_single hashes rfl htype hne] at hread
  cases hread

theorem keepsMatches_scan_iff (pair : KeyPair) (mask : Nat) :
    (∀ build, (scanPlan pair mask build).KeepsMatches hashes) ↔ pair.unitsAgree := by
  constructor
  · intro hkeeps
    by_contra hunits
    obtain ⟨v, w, hequal, hne, htype⟩ := exists_distant_pair hunits
    exact not_keepsMatches_scan hashes mask hequal hne htype (hkeeps _)
  · intro hunits build
    apply keepsMatches_of_intact
    intro other hother _
    obtain rfl := mem_singleton.mp hother
    refine ⟨hunits, fun row hnamed out hout => ?_⟩
    obtain rfl := mem_singleton.mp hout
    have hmem : other.left ∈ row.map (·.1.name) := by simp [hnamed, scanPlan]
    obtain ⟨type, v, hcell⟩ := columnIndex_of_named hmem
    rw [hcell]
    exact columnIndexFallback_of_columnIndex
      ((columnIndex_scan _ (mem_singleton.mpr rfl) row).trans hcell)

theorem keepsMatches_renaming_iff (columns : List String) (src key : String) (hsrc : src ∈ columns)
    (mask : Nat) :
    (∀ build, (renamingPlan columns src key hsrc mask build).KeepsMatches hashes) ↔
      (src = key ∨ key ∉ columns) := by
  constructor
  · intro hkeeps
    by_contra hclash
    obtain ⟨hne, hkey⟩ := not_or.mp hclash
    have hkey := not_not.mp hkey
    let plan := renamingPlan columns src key hsrc mask [[some (.int 0)]]
    let cellOf (name : String) : Cell := (⟨name, ⟨.int64, 0⟩⟩, some (.int (if name = key then 1 else 0)))
    let row : Row := columns.map cellOf
    let out : Row := [(⟨key, ⟨.int64, 0⟩⟩, some (.int 0))]
    have hindex : ∀ name ∈ columns, row.columnIndex name = some (cellOf name) := by
      intro name hname
      have hname' : (fun cell : Cell => cell.1.name == name) ∘ cellOf = fun other => other == name := rfl
      obtain ⟨found, hfound⟩ : ∃ found, columns.find? (· == name) = some found :=
        Option.isSome_iff_exists.mp (find?_isSome.mpr ⟨name, hname, by simp⟩)
      have heq : found = name := by simpa using find?_some hfound
      rw [Row.columnIndex, find?_map, hname', hfound, heq, Option.map_some]
    have hscan : (plan.scan row).columnIndex src = some (cellOf src) := by
      rw [JoinPlan.scan, columnIndex_filter plan.required.contains (by simp [plan, renamingPlan]),
        hindex src hsrc]
    have hout : out ∈ plan.reaching hashes row := by
      have happly : Projection.apply ⟨key, .column src⟩ (plan.scan row) =
          (⟨key, ⟨.int64, 0⟩⟩, some (.int 0)) := by
        simp [Projection.apply, columnIndexFallback_of_columnIndex hscan, cellOf, hne]
      simp only [JoinPlan.reaching, plan, renamingPlan, filter_cons, Op.isBloom, Bool.not_false,
        if_true, filter_nil, outputs, Op.apply, flatMap_cons, flatMap_nil,
        append_nil, map_cons, map_nil, mem_singleton] at happly ⊢
      rw [happly]
    have hstored : row.columnIndex key = some (⟨key, ⟨.int64, 0⟩⟩, some (.int 1)) := by
      rw [hindex key hkey]
      simp [cellOf]
    have hgroup : (singleGroup row key 1).Of plan :=
      singleGroup_of (by simp [row, plan, renamingPlan, cellOf, Function.comp_def]) hkey
        hstored
    have hmatch : plan.join.Matches out [some (.int 0)] :=
      .cons ⟨⟨key, ⟨.int64, 0⟩⟩, .int 0, .int 0,
        columnIndexFallback_of_columnIndex (by simp [out, Row.columnIndex]), rfl, rfl, rfl⟩ .nil
    have hread := (hkeeps [[some (.int 0)]] _ hgroup row (by simp [singleGroup]) _
      (mem_singleton.mpr rfl)).1 out hout hmatch
    have hpruned : plan.prunes hashes (singleGroup row key 1).stats :=
      prunes_single hashes (show plan.join = innerJoin ⟨key, ⟨.int64, 0⟩, ⟨.int64, 0⟩⟩ mask _ from rfl) rfl
        (by decide)
    exact Bool.false_ne_true (hread.symm.trans hpruned)
  · rintro hname build
    apply keepsMatches_of_intact
    intro pair hpair hsees
    obtain rfl := mem_singleton.mp hpair
    refine ⟨rfl, fun row hnamed out hout => ?_⟩
    obtain rfl := mem_singleton.mp hout
    obtain rfl : src = key := by
      refine hname.resolve_right fun hkey => hkey ?_
      simpa [renamingPlan] using (Bool.and_eq_true_iff.mp hsees).1
    obtain ⟨type, v, hcell⟩ := columnIndex_of_named (hnamed ▸ hsrc : src ∈ row.map (·.1.name))
    have hscan := columnIndexFallback_of_columnIndex ((columnIndex_scan
      (renamingPlan columns src src hsrc mask build) (mem_singleton.mpr rfl) row).trans hcell)
    rw [hcell]
    apply columnIndexFallback_of_columnIndex
    simp [Row.columnIndex, Projection.apply, hscan]

end Families

-- Pruning is sound where every key the scan can see is that table column and
-- has a range in the footer's unit. On a bare scan and on a renaming
-- projection the two conditions are also necessary.
theorem joinPruning_keeps_matches (hashes : Hashes) :
    (∀ plan : JoinPlan, plan.KeysIntact hashes → plan.KeepsMatches hashes) ∧
    (∀ (pair : KeyPair) (mask : Nat),
      (∀ build, (scanPlan pair mask build).KeepsMatches hashes) ↔ pair.unitsAgree) ∧
    (∀ (columns : List String) (src key : String) (hsrc : src ∈ columns) (mask : Nat),
      (∀ build, (renamingPlan columns src key hsrc mask build).KeepsMatches hashes) ↔
        (src = key ∨ key ∉ columns)) := by
  refine ⟨?_, ?_, ?_⟩
  · intro plan hintact
    exact keepsMatches_of_intact hintact
  · exact keepsMatches_scan_iff hashes
  · exact keepsMatches_renaming_iff hashes

def constantHashes : Hashes := ⟨fun _ => 0, fun _ _ => 0, fun _ => 0⟩

def dayPair : KeyPair := ⟨"day", ⟨.date, 0⟩, ⟨.date, 0⟩⟩

def pricePair : KeyPair := ⟨"price", ⟨.decimal, 2⟩, ⟨.int64, 0⟩⟩

-- A scan of a table that also has a column `src`, renamed below the join.
def dayPlan : JoinPlan where
  columns := ["day", "src"]
  required := ["day", "src"]
  required_subset := List.Subset.refl _
  before := [.project [⟨"day", .column "day"⟩, ⟨"origin", .column "src"⟩], .limit 10]
  join := innerJoin dayPair 7 [[some (.int 19724)], [none]]
  probe := plainProbe
  after := []

theorem dayPlan_intact : dayPlan.KeysIntact constantHashes := by
  intro pair hpair _
  obtain rfl := mem_singleton.mp hpair
  refine ⟨rfl, fun row hnamed out hout => ?_⟩
  have hday : "day" ∈ row.map (·.1.name) := by simp [hnamed, dayPlan]
  obtain ⟨type, v, hcell⟩ := columnIndex_of_named hday
  have hscan := columnIndexFallback_of_columnIndex
    ((columnIndex_scan dayPlan (by decide) row).trans hcell)
  obtain rfl : out = [Projection.apply ⟨"day", .column "day"⟩ (dayPlan.scan row),
      Projection.apply ⟨"origin", .column "src"⟩ (dayPlan.scan row)] := by
    simpa [JoinPlan.reaching, dayPlan, outputs, Op.apply, Op.isBloom] using hout
  rw [dayPair, hcell]
  apply columnIndexFallback_of_columnIndex
  simp [Row.columnIndex, Projection.apply, hscan]

theorem joinPruning_keeps_matches_day :
    dayPlan.KeysIntact constantHashes ∧ dayPlan.KeepsMatches constantHashes :=
  ⟨dayPlan_intact, (joinPruning_keeps_matches constantHashes).1 dayPlan dayPlan_intact⟩

-- An INT build key 2 and a row group of 2.00, whose footer says 200.
theorem joinPruning_loses_matches :
    ¬ (scanPlan pricePair 7 [[some (.int 2)]]).KeepsMatches constantHashes :=
  not_keepsMatches_scan constantHashes 7 (show pricePair.equal (.int 200) (.int 2) by decide)
    (by decide) rfl

end Wadjet.Physical.JoinPruning
