import Wadjet.Engine.Exec.SortMergeJoin.Streams

namespace Wadjet.Engine.Exec.SortMergeJoin

open Wadjet.Data Wadjet.Engine.Exec.Sort List

variable {L B V : Type} {cfg : Config L B V}

section Order

def sumKeys (keys : List (JoinKey L B V)) : List (SortKey (L ⊕ B) V) :=
  keys.map fun k => ⟨Sum.elim k.left k.right, k.kernel, .ascending, false⟩

def sumCells (keys : List (JoinKey L B V)) (x y : L ⊕ B) : List ((V → V → Int) × Cell V × Cell V) :=
  keys.map fun k => (k.kernel, Sum.elim k.left k.right x, Sum.elim k.left k.right y)

def sumLe (cfg : Config L B V) : L ⊕ B → L ⊕ B → Bool :=
  keysLe (sumKeys cfg.keys)

theorem isOrder_sumLe (hkeys : ∀ k ∈ cfg.keys, IsKernel k.kernel) : IsOrder (sumLe cfg) :=
  isOrder_keysLe (forall_mem_map.mpr hkeys)

theorem keysLe_through {R : Type} (row : R → L ⊕ B) (keys : List (JoinKey L B V)) (x y : R) :
    keysLe (keys.map fun k => ⟨fun r => Sum.elim k.left k.right (row r), k.kernel, .ascending, false⟩) x y =
      keysLe (sumKeys keys) (row x) (row y) := by
  unfold sumKeys
  induction keys with
  | nil => rfl
  | cons k keys ih =>
    rw [map_cons, keysLe, lexLe, ih]
    rfl

theorem keysLe_probe (p p' : L) : keysLe cfg.probe.keys p p' = sumLe cfg (.inl p) (.inl p') :=
  keysLe_through Sum.inl cfg.keys p p'

theorem keysLe_build (b b' : B) : keysLe cfg.build.keys b b' = sumLe cfg (.inr b) (.inr b') :=
  keysLe_through Sum.inr cfg.keys b b'

theorem keyLe_cons {k : JoinKey L B V} (hkernel : IsKernel k.kernel) (x y : L ⊕ B) :
    let key : SortKey (L ⊕ B) V := ⟨Sum.elim k.left k.right, k.kernel, .ascending, false⟩
    let cmp := sortCompare k.kernel (Sum.elim k.left k.right x) (Sum.elim k.left k.right y)
    (keyLe key x y ↔ cmp ≤ 0) ∧ (keyLe key y x ↔ 0 ≤ cmp) := by
  have hcompare : IsKernel (sortCompare k.kernel) := hkernel.placed false
  refine ⟨decide_eq_true_iff, decide_eq_true_iff.trans ?_⟩
  exact (hcompare.nonneg_iff _ _).symm

variable {keys : List (JoinKey L B V)}

theorem compareCells_spec (hkeys : ∀ k ∈ keys, IsKernel k.kernel) (x y : L ⊕ B) :
    (compareCells (sumCells keys x y) ≤ 0 ↔ keysLe (sumKeys keys) x y) ∧
      (0 ≤ compareCells (sumCells keys x y) ↔ keysLe (sumKeys keys) y x) := by
  induction keys with
  | nil => exact ⟨iff_of_true (Int.le_refl 0) rfl, iff_of_true (Int.le_refl 0) rfl⟩
  | cons k keys ih =>
    obtain ⟨hkey, hrest⟩ := forall_mem_cons.mp hkeys
    obtain ⟨hle, hge⟩ := ih hrest
    obtain ⟨hxy, hyx⟩ := keyLe_cons hkey x y
    rw [sumCells, map_cons, compareCells, sumKeys, map_cons, keysLe, keysLe, lexLe_iff,
      lexLe_iff, hxy, hyx]
    rw [← sumCells, ← sumKeys, ← hle, ← hge]
    generalize sortCompare k.kernel (Sum.elim k.left k.right x) (Sum.elim k.left k.right y) = c
    by_cases hc : c = 0
    · omega
    · omega

theorem cellsEqual_iff (cells : List ((V → V → Int) × Cell V × Cell V)) :
    cellsEqual cells ↔ compareCells cells = 0 := by
  induction cells with
  | nil => exact iff_of_true rfl rfl
  | cons c cells ih =>
    rw [cellsEqual, all_cons, ← cellsEqual, Bool.and_eq_true, ih, beq_iff_eq, compareCells]
    split <;> simp_all

theorem cellsEqual_eq (hkeys : ∀ k ∈ keys, IsKernel k.kernel)
    (x y : L ⊕ B) : cellsEqual (sumCells keys x y) = ties (keysLe (sumKeys keys)) x y := by
  obtain ⟨hle, hge⟩ := compareCells_spec hkeys x y
  rw [Bool.eq_iff_iff, ties_iff, cellsEqual_iff, ← hle, ← hge]
  omega

variable (hkeys : ∀ k ∈ cfg.keys, IsKernel k.kernel)

include hkeys

theorem compareLR_neg_iff (p : L) (b : B) : compareLR cfg p b < 0 ↔ sumLe cfg (.inr b) (.inl p) = false := by
  rw [← Bool.not_eq_true, sumLe, ← (compareCells_spec hkeys (.inl p) (.inr b)).2]
  exact Int.not_le.symm

theorem compareLR_pos_iff (p : L) (b : B) : 0 < compareLR cfg p b ↔ sumLe cfg (.inl p) (.inr b) = false := by
  rw [← Bool.not_eq_true, sumLe, ← (compareCells_spec hkeys (.inl p) (.inr b)).1]
  exact Int.not_le.symm

theorem keysEqualLR_eq (p : L) (b : B) : keysEqualLR cfg p b = ties (sumLe cfg) (.inl p) (.inr b) :=
  cellsEqual_eq hkeys (.inl p) (.inr b)

theorem keysEqualRR_eq (b b' : B) : keysEqualRR cfg b b' = ties (sumLe cfg) (.inr b) (.inr b') :=
  cellsEqual_eq hkeys (.inr b) (.inr b')

theorem isKernel_probe : ∀ key ∈ cfg.probe.keys, IsKernel key.kernel :=
  forall_mem_map.mpr hkeys

theorem isKernel_build : ∀ key ∈ cfg.build.keys, IsKernel key.kernel :=
  forall_mem_map.mpr hkeys

end Order

def SortedBuild (cfg : Config L B V) (rs : List B) : Prop :=
  rs.Pairwise fun b b' => sumLe cfg (.inr b) (.inr b')

def SortedProbe (cfg : Config L B V) (ls : List L) : Prop :=
  ls.Pairwise fun p p' => sumLe cfg (.inl p) (.inl p')

structure GroupOf (cfg : Config L B V) (key : B) (group rest : List B) : Prop where
  ties : ∀ g ∈ group, ties (sumLe cfg) (.inr g) (.inr key)
  after : ∀ b ∈ rest, sumLe cfg (.inr b) (.inr key) = false

variable {R : Type}

theorem sumLe_head {row : R → L ⊕ B} (hle : IsOrder (sumLe cfg)) {x y : R} {rows : List R}
    (hsorted : (x :: rows).Pairwise fun r r' => sumLe cfg (row r) (row r')) (hy : y ∈ x :: rows) :
    sumLe cfg (row x) (row y) := by
  obtain rfl | hy := mem_cons.mp hy
  · exact hle.refl _
  · exact (pairwise_cons.mp hsorted).1 y hy

variable {x y : L ⊕ B}

theorem sumLe_false_of_le (hle : IsOrder (sumLe cfg)) {z : L ⊕ B} (hxy : sumLe cfg x y)
    (hxz : sumLe cfg x z = false) : sumLe cfg y z = false := by
  rw [← Bool.not_eq_true]
  intro hyz
  rw [hle.trans _ _ _ hxy hyz] at hxz
  cases hxz

theorem ties_eq_false (h : sumLe cfg x y = false ∨ sumLe cfg y x = false) :
    ties (sumLe cfg) x y = false := by
  rw [← Bool.not_eq_true, ties_iff]
  rintro ⟨hxy, hyx⟩
  simp [hxy, hyx] at h

variable {key b : B} {rs : List B}

theorem after_of_head (hle : IsOrder (sumLe cfg))
    (hsorted : SortedBuild cfg (b :: rs)) (hb : sumLe cfg (.inr b) (.inr key) = false) :
    ∀ y ∈ b :: rs, sumLe cfg (.inr y) (.inr key) = false :=
  fun _ hy => sumLe_false_of_le hle (sumLe_head hle hsorted hy) hb

theorem collectRows_spec (hkeys : ∀ k ∈ cfg.keys, IsKernel k.kernel) (n : Nat) {r : Stream B}
    {rows : List B} (hr : StreamOf cfg.build r (b :: rows)) (hsorted : SortedBuild cfg (b :: rows))
    (hkey : ties (sumLe cfg) (.inr b) (.inr key)) (hn : (b :: rows).length ≤ n) :
    ∃ rest, b :: rows = (collectRows cfg key n r).1 ++ rest ∧ (collectRows cfg key n r).1 ≠ [] ∧
      StreamOf cfg.build (collectRows cfg key n r).2.1 rest ∧
      GroupOf cfg key (collectRows cfg key n r).1 rest := by
  have hle := isOrder_sumLe hkeys
  induction n generalizing r b rows with
  | zero => exact absurd hn (Nat.not_succ_le_zero _)
  | succ n ih =>
    obtain ⟨tail, hcur⟩ := hr.head
    have htake : r.cur.take 1 = [b] := by
      rw [hcur]
      rfl
    have hone : ∀ g ∈ [b], ties (sumLe cfg) (.inr g) (.inr key) := by
      intro g hg
      rwa [mem_singleton.mp hg]
    have hr' := hr.advance (isKernel_build hkeys)
    unfold collectRows
    dsimp only
    rw [htake]
    cases rows with
    | nil =>
      rw [(hr'.cur_eq_nil_iff).mpr rfl]
      exact ⟨[], rfl, cons_ne_nil _ _, hr', hone, nofun⟩
    | cons b' rows =>
      obtain ⟨tail', hcur'⟩ := hr'.head
      have hsorted' := (pairwise_cons.mp hsorted).2
      rw [hcur']
      dsimp only
      rw [keysEqualRR_eq hkeys]
      by_cases heq : ties (sumLe cfg) (.inr b') (.inr key)
      · rw [if_pos heq]
        obtain ⟨rest, hsplit, -, hstream, hgroup⟩ := ih hr' hsorted' heq (Nat.le_of_succ_le_succ hn)
        refine ⟨rest, ?_, cons_ne_nil _ _, hstream, ?_, hgroup.after⟩
        · rw [hsplit]
          rfl
        · intro g hg
          obtain rfl | hg := mem_cons.mp hg
          · exact hkey
          · exact hgroup.ties g hg
      · rw [if_neg heq]
        refine ⟨b' :: rows, rfl, cons_ne_nil _ _, hr', hone, after_of_head hle hsorted' ?_⟩
        rw [← Bool.not_eq_true]
        intro hback
        refine heq (ties_iff.mpr ⟨hback, ?_⟩)
        exact hle.trans _ _ _ (ties_iff.mp hkey).2 ((pairwise_cons.mp hsorted).1 b' mem_cons_self)

def pairsOn (cfg : Config L B V) (ls : List L) (rs : List B) : List (L × B) :=
  joinOn (fun p b => ties (sumLe cfg) (.inl p) (.inr b)) ls rs

def remaining (cfg : Config L B V) (s : State L B) (ls : List L) (rs : List B) : List (L × B) :=
  if s.groupActive then (pairsOn cfg ls (s.groupRefs ++ rs)).drop s.groupPos else pairsOn cfg ls rs

structure ActiveGroup (cfg : Config L B V) (s : State L B) (ls : List L) (rs : List B) : Prop where
  refs : ∃ key more, s.groupRefs = key :: more ∧ GroupOf cfg key s.groupRefs rs ∧
    (∀ p ∈ ls, sumLe cfg (.inr key) (.inl p)) ∧
    (0 < s.groupPos → ∃ p tail, ls = p :: tail ∧ ties (sumLe cfg) (.inl p) (.inr key))
  pos : s.groupPos < s.groupRefs.length

structure Inv (cfg : Config L B V) (s : State L B) (ls : List L) (rs : List B) : Prop where
  left : StreamOf cfg.probe s.lstream ls
  right : StreamOf cfg.build s.rstream rs
  sortedL : SortedProbe cfg ls
  sortedR : SortedBuild cfg rs
  active : s.groupActive → ActiveGroup cfg s ls rs
  inactive : s.groupActive = false → s.groupRefs = []
  ended : s.exhausted → remaining cfg s ls rs = []
  ledger : s.reserved = s.released + s.groupReserved + s.pendingRelease

def weight (cfg : Config L B V) (s : State L B) (ls : List L) (rs : List B) : Nat :=
  (remaining cfg s ls rs).length + 2 * ls.length + 2 * rs.length + if s.groupActive then 1 else 0

def Follows (cfg : Config L B V) (s s' : State L B) (ls : List L) (rs : List B) : Prop :=
  ∃ ls' rs', Inv cfg s' ls' rs' ∧
    s'.pending ++ remaining cfg s' ls' rs' = s.pending ++ remaining cfg s ls rs ∧ s'.done = s.done ∧
    (s'.exhausted = false → weight cfg s' ls' rs' < weight cfg s ls rs)

variable {s : State L B}

theorem remaining_inactive (h : s.groupActive = false) (ls : List L) (rs : List B) :
    remaining cfg s ls rs = pairsOn cfg ls rs := by
  rw [remaining, h, if_neg Bool.false_ne_true]

theorem remaining_active (h : s.groupActive) (ls : List L) (rs : List B) :
    remaining cfg s ls rs = (pairsOn cfg ls (s.groupRefs ++ rs)).drop s.groupPos := by
  rw [remaining, if_pos h]

theorem weight_inactive (h : s.groupActive = false) (ls : List L) (rs : List B) :
    weight cfg s ls rs = (remaining cfg s ls rs).length + 2 * ls.length + 2 * rs.length := by
  rw [weight, h, if_neg Bool.false_ne_true, Nat.add_zero]

theorem weight_active (h : s.groupActive) (ls : List L) (rs : List B) :
    weight cfg s ls rs = (remaining cfg s ls rs).length + 2 * ls.length + 2 * rs.length + 1 := by
  rw [weight, if_pos h]

theorem follows_exhausted {ls : List L} (h : Inv cfg s ls rs)
    (hactive : s.groupActive = false) (hdone : ls = [] ∨ rs = []) :
        Follows cfg s { s with exhausted := true } ls rs := by
  have hnone : pairsOn cfg ls rs = [] := by
    obtain rfl | rfl := hdone
    · rfl
    · exact joinOn_nil_right
  refine ⟨ls, rs, ?_, rfl, rfl, nofun⟩
  exact ⟨h.left, h.right, h.sortedL, h.sortedR, fun h => (nomatch hactive.symm.trans h), h.inactive,
    fun _ => (remaining_inactive hactive ls rs).trans hnone, h.ledger⟩

section Steps

variable (hkeys : ∀ k ∈ cfg.keys, IsKernel k.kernel) {s : State L B} {ls : List L} {rs : List B} {p : L} {b : B}

include hkeys

section

variable (h : Inv cfg s (p :: ls) (b :: rs)) (hactive : s.groupActive = false)
  (hrun : s.exhausted = false)

include h hactive hrun

theorem follows_advanceProbe (hcmp : sumLe cfg (.inr b) (.inl p) = false) :
    Follows cfg s (advanceProbe cfg s) (p :: ls) (b :: rs) := by
  have hle := isOrder_sumLe hkeys
  have halone : ∀ y ∈ b :: rs, ties (sumLe cfg) (.inl p) (.inr y) = false := fun y hy =>
    ties_eq_false (.inr (sumLe_false_of_le hle (sumLe_head hle h.sortedR hy) hcmp))
  have hpairs : pairsOn cfg (p :: ls) (b :: rs) = pairsOn cfg ls (b :: rs) := joinOn_cons_of_alone halone
  have hactive' : (advanceProbe cfg s).groupActive = false := hactive
  have hremaining : remaining cfg (advanceProbe cfg s) ls (b :: rs) =
      remaining cfg s (p :: ls) (b :: rs) := by
    rw [remaining_inactive hactive', remaining_inactive hactive, hpairs]
  refine ⟨ls, b :: rs, ?_, congrArg (s.pending ++ ·) hremaining, rfl, fun _ => ?_⟩
  · exact ⟨h.left.advance (isKernel_probe hkeys), h.right, (pairwise_cons.mp h.sortedL).2, h.sortedR,
      fun h => (nomatch hactive.symm.trans h), h.inactive,
      fun h => (nomatch hrun.symm.trans h), h.ledger⟩
  · rw [weight_inactive hactive', weight_inactive hactive, hremaining, length_cons, length_cons]
    omega

theorem follows_advanceBuild (hcmp : sumLe cfg (.inl p) (.inr b) = false) :
    Follows cfg s (advanceBuild cfg s) (p :: ls) (b :: rs) := by
  have hle := isOrder_sumLe hkeys
  have halone : ∀ x ∈ p :: ls, ∀ y ∈ [b], ties (sumLe cfg) (.inl x) (.inr y) = false := by
    intro x hx y hy
    rw [mem_singleton.mp hy]
    exact ties_eq_false (.inl (sumLe_false_of_le hle (sumLe_head hle h.sortedL hx) hcmp))
  have hpairs : pairsOn cfg (p :: ls) (b :: rs) = pairsOn cfg (p :: ls) rs := joinOn_append_of_alone halone
  have hactive' : (advanceBuild cfg s).groupActive = false := hactive
  have hremaining : remaining cfg (advanceBuild cfg s) (p :: ls) rs =
      remaining cfg s (p :: ls) (b :: rs) := by
    rw [remaining_inactive hactive', remaining_inactive hactive, hpairs]
  refine ⟨p :: ls, rs, ?_, congrArg (s.pending ++ ·) hremaining, rfl, fun _ => ?_⟩
  · exact ⟨h.left, h.right.advance (isKernel_build hkeys), h.sortedL, (pairwise_cons.mp h.sortedR).2,
      fun h => (nomatch hactive.symm.trans h), h.inactive,
      fun h => (nomatch hrun.symm.trans h), h.ledger⟩
  · rw [weight_inactive hactive', weight_inactive hactive, hremaining, length_cons, length_cons]
    omega

theorem follows_collectGroup (hcmp : sumLe cfg (.inr b) (.inl p)) :
    Follows cfg s (collectGroup cfg b s) (p :: ls) (b :: rs) := by
  have hle := isOrder_sumLe hkeys
  obtain ⟨rest, hsplit, hne, hstream, hgroup⟩ := collectRows_spec hkeys s.rstream.left h.right h.sortedR
    (hle.ties_refl _) (Nat.le_of_eq h.right.left_eq.symm)
  have hrefs : (collectGroup cfg b s).groupRefs = (collectRows cfg b s.rstream.left s.rstream).1 := by
    rw [collectGroup, h.inactive hactive]
    rfl
  have hactive' : (collectGroup cfg b s).groupActive := rfl
  obtain ⟨g, more, hmore⟩ := exists_cons_of_ne_nil hne
  obtain rfl : b = g := (cons.inj (hsplit.trans (congrArg (· ++ rest) hmore))).1
  have hfirst : ∀ x ∈ p :: ls, sumLe cfg (.inr b) (.inl x) := fun x hx =>
    hle.trans _ _ _ hcmp (sumLe_head hle h.sortedL hx)
  have hsorted : SortedBuild cfg rest := by
    have := h.sortedR
    rw [hsplit] at this
    exact (pairwise_append.mp this).2.1
  have hremaining : remaining cfg (collectGroup cfg b s) (p :: ls) rest =
      remaining cfg s (p :: ls) (b :: rs) := by
    rw [remaining_active hactive', remaining_inactive hactive, hrefs, ← hsplit]
    rfl
  refine ⟨p :: ls, rest, ?_, congrArg (s.pending ++ ·) hremaining, rfl, fun _ => ?_⟩
  · refine ⟨h.left, hstream, h.sortedL, hsorted, fun _ => ⟨⟨b, more, ?_, ?_, hfirst, ?_⟩, ?_⟩, nofun,
      fun h => (nomatch hrun.symm.trans h), ?_⟩
    · rw [hrefs, hmore]
    · rwa [hrefs]
    · exact fun h => absurd h (Nat.lt_irrefl 0)
    · rw [hrefs, hmore]
      exact Nat.succ_pos _
    · have := h.ledger
      unfold collectGroup
      dsimp only
      omega
  · have hlength := congrArg length hsplit
    rw [hmore, length_append, length_cons, length_cons] at hlength
    rw [weight_active hactive', weight_inactive hactive, hremaining, length_cons, length_cons]
    omega

end

variable {key : B} {more : List B}

theorem follows_retireGroup (h : Inv cfg s ls rs) (hactive : s.groupActive)
    (hrun : s.exhausted = false) (hrefs : s.groupRefs = key :: more)
    (hhead : ∀ p tail, ls = p :: tail → ties (sumLe cfg) (.inl p) (.inr key) = false) :
    Follows cfg s (retireGroup s) ls rs := by
  have hle := isOrder_sumLe hkeys
  obtain ⟨⟨key', more', hrefs', hgroup, hfirst, hmiddle⟩, -⟩ := h.active hactive
  obtain ⟨rfl, rfl⟩ := cons.inj (hrefs'.symm.trans hrefs)
  have hpos : s.groupPos = 0 := by
    refine Nat.eq_zero_of_not_pos fun hpos => ?_
    obtain ⟨p, tail, hls, hties⟩ := hmiddle hpos
    rw [hhead p tail hls] at hties
    cases hties
  have halone : ∀ x ∈ ls, ∀ g ∈ s.groupRefs, ties (sumLe cfg) (.inl x) (.inr g) = false := by
    intro x hx g hg
    rw [← Bool.not_eq_true, ties_iff]
    rintro ⟨hxg, -⟩
    have hxk := hle.trans _ _ _ hxg (ties_iff.mp (hgroup.ties g hg)).1
    cases ls with
    | nil => cases hx
    | cons p tail =>
      have hpx := sumLe_head hle h.sortedL hx
      have hties := ties_iff.mpr ⟨hle.trans _ _ _ hpx hxk, hfirst p mem_cons_self⟩
      rw [hhead p tail rfl] at hties
      cases hties
  have hactive' : (retireGroup s).groupActive = false := rfl
  have hpairs : pairsOn cfg ls (s.groupRefs ++ rs) = pairsOn cfg ls rs := joinOn_append_of_alone halone
  have hremaining : remaining cfg (retireGroup s) ls rs = remaining cfg s ls rs := by
    rw [remaining_inactive hactive', remaining_active hactive, hpos, drop_zero, hpairs]
  refine ⟨ls, rs, ?_, congrArg (s.pending ++ ·) hremaining, rfl, fun _ => ?_⟩
  · refine ⟨h.left, h.right, h.sortedL, h.sortedR, nofun, fun _ => rfl,
      fun h => (nomatch hrun.symm.trans h), ?_⟩
    have := h.ledger
    unfold retireGroup
    dsimp only
    omega
  · rw [weight_inactive hactive', weight_active hactive, hremaining]
    omega

theorem follows_emitPairs (h : Inv cfg s (p :: ls) rs) (hactive : s.groupActive)
    (hrun : Running cfg s) (hrefs : s.groupRefs = key :: more)
    (hhead : ties (sumLe cfg) (.inl p) (.inr key)) : Follows cfg s (emitPairs cfg p s) (p :: ls) rs := by
  have hle := isOrder_sumLe hkeys
  obtain ⟨⟨key', more', hrefs', hgroup, hfirst, -⟩, hpos⟩ := h.active hactive
  obtain ⟨rfl, rfl⟩ := cons.inj (hrefs'.symm.trans hrefs)
  obtain ⟨hexhausted, hroom⟩ := hrun
  have hpairs : pairsOn cfg (p :: ls) (s.groupRefs ++ rs) =
      s.groupRefs.map (Prod.mk p) ++ pairsOn cfg ls (s.groupRefs ++ rs) := by
    refine joinOn_cons_of_group (fun g hg => ?_) fun b hb => ?_
    · have hg := ties_iff.mp (hgroup.ties g hg)
      have hp := ties_iff.mp hhead
      exact ties_iff.mpr ⟨hle.trans _ _ _ hp.1 hg.2, hle.trans _ _ _ hg.1 hp.2⟩
    · refine ties_eq_false (.inr (Bool.eq_false_iff.mpr fun hbp => ?_))
      have := hgroup.after b hb
      rw [hle.trans _ _ _ hbp (ties_iff.mp hhead).1] at this
      cases this
  have hdrop : ∀ n ≤ s.groupRefs.length, (pairsOn cfg (p :: ls) (s.groupRefs ++ rs)).drop n =
      (s.groupRefs.drop n).map (Prod.mk p) ++ pairsOn cfg ls (s.groupRefs ++ rs) := by
    intro n hn
    rw [hpairs, drop_append_of_le_length (by rw [length_map]; exact hn), map_drop]
  obtain ⟨refs, hchunk⟩ : ∃ refs, refs =
    (s.groupRefs.drop s.groupPos).take (cfg.batchSize - s.pending.length) := ⟨_, rfl⟩
  have hlength : refs.length = min (cfg.batchSize - s.pending.length) (s.groupRefs.length - s.groupPos) := by
    rw [hchunk, length_take, length_drop]
  have hsplit : s.groupRefs.drop s.groupPos = refs ++ s.groupRefs.drop (s.groupPos + refs.length) := by
    have happend := take_append_drop (cfg.batchSize - s.pending.length) (s.groupRefs.drop s.groupPos)
    rw [← hchunk] at happend
    rw [← drop_drop, ← happend, drop_left]
  have hremaining : remaining cfg s (p :: ls) rs = refs.map (Prod.mk p) ++
      ((s.groupRefs.drop (s.groupPos + refs.length)).map (Prod.mk p) ++ pairsOn cfg ls (s.groupRefs ++ rs)) := by
    rw [remaining_active hactive, hdrop _ (Nat.le_of_lt hpos), hsplit, map_append, append_assoc]
  unfold emitPairs
  rw [← hchunk]
  by_cases hend : s.groupPos + refs.length = s.groupRefs.length
  · -- the group is through with this probe row
    rw [if_pos hend]
    rw [hend, drop_length, map_nil, nil_append] at hremaining
    refine ⟨ls, rs, ?_, ?_, rfl, fun _ => ?_⟩
    · refine ⟨h.left.advance (isKernel_probe hkeys), h.right, (pairwise_cons.mp h.sortedL).2, h.sortedR,
        fun _ => ⟨⟨key', more', hrefs', hgroup, ?_, nofun⟩, Nat.lt_of_le_of_lt (Nat.zero_le _) hpos⟩,
        fun h => (nomatch h.symm.trans hactive), fun h => (nomatch hexhausted.symm.trans h),
        h.ledger⟩
      exact fun x hx => hfirst x (mem_cons_of_mem _ hx)
    · rw [hremaining, remaining]
      rw [if_pos hactive, drop_zero, append_assoc]
    · rw [weight_active hactive, hremaining, weight, remaining]
      dsimp only
      rw [if_pos hactive, if_pos hactive, drop_zero, length_append,
        length_cons]
      omega
  · rw [if_neg hend]
    have hpos' : s.groupPos + refs.length < s.groupRefs.length := by omega
    refine ⟨p :: ls, rs, ?_, ?_, rfl, fun _ => ?_⟩
    · exact ⟨h.left, h.right, h.sortedL, h.sortedR,
        fun _ => ⟨⟨key', more', hrefs', hgroup, hfirst, fun _ => ⟨p, ls, rfl, hhead⟩⟩, hpos'⟩,
        fun h => (nomatch h.symm.trans hactive), fun h => (nomatch hexhausted.symm.trans h),
        h.ledger⟩
    · rw [hremaining, remaining]
      rw [if_pos hactive, hdrop _ (Nat.le_of_lt hpos'), append_assoc]
    · rw [weight_active hactive, hremaining, weight, remaining]
      rw [if_pos hactive, if_pos hactive, hdrop _ (Nat.le_of_lt hpos')]
      simp only [length_append, length_map]
      omega

theorem step_spec (h : Inv cfg s ls rs) (hrun : Running cfg s) : Follows cfg s (step cfg s) ls rs := by
  unfold step
  by_cases hactive : s.groupActive
  · rw [if_pos hactive]
    obtain ⟨key, more, hrefs, -⟩ := (h.active hactive).refs
    unfold stepGroup
    cases ls with
    | nil =>
      rw [h.left.cur_eq_nil_iff.mpr rfl]
      exact follows_retireGroup hkeys h hactive hrun.1 hrefs nofun
    | cons p tail =>
      obtain ⟨cur, hcur⟩ := h.left.head
      rw [hcur, hrefs]
      dsimp only
      rw [keysEqualLR_eq hkeys]
      by_cases hties : ties (sumLe cfg) (.inl p) (.inr key)
      · rw [if_pos hties]
        exact follows_emitPairs hkeys h hactive hrun hrefs hties
      · rw [if_neg hties]
        refine follows_retireGroup hkeys h hactive hrun.1 hrefs fun x tail' hls => ?_
        obtain ⟨rfl, -⟩ := cons.inj hls
        exact Bool.eq_false_iff.mpr hties
  · rw [if_neg hactive]
    have hactive := Bool.eq_false_iff.mpr hactive
    cases ls with
    | nil =>
      rw [h.left.cur_eq_nil_iff.mpr rfl]
      exact follows_exhausted h hactive (.inl rfl)
    | cons p ls =>
      obtain ⟨lcur, hlcur⟩ := h.left.head
      rw [hlcur]
      cases rs with
      | nil =>
        rw [h.right.cur_eq_nil_iff.mpr rfl]
        exact follows_exhausted h hactive (.inr rfl)
      | cons b rs =>
        obtain ⟨rcur, hrcur⟩ := h.right.head
        rw [hrcur]
        dsimp only
        by_cases hneg : compareLR cfg p b < 0
        · rw [if_pos hneg]
          exact follows_advanceProbe hkeys h hactive hrun.1 ((compareLR_neg_iff hkeys p b).mp hneg)
        rw [if_neg hneg]
        by_cases hpos : 0 < compareLR cfg p b
        · rw [if_pos hpos]
          exact follows_advanceBuild hkeys h hactive hrun.1 ((compareLR_pos_iff hkeys p b).mp hpos)
        · rw [if_neg hpos]
          refine follows_collectGroup hkeys h hactive hrun.1 ?_
          rw [compareLR_neg_iff hkeys, Bool.not_eq_false] at hneg
          exact hneg

theorem loop_spec (n : Nat) : ∀ {s : State L B} {ls : List L} {rs : List B}, Inv cfg s ls rs →
    weight cfg s ls rs ≤ n → ∃ s' ls' rs', Loop cfg s s' ∧ Inv cfg s' ls' rs' ∧
      s'.pending ++ remaining cfg s' ls' rs' = s.pending ++ remaining cfg s ls rs ∧ s'.done = s.done ∧
      ¬ Running cfg s' := by
  induction n using Nat.strongRecOn with
  | ind n ih =>
    intro s ls rs h hn
    by_cases hrun : Running cfg s
    · obtain ⟨ls₁, rs₁, h₁, hsame, hdone, hweight⟩ := step_spec hkeys h hrun
      by_cases hexhausted : (step cfg s).exhausted = false
      · obtain ⟨s', ls', rs', hloop, h', hsame', hdone', hstop⟩ :=
          ih _ (Nat.lt_of_lt_of_le (hweight hexhausted) hn) h₁ (Nat.le_refl _)
        exact ⟨s', ls', rs', .go hrun hloop, h', hsame'.trans hsame, hdone'.trans hdone, hstop⟩
      · have hstop : ¬ Running cfg (step cfg s) := fun h => hexhausted h.1
        exact ⟨step cfg s, ls₁, rs₁, .go hrun (.stop hstop), h₁, hsame, hdone, hstop⟩
    · exact ⟨s, ls, rs, .stop hrun, h, rfl, rfl, hrun⟩

theorem yields_spec (n : Nat) : ∀ {s : State L B} {ls : List L} {rs : List B}, Inv cfg s ls rs →
    s.done = false → s.pending = [] → (remaining cfg s ls rs).length ≤ n →
      ∃ s', Yields cfg s (remaining cfg s ls rs) s' ∧ s'.done ∧ s'.reserved = s'.released := by
  induction n using Nat.strongRecOn with
  | ind n ih =>
    intro s ls rs h hdone hpending hn
    obtain ⟨s₁, ls₁, rs₁, hloop, h₁, hsame, hdone₁, hstop⟩ := loop_spec hkeys _ h (Nat.le_refl _)
    rw [hpending, nil_append] at hsame
    by_cases hempty : s₁.pending = []
    · have hexhausted : s₁.exhausted := by
        rw [← Bool.not_eq_false]
        intro hrun
        refine hstop ⟨hrun, ?_⟩
        rw [hempty]
        exact cfg.batchSize_pos
      rw [hempty, h₁.ended hexhausted] at hsame
      rw [← hsame]
      refine ⟨teardown s₁, .stop (.finish hdone hloop hempty), rfl, ?_⟩
      exact h₁.ledger
    · have hflushed : Inv cfg (flushPending s₁) ls₁ rs₁ := by
        refine ⟨h₁.left, h₁.right, h₁.sortedL, h₁.sortedR, fun hactive => ?_, h₁.inactive, h₁.ended, ?_⟩
        · exact ⟨(h₁.active hactive).refs, (h₁.active hactive).pos⟩
        · have := h₁.ledger
          unfold flushPending
          dsimp only
          omega
      have hshorter : (remaining cfg s₁ ls₁ rs₁).length < n := by
        have := length_pos_iff.mpr hempty
        rw [← hsame, length_append] at hn
        omega
      obtain ⟨s', hyields, hended, hreleased⟩ :=
        ih _ hshorter hflushed (hdone₁.trans hdone) rfl (Nat.le_refl _)
      refine ⟨s', ?_, hended, hreleased⟩
      rw [← hsame]
      exact .batch (.batch hdone hloop hempty) hyields

theorem joins_eq (p : L) (b : B) : joins cfg p b =
    (keysNonNull cfg.probe p && keysNonNull cfg.build b && ties (sumLe cfg) (.inl p) (.inr b)) := by
  rw [← keysEqualLR_eq hkeys, joins, keysNonNull, keysNonNull, keysEqualLR, cellsEqual, Config.probe,
    Config.build]
  simp only [all_map]
  rw [Bool.eq_iff_iff]
  simp only [Bool.and_eq_true, all_eq_true, Function.comp_apply, Bool.not_eq_true', sortCompare]
  constructor
  · intro h
    refine ⟨⟨fun k hk => (h k hk).1.1, fun k hk => (h k hk).1.2⟩, fun k hk => ?_⟩
    obtain ⟨⟨hl, hr⟩, heq⟩ := h k hk
    rw [hl, hr]
    exact heq
  · rintro ⟨⟨hl, hr⟩, heq⟩ k hk
    have heq := heq k hk
    rw [hl k hk, hr k hk] at heq
    exact ⟨⟨hl k hk, hr k hk⟩, heq⟩

end Steps

theorem arrivals_eq_nil {events : List (SortEvent R)}
    (h : events.any SortEvent.isBatch = false) : arrivals events = [] := by
  induction events with
  | nil => rfl
  | cons e events ih =>
    rw [any_cons, Bool.or_eq_false_iff] at h
    cases e with
    | consume b heavy => cases h.1
    | spill => exact ih h.2

-- Every pair of rows whose keys are non-NULL and equal comes out once; the stream ends and
-- stays ended; every byte pinned for a group is released.
theorem smj_stream (cfg : Config L B V) (hkeys : ∀ k ∈ cfg.keys, IsKernel k.kernel)
    (probe : List (SortEvent L)) (build : List (SortEvent B)) :
    ∃ out s', Yields cfg (finalize cfg probe build) out s' ∧
      out.Perm (joinOn (joins cfg) (arrivals probe) (arrivals build)) ∧
      Next cfg s' none s' ∧ s'.reserved = s'.released := by
  have hjoins : joins cfg = fun p b =>
      keysNonNull cfg.probe p && keysNonNull cfg.build b && ties (sumLe cfg) (.inl p) (.inr b) := by
    funext p b
    exact joins_eq hkeys p b
  unfold finalize
  by_cases hboth : (probe.any SortEvent.isBatch && build.any SortEvent.isBatch)
  · rw [if_pos hboth]
    have hleft := streamOf_side (isKernel_probe hkeys) rfl probe
    have hright := streamOf_side (isKernel_build hkeys) rfl build
    have hprobe := (isOrder_keysLe (isKernel_probe hkeys)).arranges_mergeSort
      ((arrivals probe).filter (keysNonNull cfg.probe))
    have hbuild := (isOrder_keysLe (isKernel_build hkeys)).arranges_mergeSort
      ((arrivals build).filter (keysNonNull cfg.build))
    have hsortedL : SortedProbe cfg _ := hprobe.ordered.imp fun h => (keysLe_probe _ _).symm.trans h
    have hsortedR : SortedBuild cfg _ := hbuild.ordered.imp fun h => (keysLe_build _ _).symm.trans h
    have hinv : Inv cfg ⟨_, _, [], 0, false, 0, 0, [], false, false, 0, 0⟩ _ _ :=
      ⟨hleft, hright, hsortedL, hsortedR, nofun, fun _ => rfl, nofun, rfl⟩
    obtain ⟨s', hyields, hdone, hreleased⟩ := yields_spec hkeys _ hinv rfl rfl (Nat.le_refl _)
    refine ⟨_, s', hyields, ?_, .ended hdone, hreleased⟩
    rw [hjoins, ← joinOn_filter]
    exact joinOn_perm hprobe.perm hbuild.perm
  · rw [if_neg hboth]
    have hnone : joinOn (joins cfg) (arrivals probe) (arrivals build) = [] := by
      rw [Bool.not_eq_true, Bool.and_eq_false_iff] at hboth
      obtain h | h := hboth
      · rw [arrivals_eq_nil h]
        rfl
      · rw [arrivals_eq_nil h]
        exact joinOn_nil_right
    refine ⟨[], _, .stop (.ended rfl), ?_, .ended rfl, rfl⟩
    rw [hnone]

def numberConfig : Config Nat Nat Nat :=
  ⟨[⟨fun n => ⟨n == 0, n⟩, fun n => ⟨n == 0, n⟩, fun a b => (a : Int) - b⟩], 2, Nat.two_pos, 2, le_rfl, true,
    length⟩

theorem smj_stream_numbers :
    ∃ out s', Yields numberConfig (finalize numberConfig
        [.consume ⟨[3, 1, 0, 3], none⟩ false, .spill, .consume ⟨[3, 7], some [0]⟩ false]
        [.consume ⟨[3, 0, 3], none⟩ false, .spill, .consume ⟨[3, 2], none⟩ true]) out s' ∧
      out.Perm [(3, 3), (3, 3), (3, 3), (3, 3), (3, 3), (3, 3), (3, 3), (3, 3), (3, 3)] ∧
      Next numberConfig s' none s' ∧ s'.reserved = s'.released := by
  have hkeys : ∀ k ∈ numberConfig.keys, IsKernel k.kernel := by
    intro k hk
    rw [mem_singleton.mp hk]
    exact ⟨fun a b => by dsimp only; omega, fun a b c => by dsimp only; omega⟩
  exact smj_stream numberConfig hkeys _ _

end Wadjet.Engine.Exec.SortMergeJoin
