import Wadjet.Data.TopN

-- Sorting that keeps the order of ties, merging of sorted runs, and first rows up to ties.
namespace Wadjet.Data

open List

variable {α : Type} {le : α → α → Bool}

def ties (le : α → α → Bool) (a b : α) : Bool :=
  le a b && le b a

theorem ties_iff {a b : α} : ties le a b ↔ le a b ∧ le b a :=
  Bool.and_eq_true_iff

def lexLe (le le' : α → α → Bool) (a b : α) : Bool :=
  le a b && (!le b a || le' a b)

variable {le' : α → α → Bool}

theorem lexLe_iff {a b : α} : lexLe le le' a b ↔ le a b ∧ (le b a → le' a b) := by
  unfold lexLe
  cases le a b <;> cases le b a <;> simp

theorem IsOrder.lex (hle : IsOrder le) (hle' : IsOrder le') : IsOrder (lexLe le le') where
  trans a b c hab hbc := by
    rw [lexLe_iff] at hab hbc ⊢
    refine ⟨hle.trans a b c hab.1 hbc.1, fun hca => ?_⟩
    exact hle'.trans a b c (hab.2 (hle.trans b c a hbc.1 hca)) (hbc.2 (hle.trans c a b hca hab.1))
  total a b := by
    rw [lexLe_iff, lexLe_iff]
    by_cases hab : le a b
    · by_cases hba : le b a
      · obtain h | h := hle'.total a b
        · exact .inl ⟨hab, fun _ => h⟩
        · exact .inr ⟨hba, fun _ => h⟩
      · exact .inl ⟨hab, fun h => absurd h hba⟩
    · exact .inr ⟨(hle.total a b).resolve_left hab, fun h => absurd h hab⟩

-- The rows in order, with the rows of each tie as they came.
structure StableSorted (le : α → α → Bool) (rows out : List α) : Prop where
  ordered : out.Pairwise fun a b => le a b
  kept : ∀ c, out.filter (ties le c) = rows.filter (ties le c)

namespace IsOrder

variable (hle : IsOrder le)

include hle

theorem ties_refl (a : α) : ties le a a :=
  ties_iff.mpr ⟨hle.refl a, hle.refl a⟩

theorem head_le {a b : α} {l l' : List α} (h' : (b :: l').Pairwise fun a b => le a b)
    (hkept : (a :: l).filter (ties le a) = (b :: l').filter (ties le a)) : le b a := by
  have hmem : a ∈ (a :: l).filter (ties le a) :=
    mem_filter.mpr ⟨mem_cons_self, hle.ties_refl a⟩
  rw [hkept] at hmem
  obtain rfl | hmem := mem_cons.mp (mem_filter.mp hmem).1
  · exact hle.refl a
  · exact (pairwise_cons.mp h').1 a hmem

theorem eq_of_kept {l l' : List α} (h : l.Pairwise fun a b => le a b)
    (h' : l'.Pairwise fun a b => le a b)
    (hkept : ∀ c, l.filter (ties le c) = l'.filter (ties le c)) : l = l' := by
  have hnil : ∀ {a : α} {l : List α}, (a :: l).filter (ties le a) ≠ [] := by
    intro a l hnil
    rw [filter_cons_of_pos (hle.ties_refl a)] at hnil
    cases hnil
  induction l generalizing l' with
  | nil =>
    cases l' with
    | nil => rfl
    | cons b l' => exact absurd (hkept b).symm hnil
  | cons a l ih =>
    cases l' with
    | nil => exact absurd (hkept a) hnil
    | cons b l' =>
      have hab : ties le a b :=
        ties_iff.mpr ⟨hle.head_le h (hkept b).symm, hle.head_le h' (hkept a)⟩
      have heads := hkept a
      rw [filter_cons_of_pos (hle.ties_refl a), filter_cons_of_pos hab] at heads
      obtain rfl := (cons.inj heads).1
      rw [ih (pairwise_cons.mp h).2 (pairwise_cons.mp h').2 fun c => ?_]
      have := hkept c
      by_cases hc : ties le c a
      · rw [filter_cons_of_pos hc, filter_cons_of_pos hc] at this
        exact (cons.inj this).2
      · rwa [filter_cons_of_neg hc, filter_cons_of_neg hc] at this

theorem stable_mergeSort (rows : List α) : StableSorted le rows (rows.mergeSort le) := by
  have htotal : ∀ a b : α, (le a b || le b a) := fun a b => by simpa using hle.total a b
  refine ⟨(hle.arranges_mergeSort rows).ordered, fun c => ?_⟩
  have hpairs : (rows.filter (ties le c)).Pairwise fun a b => le a b := by
    refine pairwise_of_forall_mem_list fun a ha b hb => ?_
    have hca := (ties_iff.mp (mem_filter.mp ha).2).2
    have hcb := (ties_iff.mp (mem_filter.mp hb).2).1
    exact hle.trans a c b hca hcb
  -- The tie is a sublist of the sorted rows, and there are no more rows in it.
  have hsub := sublist_mergeSort hle.trans htotal hpairs filter_sublist
  have hfilter := hsub.filter (ties le c)
  simp only [filter_filter, Bool.and_self] at hfilter
  refine (hfilter.eq_of_length ?_).symm
  exact (((mergeSort_perm rows le).filter (ties le c)).length_eq).symm

theorem stable_unique {rows out out' : List α} (h : StableSorted le rows out) (h' : StableSorted le rows out') :
    out = out' :=
  hle.eq_of_kept h.ordered h'.ordered fun c => (h.kept c).trans (h'.kept c).symm

theorem stable_iff {rows out : List α} : StableSorted le rows out ↔ out = rows.mergeSort le := by
  refine ⟨fun h => hle.stable_unique h (hle.stable_mergeSort rows), ?_⟩
  rintro rfl
  exact hle.stable_mergeSort rows

end IsOrder

-- The rows of sorted runs, each time the first head of the earliest run that has it.
inductive Merges (le : α → α → Bool) : List (List α) → List α → Prop where
  | done {runs : List (List α)} (hruns : ∀ run ∈ runs, run = []) : Merges le runs []
  | step {runs : List (List α)} {i : Nat} {x : α} {rest out : List α}
      (hrun : runs[i]? = some (x :: rest))
      (hfirst : ∀ (j : Nat) y ys, runs[j]? = some (y :: ys) → le x y)
      (hearly : ∀ (j : Nat) y ys, j < i → runs[j]? = some (y :: ys) → le y x = false)
      (hrest : Merges le (runs.set i rest) out) : Merges le runs (x :: out)

variable {i : Nat} {run : List α}

theorem split_at {runs : List (List α)} (h : runs[i]? = some run) :
    runs.flatten = (runs.take i).flatten ++ (run ++ (runs.drop (i + 1)).flatten) := by
  obtain ⟨hi, rfl⟩ := List.getElem?_eq_some_iff.mp h
  conv_lhs => rw [← take_append_drop i runs, drop_eq_getElem_cons hi]
  rw [flatten_append, flatten_cons]

theorem flatten_set {runs : List (List α)} (hi : i < runs.length) :
    (runs.set i run).flatten = (runs.take i).flatten ++ (run ++ (runs.drop (i + 1)).flatten) := by
  rw [set_eq_take_append_cons_drop, if_pos hi, flatten_append, flatten_cons]

namespace Merges

variable {runs : List (List α)} {out : List α}

theorem perm (h : Merges le runs out) : out.Perm runs.flatten := by
  induction h with
  | done hruns => rw [flatten_eq_nil_iff.mpr hruns]
  | @step runs i x rest out hrun _ _ _ ih =>
    rw [split_at hrun]
    rw [flatten_set (List.getElem?_eq_some_iff.mp hrun).1] at ih
    exact (ih.cons x).trans perm_middle.symm

theorem unique {out' : List α} (h : Merges le runs out) (h' : Merges le runs out') : out = out' := by
  induction h generalizing out' with
  | done hruns =>
    cases h' with
    | done => rfl
    | step hrun => cases hruns _ (mem_of_getElem? hrun)
  | @step runs i x rest out hrun hfirst hearly _ ih =>
    cases h' with
    | done hruns => cases hruns _ (mem_of_getElem? hrun)
    | @step _ i' x' rest' _ hrun' hfirst' hearly' hrest' =>
      have hi : i = i' := by
        obtain hlt | heq | hgt := Nat.lt_trichotomy i i'
        · have := hearly' i x rest hlt hrun
          rw [hfirst i' x' rest' hrun'] at this
          cases this
        · exact heq
        · have := hearly i' x' rest' hgt hrun'
          rw [hfirst' i x rest hrun] at this
          cases this
      subst hi
      obtain ⟨rfl, rfl⟩ := cons.inj (Option.some.inj (hrun.symm.trans hrun'))
      rw [ih hrest']

theorem sorted_set {x : α} {rest : List α} (hruns : ∀ run ∈ runs, run.Pairwise fun a b => le a b)
    (hrun : runs[i]? = some (x :: rest)) :
    ∀ run ∈ runs.set i rest, run.Pairwise fun a b => le a b := by
  intro run hmem
  obtain hmem | rfl := mem_or_eq_of_mem_set hmem
  · exact hruns run hmem
  · exact (pairwise_cons.mp (hruns _ (mem_of_getElem? hrun))).2

theorem le_of_mem (hle : IsOrder le) (hruns : ∀ run ∈ runs, run.Pairwise fun a b => le a b) {x : α}
    (hfirst : ∀ (j : Nat) y ys, runs[j]? = some (y :: ys) → le x y) {z : α} (hz : z ∈ runs.flatten) :
    le x z := by
  obtain ⟨run, hrun, hz⟩ := mem_flatten.mp hz
  obtain ⟨j, hj⟩ := mem_iff_getElem?.mp hrun
  cases run with
  | nil => cases hz
  | cons y ys =>
    have hy := hfirst j y ys hj
    obtain rfl | hz := mem_cons.mp hz
    · exact hy
    · exact hle.trans x y z hy ((pairwise_cons.mp (hruns _ hrun)).1 z hz)

theorem filter_early (hle : IsOrder le) (hruns : ∀ run ∈ runs, run.Pairwise fun a b => le a b) {x c : α}
    (hearly : ∀ (j : Nat) y ys, j < i → runs[j]? = some (y :: ys) → le y x = false)
    (hc : ties le c x) : (runs.take i).flatten.filter (ties le c) = [] := by
  rw [filter_eq_nil_iff]
  intro z hz hcz
  obtain ⟨run, hrun, hz⟩ := mem_flatten.mp hz
  obtain ⟨j, hj⟩ := mem_iff_getElem?.mp hrun
  rw [getElem?_take] at hj
  split at hj
  case isFalse => cases hj
  case isTrue hji =>
    cases run with
    | nil => cases hz
    | cons y ys =>
      have hyx := hearly j y ys hji hj
      have hyz : le y z := by
        obtain rfl | hz := mem_cons.mp hz
        · exact hle.refl z
        · exact (pairwise_cons.mp (hruns _ (mem_of_getElem? hj))).1 z hz
      have hzx := hle.trans z c x (ties_iff.mp hcz).2 (ties_iff.mp hc).1
      rw [hle.trans y z x hyz hzx] at hyx
      cases hyx

theorem stable (hle : IsOrder le) (h : Merges le runs out)
    (hruns : ∀ run ∈ runs, run.Pairwise fun a b => le a b) : StableSorted le runs.flatten out := by
  induction h with
  | done hnil =>
    rw [flatten_eq_nil_iff.mpr hnil]
    exact ⟨.nil, fun _ => rfl⟩
  | @step runs i x rest out hrun hfirst hearly hrest ih =>
    obtain ⟨hordered, hkept⟩ := ih (sorted_set hruns hrun)
    have hi := (List.getElem?_eq_some_iff.mp hrun).1
    constructor
    · refine pairwise_cons.mpr ⟨fun z hz => ?_, hordered⟩
      refine le_of_mem hle hruns hfirst ?_
      have hz := hrest.perm.mem_iff.mp hz
      rw [flatten_set hi] at hz
      rw [split_at hrun]
      simp only [mem_append, mem_cons] at hz ⊢
      tauto
    · intro c
      have htail := hkept c
      rw [flatten_set hi] at htail
      rw [split_at hrun, cons_append, filter_append]
      rw [filter_append] at htail
      by_cases hc : ties le c x
      · rw [filter_early hle hruns hearly hc] at htail ⊢
        rw [filter_cons_of_pos hc, filter_cons_of_pos hc, htail]
        rfl
      · rw [filter_cons_of_neg hc, filter_cons_of_neg hc, htail]

end Merges

theorem IsOrder.ties_of_counts (hle : IsOrder le) {l l' : List α} (h : l.Pairwise fun a b => le a b)
    (h' : l'.Pairwise fun a b => le a b) (hcount : ∀ c, l.countP (le · c) = l'.countP (le · c)) :
    List.Forall₂ (fun a b => ties le a b) l l' := by
  have hpos : ∀ {a : α} {l : List α}, 0 < (a :: l).countP (le · a) := by
    intro a l
    rw [countP_cons, if_pos (hle.refl a)]
    omega
  have hhead : ∀ {a b : α} {l l' : List α}, (a :: l).Pairwise (fun a b => le a b) →
      (a :: l).countP (le · b) = (b :: l').countP (le · b) → le a b := by
    intro a b l l' h hcount
    obtain ⟨x, hx, hxb⟩ := countP_pos_iff.mp (hcount ▸ hpos)
    obtain rfl | hx := mem_cons.mp hx
    · exact hxb
    · exact hle.trans a x b ((pairwise_cons.mp h).1 x hx) hxb
  induction l generalizing l' with
  | nil =>
    cases l' with
    | nil => exact .nil
    | cons b l' => exact absurd (hcount b).symm (Nat.ne_of_gt hpos)
  | cons a l ih =>
    cases l' with
    | nil => exact absurd (hcount a) (Nat.ne_of_gt hpos)
    | cons b l' =>
      have hab := hhead h (hcount b)
      have hba := hhead h' (hcount a).symm
      refine .cons (ties_iff.mpr ⟨hab, hba⟩) (ih (pairwise_cons.mp h).2
        (pairwise_cons.mp h').2 fun c => ?_)
      have hc := hcount c
      rw [countP_cons, countP_cons] at hc
      by_cases hac : le a c
      · rw [if_pos hac, if_pos (hle.trans b a c hba hac)] at hc
        omega
      · rw [if_neg hac, if_neg fun hbc => hac (hle.trans a b c hab hbc)] at hc
        exact hc

def Tops (le : α → α → Bool) (k : Nat) (kept all : List α) : Prop :=
  ∃ rest, (kept ++ rest).Perm all ∧ ∀ y ∈ rest, k ≤ kept.countP (le · y)

namespace Tops

variable {k : Nat} {kept kept' all all' : List α}

theorem refl (kept : List α) : Tops le k kept kept :=
  ⟨[], by rw [append_nil], nofun⟩

theorem of_perm (h : Tops le k kept all) (hkept : kept.Perm kept') (hall : all.Perm all') :
    Tops le k kept' all' := by
  obtain ⟨rest, hperm, hrest⟩ := h
  refine ⟨rest, ((hkept.symm.append_right rest).trans hperm).trans hall, fun y hy => ?_⟩
  rw [← hkept.countP_eq]
  exact hrest y hy

theorem append (h : Tops le k kept all) (h' : Tops le k kept' all') :
    Tops le k (kept ++ kept') (all ++ all') := by
  obtain ⟨rest, hperm, hrest⟩ := h
  obtain ⟨rest', hperm', hrest'⟩ := h'
  refine ⟨rest ++ rest', ?_, fun y hy => ?_⟩
  · refine List.Perm.trans ?_ (hperm.append hperm')
    rw [append_assoc, append_assoc]
    refine List.Perm.append_left kept ?_
    rw [← append_assoc, ← append_assoc]
    exact perm_append_comm.append_right rest'
  · rw [countP_append]
    obtain hy | hy := mem_append.mp hy
    · have := hrest y hy
      omega
    · have := hrest' y hy
      omega

theorem trans (hle : IsOrder le) (h : Tops le k kept kept') (h' : Tops le k kept' all) :
    Tops le k kept all := by
  obtain ⟨rest, hperm, hrest⟩ := h
  obtain ⟨rest', hperm', hrest'⟩ := h'
  refine ⟨rest ++ rest', ?_, fun y hy => ?_⟩
  · rw [← append_assoc]
    exact (hperm.append_right rest').trans hperm'
  · obtain hy | hy := mem_append.mp hy
    · exact hrest y hy
    have hcount := hrest' y hy
    rw [← hperm.countP_eq, countP_append] at hcount
    by_cases hzero : rest.countP (le · y) = 0
    · omega
    · obtain ⟨z, hz, hzy⟩ := countP_pos_iff.mp (Nat.pos_of_ne_zero hzero)
      refine Nat.le_trans (hrest z hz) (countP_mono_left fun a _ haz => ?_)
      exact hle.trans a z y haz hzy

theorem of_sorted (h : all.Pairwise fun a b => le a b) : Tops le k (all.take k) all := by
  refine ⟨all.drop k, by rw [take_append_drop], fun y hy => ?_⟩
  have hall : ∀ a ∈ all.take k, le a y := by
    intro a ha
    rw [← take_append_drop k all] at h
    exact (pairwise_append.mp h).2.2 a ha y hy
  have hlength := length_pos_of_mem hy
  rw [length_drop] at hlength
  rw [countP_eq_length.mpr hall, length_take]
  omega

theorem first (hle : IsOrder le) (h : Tops le k kept all) (hkept : kept.Pairwise fun a b => le a b)
    (hlength : kept.length ≤ k) :
    kept.length = min k all.length ∧ kept.Subperm all ∧
      List.Forall₂ (fun a b => ties le a b) kept ((all.mergeSort le).take k) := by
  obtain ⟨rest, hperm, hrest⟩ := h
  have hall : ∀ y ∈ rest, kept.length = k ∧ ∀ a ∈ kept, le a y := by
    intro y hy
    have hcount := hrest y hy
    have hle' := @countP_le_length _ (le · y) kept
    have hk : kept.length = k := by omega
    exact ⟨hk, countP_eq_length.mp (by omega)⟩
  have hlen : kept.length = min k all.length := by
    have := hperm.length_eq
    rw [length_append] at this
    cases rest with
    | nil =>
      rw [length_nil] at this
      omega
    | cons y rest =>
      have := (hall y mem_cons_self).1
      omega
  refine ⟨hlen, (sublist_append_left kept rest).subperm.trans hperm.subperm, ?_⟩
  -- The rows kept, with the others sorted behind them, are all rows in order.
  have hsorted : (kept ++ rest.mergeSort le).Pairwise fun a b => le a b := by
    refine pairwise_append.mpr ⟨hkept, (hle.arranges_mergeSort rest).ordered, fun a ha b hb => ?_⟩
    exact (hall b (mem_mergeSort.mp hb)).2 a ha
  have hties := hle.ties_of_counts hsorted (hle.arranges_mergeSort all).ordered fun c => by
    refine List.Perm.countP_eq _ ?_
    exact (((mergeSort_perm rest le).append_left kept).trans hperm).trans
      (mergeSort_perm all le).symm
  have htake := forall₂_take k hties
  rw [take_append, take_of_length_le hlength] at htake
  have hnil : (rest.mergeSort le).take (k - kept.length) = [] := by
    cases rest with
    | nil => rw [mergeSort_nil, take_nil]
    | cons y rest => rw [(hall y mem_cons_self).1, Nat.sub_self, take_zero]
  rwa [hnil, append_nil] at htake

end Tops

-- What is kept of the rows: the rows of every tie as they are, or the first ones.
def Reduces (le : α → α → Bool) (limit : Option Nat) (kept all : List α) : Prop :=
  match limit with
  | none => ∀ c, kept.filter (ties le c) = all.filter (ties le c)
  | some k => Tops le k kept all

namespace Reduces

variable {limit : Option Nat} {kept kept' all all' : List α}

theorem refl (kept : List α) : Reduces le limit kept kept := by
  cases limit with
  | none => exact fun _ => rfl
  | some k => exact Tops.refl kept

theorem append (h : Reduces le limit kept all) (h' : Reduces le limit kept' all') :
    Reduces le limit (kept ++ kept') (all ++ all') := by
  cases limit with
  | none =>
    intro c
    rw [filter_append, filter_append, h c, h' c]
  | some k => exact Tops.append h h'

theorem trans (hle : IsOrder le) (h : Reduces le limit kept kept') (h' : Reduces le limit kept' all) :
    Reduces le limit kept all := by
  cases limit with
  | none => exact fun c => (h c).trans (h' c)
  | some k => exact Tops.trans hle h h'

end Reduces

def cut (limit : Option Nat) (done : Nat) (out : List α) : List α :=
  match limit with
  | none => out
  | some k => out.take (k - done)

theorem cut_nil (limit : Option Nat) (done : Nat) : cut limit done ([] : List α) = [] := by
  cases limit with
  | none => rfl
  | some k => exact take_nil

theorem StableSorted.reduces (hle : IsOrder le) (limit : Option Nat) {rows out : List α}
    (h : StableSorted le rows out) :
    Reduces le limit (cut limit 0 out) rows ∧ (cut limit 0 out).Pairwise fun a b => le a b := by
  cases limit with
  | none => exact ⟨h.kept, h.ordered⟩
  | some k =>
    refine ⟨?_, h.ordered.take⟩
    have hperm : out.Perm rows := by
      rw [hle.stable_iff.mp h]
      exact mergeSort_perm rows le
    exact (Tops.of_sorted h.ordered).of_perm (.refl _) hperm

end Wadjet.Data
