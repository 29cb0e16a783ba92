import Wadjet.Data.Heap
import Wadjet.Data.StableSort

-- Sorted runs merged through a heap of cursors.
namespace Wadjet.Data

open List

variable {α γ : Type} (le : α → α → Bool) (run : γ → List α) (ord : γ → Nat)

-- An exhausted cursor comes last; it is never in the heap.
def headLe (c d : γ) : Bool :=
  match run c, run d with
  | x :: _, y :: _ => le x y
  | _, [] => true
  | [], _ :: _ => false

def cursorLe : γ → γ → Bool :=
  lexLe (headLe le run) fun c d => decide (ord c ≤ ord d)

def cursorLess (c d : γ) : Bool :=
  !cursorLe le run ord d c

def HeapHolds (h : List γ) (runs : List (List α)) : Prop :=
  (h.map fun c => (run c, ord c)).Perm (runs.zipIdx.filter fun p => p.1 ≠ [])

variable {le run ord}

theorem headLe_cons {c d : γ} {x y : α} {xs ys : List α} (hc : run c = x :: xs) (hd : run d = y :: ys) :
    headLe le run c d = le x y := by
  rw [headLe, hc, hd]

theorem isOrder_headLe (hle : IsOrder le) : IsOrder (headLe le run) where
  trans a b c := by
    unfold headLe
    cases run a <;> cases run b <;> cases run c <;> simp
    exact hle.trans _ _ _
  total a b := by
    unfold headLe
    cases run a <;> cases run b <;> simp
    simpa using hle.total _ _

theorem isOrder_cursorLe (hle : IsOrder le) : IsOrder (cursorLe le run ord) :=
  (isOrder_headLe hle).lex
    { trans := fun _ _ _ h h' => by
        rw [decide_eq_true_iff] at *
        omega
      total := fun _ _ => by
        rw [decide_eq_true_iff, decide_eq_true_iff]
        omega }

theorem isOrder_cursorLess (hle : IsOrder le) : IsOrder fun c d => !cursorLess le run ord d c := by
  unfold cursorLess
  simpa using isOrder_cursorLe hle

variable {h : List γ} {runs : List (List α)} {root : γ} {rest : List γ}

theorem HeapHolds.mem_iff (hrep : HeapHolds run ord h runs) {r : List α} {j : Nat} (hr : r ≠ []) :
    (∃ c ∈ h, run c = r ∧ ord c = j) ↔ runs[j]? = some r := by
  have hmem := @List.Perm.mem_iff _ (r, j) _ _ hrep
  rw [mem_filter, mem_zipIdx_iff_getElem?] at hmem
  simpa [hr] using hmem

theorem HeapHolds.first (hle : IsOrder le) (hh : Heap.Ordered (cursorLess le run ord) (root :: rest))
    (hrep : HeapHolds run ord (root :: rest) runs) :
    ∃ x tail, run root = x :: tail ∧ runs[ord root]? = some (x :: tail) ∧
      (∀ (j : Nat) y ys, runs[j]? = some (y :: ys) → le x y) ∧
      ∀ (j : Nat) y ys, j < ord root → runs[j]? = some (y :: ys) → le y x = false := by
  have hmem : (run root, ord root) ∈ runs.zipIdx.filter fun p => p.1 ≠ [] :=
    (List.Perm.mem_iff hrep).mp mem_cons_self
  rw [mem_filter, mem_zipIdx_iff_getElem?] at hmem
  obtain ⟨hget, hne⟩ := hmem
  dsimp only at hget hne
  obtain ⟨x, tail, hrun⟩ := exists_cons_of_ne_nil (of_decide_eq_true hne)
  have hfirst : ∀ (j : Nat) y ys, runs[j]? = some (y :: ys) →
      le x y ∧ (le y x → ord root ≤ j) := by
    intro j y ys hj
    obtain ⟨c, hc, hcrun, hcord⟩ := (hrep.mem_iff (cons_ne_nil y ys)).mpr hj
    have hroot := Heap.not_less_root (isOrder_cursorLess hle) hh hc
    rw [cursorLess, Bool.not_eq_false', cursorLe, lexLe_iff] at hroot
    rw [headLe_cons hrun hcrun, headLe_cons hcrun hrun, hcord, decide_eq_true_iff] at hroot
    exact hroot
  refine ⟨x, tail, hrun, hrun ▸ hget, fun j y ys hj => (hfirst j y ys hj).1, fun j y ys hlt hj => ?_⟩
  rw [← Bool.not_eq_true]
  intro hyx
  have := (hfirst j y ys hj).2 hyx
  omega

theorem filter_zipIdx_set {i : Nat} (hi : i < runs.length) (r : List α) :
    (runs.set i r).zipIdx.filter (fun p => p.1 ≠ []) =
      (runs.take i).zipIdx.filter (fun p => p.1 ≠ []) ++
        (([(r, i)] : List (List α × Nat)).filter (fun p => p.1 ≠ []) ++
          ((runs.drop (i + 1)).zipIdx (i + 1)).filter fun p => p.1 ≠ []) := by
  have hlength : (runs.take i).length = i := by
    rw [length_take]
    omega
  have hcons : ∀ l : List (List α × Nat), (r, i) :: l = [(r, i)] ++ l := fun _ => rfl
  rw [set_eq_take_append_cons_drop, if_pos hi, zipIdx_append, zipIdx_cons, hlength,
    Nat.zero_add, hcons, filter_append, filter_append]

theorem HeapHolds.set {c : γ} (hrep : HeapHolds run ord (root :: rest) runs)
    (hne : run root ≠ []) (hord : ord c = ord root) :
    HeapHolds run ord ((if run c = [] then [] else [c]) ++ rest) (runs.set (ord root) (run c)) := by
  have hget := (hrep.mem_iff hne).mp ⟨root, mem_cons_self, rfl, rfl⟩
  obtain ⟨hi, hget⟩ := List.getElem?_eq_some_iff.mp hget
  have hself : runs.set (ord root) (run root) = runs := by
    rw [← hget]
    exact set_getElem_self hi
  unfold HeapHolds at hrep ⊢
  rw [← hself, filter_zipIdx_set hi, filter_cons_of_pos (by simpa using hne)] at hrep
  have hrest := (hrep.trans perm_middle).cons_inv
  rw [filter_zipIdx_set hi]
  by_cases hc : run c = []
  · rw [if_pos hc, filter_cons_of_neg (by simpa using hc)]
    exact hrest
  · rw [if_neg hc, filter_cons_of_pos (by simpa using hc), map_append,
      map_singleton, hord]
    exact (hrest.cons _).trans perm_middle.symm

theorem HeapHolds.perm {h' : List γ} (hrep : HeapHolds run ord h runs) (hperm : h'.Perm h) :
    HeapHolds run ord h' runs :=
  (hperm.map _).trans hrep

variable (le run ord) in
def stepHeap (h : List γ) (c : γ) : List γ :=
  if run c = [] then Heap.popRoot (cursorLess le run ord) h else Heap.fixRoot (cursorLess le run ord) h c

theorem stepHeap_spec (hle : IsOrder le) (hh : Heap.Ordered (cursorLess le run ord) (root :: rest))
    (hrep : HeapHolds run ord (root :: rest) runs) {c : γ} (hord : ord c = ord root) :
    Heap.Ordered (cursorLess le run ord) (stepHeap le run ord (root :: rest) c) ∧
      HeapHolds run ord (stepHeap le run ord (root :: rest) c) (runs.set (ord root) (run c)) := by
  obtain ⟨x, tail, hrun, -⟩ := hrep.first hle hh
  have hset := hrep.set (by rw [hrun]; exact cons_ne_nil x tail) hord
  unfold stepHeap
  by_cases hc : run c = []
  · obtain ⟨hperm, hordered⟩ := Heap.popRoot_spec (isOrder_cursorLess hle) hh
    rw [if_pos hc] at hset ⊢
    exact ⟨hordered, hset.perm hperm⟩
  · obtain ⟨hperm, hordered⟩ := Heap.fixRoot_spec (isOrder_cursorLess hle) c hh
    rw [if_neg hc] at hset ⊢
    exact ⟨hordered, hset.perm hperm⟩

theorem HeapHolds.nil (hrep : HeapHolds run ord [] runs) : ∀ r ∈ runs, r = [] := by
  intro r hr
  by_contra hne
  obtain ⟨j, hj⟩ := mem_iff_getElem?.mp hr
  obtain ⟨c, hc, -⟩ := (hrep.mem_iff hne).mpr hj
  cases hc

end Wadjet.Data
