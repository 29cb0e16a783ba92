import Wadjet.Engine.Exec.Sort.Select

namespace Wadjet.Engine.Exec.Sort

open Wadjet.Data List

variable {R V : Type} {cfg : SortConfig R V} (c : RunCursor R)

def RunCursor.run : List R :=
  c.cur ++ c.later.flatten

theorem RunCursor.run_eq_nil_iff : c.run = [] ↔ c.cur = [] := by
  rw [run, append_eq_nil_iff, and_iff_left_iff_imp]
  intro h
  rw [c.exhausted h]
  rfl

variable (run : List (List R)) (ord : Nat)

theorem RunCursor.run_load (h : ∀ b ∈ run, b ≠ []) :
    (RunCursor.load run ord h).run = run.flatten ∧ (RunCursor.load run ord h).ord = ord := by
  cases run with
  | nil => exact ⟨rfl, rfl⟩
  | cons b rest => exact ⟨rfl, rfl⟩

theorem RunCursor.run_advance (hc : c.cur ≠ []) :
    c.advance.run = c.run.tail ∧ c.advance.ord = c.ord := by
  obtain ⟨cur, later, ord, hlater, hexhausted⟩ := c
  obtain ⟨x, rest, rfl⟩ := exists_cons_of_ne_nil hc
  cases rest with
  | nil => exact RunCursor.run_load later ord hlater
  | cons y rest => exact ⟨rfl, rfl⟩

variable (le : R → R → Bool)

theorem headLe_cur : headLe le RunCursor.cur = headLe le RunCursor.run := by
  have hhead : ∀ c : RunCursor R, c.cur = [] ∧ c.run = [] ∨
      ∃ x rest rest', c.cur = x :: rest ∧ c.run = x :: rest' := by
    intro c
    cases hcur : c.cur with
    | nil => exact .inl ⟨rfl, (c.run_eq_nil_iff).mpr hcur⟩
    | cons x rest => exact .inr ⟨x, rest, rest ++ c.later.flatten, rfl, by rw [RunCursor.run, hcur]; rfl⟩
  funext c d
  unfold headLe
  obtain ⟨hc, hc'⟩ | ⟨x, xs, xs', hc, hc'⟩ := hhead c <;>
    obtain ⟨hd, hd'⟩ | ⟨y, ys, ys', hd, hd'⟩ := hhead d <;> rw [hc, hc', hd, hd']

theorem cursorLess_cur :
    cursorLess le RunCursor.cur RunCursor.ord = cursorLess le RunCursor.run RunCursor.ord := by
  funext c d
  rw [cursorLess, cursorLess, cursorLe, cursorLe, headLe_cur]

section Merging

variable (hkeys : ∀ key ∈ cfg.keys, IsKernel key.kernel)

include hkeys

theorem mergeLe_eq : (fun a b => !mergeLess cfg b a) = keysLe cfg.keys := by
  funext a b
  exact not_less_eq_keysLe hkeys (fun _ => false) (fun _ h => absurd h Bool.false_ne_true)
    fun _ h => absurd h Bool.false_ne_true

theorem mergeStep_eq (h : List (RunCursor R)) (c : RunCursor R) :
    mergeStep cfg h c = stepHeap (keysLe cfg.keys) RunCursor.run RunCursor.ord h c := by
  rw [mergeStep, mergeLe_eq hkeys, stepHeap, stepHeap, cursorLess_cur]
  by_cases hc : c.cur = []
  · rw [if_pos hc, if_pos (c.run_eq_nil_iff.mpr hc)]
  · rw [if_neg hc, if_neg fun h => hc (c.run_eq_nil_iff.mp h)]

end Merging

structure HeapOf (cfg : SortConfig R V) (h : List (RunCursor R)) (runs : List (List R)) : Prop where
  ordered : Heap.Ordered (cursorLess (keysLe cfg.keys) RunCursor.run RunCursor.ord) h
  represents : HeapHolds RunCursor.run RunCursor.ord h runs

variable {h : List (RunCursor R)} {runs : List (List R)}

theorem pullRows_spec (hkeys : ∀ key ∈ cfg.keys, IsKernel key.kernel) (n : Nat) (hh : HeapOf cfg h runs) :
    ∃ runs', HeapOf cfg (pullRows cfg n h).2 runs' ∧
      (∀ out, Merges (keysLe cfg.keys) runs' out →
        Merges (keysLe cfg.keys) runs ((pullRows cfg n h).1 ++ out)) ∧
      ((pullRows cfg n h).1.length < n → (pullRows cfg n h).2 = []) ∧
      runs'.flatten.length + (pullRows cfg n h).1.length = runs.flatten.length := by
  have hle := isOrder_keysLe hkeys
  induction n generalizing h runs with
  | zero => exact ⟨runs, hh, fun _ h => h, nofun, rfl⟩
  | succ n ih =>
    cases h with
    | nil => exact ⟨runs, hh, fun _ h => h, fun _ => rfl, rfl⟩
    | cons c rest =>
      obtain ⟨x, tail, hrun, hget, hfirst, hearly⟩ := hh.represents.first hle hh.ordered
      have hcur : c.cur ≠ [] := by
        intro hnil
        rw [c.run_eq_nil_iff.mpr hnil] at hrun
        cases hrun
      obtain ⟨hadvance, hord⟩ := c.run_advance hcur
      obtain ⟨hordered, hrep⟩ := stepHeap_spec hle hh.ordered hh.represents hord
      rw [hadvance, hrun, tail_cons] at hrep
      obtain ⟨runs', hheap, hmerges, hshort, hlength⟩ := ih ⟨hordered, hrep⟩
      have htake : c.cur.take 1 = [x] := by
        obtain ⟨y, ys, hy⟩ := exists_cons_of_ne_nil hcur
        rw [RunCursor.run, hy, cons_append, cons.injEq] at hrun
        rw [hy, hrun.1]
        rfl
      rw [pullRows, mergeStep_eq hkeys]
      rw [htake, singleton_append]
      refine ⟨runs', hheap, fun out hout => .step hget hfirst hearly (hmerges out hout), fun hlt => ?_, ?_⟩
      · rw [length_cons] at hlt
        exact hshort (by omega)
      · rw [flatten_set (List.getElem?_eq_some_iff.mp hget).1] at hlength
        rw [split_at hget]
        simp only [length_append, length_cons] at hlength ⊢
        omega

theorem HeapOf.done (hh : HeapOf cfg h runs) (hnil : h = []) : Merges (keysLe cfg.keys) runs [] :=
  .done (hnil ▸ hh.represents).nil

theorem pullRows_nil (hkeys : ∀ key ∈ cfg.keys, IsKernel key.kernel) {h h' : List (RunCursor R)}
    (hh : HeapOf cfg h runs) (hpull : pullRows cfg cfg.batchSize h = ([], h')) :
    Merges (keysLe cfg.keys) runs [] := by
  obtain ⟨runs', hheap, hmerges, hshort, -⟩ := pullRows_spec hkeys cfg.batchSize hh
  rw [hpull] at hheap hmerges hshort
  exact hmerges [] (hheap.done (hshort cfg.batchSize_pos))

theorem newFileRunCursor_run :
    (newFileRunCursor run ord).run = run.flatten ∧ (newFileRunCursor run ord).ord = ord := by
  obtain ⟨hrun, hord⟩ := RunCursor.run_load (run.filter (· ≠ [])) ord
    fun b hb => by simpa using (mem_filter.mp hb).2
  refine ⟨hrun.trans ?_, hord⟩
  exact flatten_filter_ne_nil

variable (hkeys : ∀ key ∈ cfg.keys, IsKernel key.kernel)

include hkeys

theorem heapOf_newRunMerger (runs : List (List (List R))) :
    HeapOf cfg (newRunMerger cfg (openRuns runs)) (runs.map flatten) := by
  have hle := isOrder_keysLe hkeys
  unfold newRunMerger
  rw [mergeLe_eq hkeys, cursorLess_cur]
  obtain ⟨hperm, hordered⟩ := Heap.init_spec (isOrder_cursorLess hle) ((openRuns runs).filter (·.cur ≠ []))
  refine ⟨hordered, ?_⟩
  refine HeapHolds.perm ?_ hperm
  have hlive : ∀ r : List (List R) × Nat,
      decide ((newFileRunCursor r.1 r.2).cur ≠ []) = decide (r.1.flatten ≠ []) := by
    intro r
    rw [decide_eq_decide, ne_eq, ← RunCursor.run_eq_nil_iff, (newFileRunCursor_run r.1 r.2).1]
  have hcursor : ∀ r : List (List R) × Nat,
      ((newFileRunCursor r.1 r.2).run, (newFileRunCursor r.1 r.2).ord) = (r.1.flatten, r.2) := by
    intro r
    obtain ⟨hrun, hord⟩ := newFileRunCursor_run r.1 r.2
    rw [hrun, hord]
  unfold HeapHolds openRuns
  rw [zipIdx_map, filter_map, filter_map, map_map]
  simp only [Function.comp_def, hlive, hcursor]
  exact .refl _

theorem length_pulled {h h' : List (RunCursor R)}
    {b : List R} (hh : HeapOf cfg h runs) (hpull : pullRows cfg cfg.batchSize h = (b, h')) :
    ∃ runs', HeapOf cfg h' runs' ∧ runs'.flatten.length + b.length = runs.flatten.length ∧
      ∀ out, Merges (keysLe cfg.keys) runs' out → Merges (keysLe cfg.keys) runs (b ++ out) := by
  obtain ⟨runs', hheap, hmerges, -, hlength⟩ := pullRows_spec hkeys cfg.batchSize hh
  rw [hpull] at hheap hmerges hlength
  exact ⟨runs', hheap, hlength, hmerges⟩

theorem exists_merges (hh : HeapOf cfg h runs) : ∃ out, Merges (keysLe cfg.keys) runs out := by
  obtain ⟨runs', hheap, hmerges, hshort, hlength⟩ := pullRows_spec hkeys (runs.flatten.length + 1) hh
  exact ⟨_, hmerges [] (hheap.done (hshort (by omega)))⟩

theorem mergeToBatches_spec (fuel : Nat) {written : Nat} (hh : HeapOf cfg h runs)
    (hfuel : runs.flatten.length < fuel) (hwritten : ∀ k ∈ cfg.limit, written < k) :
    ∃ out, Merges (keysLe cfg.keys) runs out ∧
      (mergeToBatches cfg fuel h written).flatten = cut cfg.limit written out := by
  induction fuel generalizing h runs written with
  | zero => exact absurd hfuel (Nat.not_lt_zero _)
  | succ fuel ih =>
    unfold mergeToBatches
    cases hpull : pullRows cfg cfg.batchSize h with
    | mk b h' =>
      cases b with
      | nil => exact ⟨[], pullRows_nil hkeys hh hpull, (cut_nil _ _).symm⟩
      | cons x b =>
        obtain ⟨runs', hheap, hlength, hmerges⟩ := length_pulled hkeys hh hpull
        rw [length_cons] at hlength
        cases hlimit : cfg.limit with
        | none =>
          obtain ⟨out, hout, hflat⟩ := @ih h' runs' (written + (x :: b).length) hheap (by omega)
            (by rw [hlimit]; exact nofun)
          refine ⟨x :: b ++ out, hmerges out hout, ?_⟩
          rw [hlimit] at hflat
          exact congrArg (x :: b ++ ·) hflat
        | some k =>
          dsimp only
          generalize hb : x :: b = batch at *
          by_cases hcut : k < written + batch.length
          · have htake : (batch.take (k - written)).length = k - written := by
              rw [length_take]
              omega
            obtain ⟨out, hout⟩ := exists_merges hkeys hheap
            refine ⟨batch ++ out, hmerges out hout, ?_⟩
            rw [if_pos hcut, if_pos (by omega), flatten_singleton, cut,
              take_append_of_le_length (by omega)]
          · rw [if_neg hcut]
            by_cases hfull : k ≤ written + batch.length
            · obtain ⟨out, hout⟩ := exists_merges hkeys hheap
              refine ⟨batch ++ out, hmerges out hout, ?_⟩
              rw [if_pos hfull, flatten_singleton, cut, take_left' (by omega)]
            obtain ⟨out, hout, hflat⟩ := @ih h' runs' (written + batch.length) hheap (by omega)
              (by rw [hlimit]; rintro _ ⟨⟩; omega)
            refine ⟨batch ++ out, hmerges out hout, ?_⟩
            rw [hlimit, cut] at hflat
            rw [if_neg hfull, flatten_cons, hflat, cut, take_append,
              take_of_length_le (by omega : batch.length ≤ k - written), Nat.sub_add_eq]

end Wadjet.Engine.Exec.Sort
