import Mathlib.Data.List.Basic

namespace Wadjet.Data

open Option List

variable {Op Answer S M : Type}

def answersOf (step : S → Op → Option (Answer × S)) : S → List Op → Option (List Answer × S)
  | s, [] => some ([], s)
  | s, op :: ops =>
    (step s op).bind fun r => (answersOf step r.2 ops).map fun q => (r.1 :: q.1, q.2)

def specAnswers (spec : M → Op → Answer × M) : M → List Op → List Answer × M
  | m, [] => ([], m)
  | m, op :: ops =>
    ((spec m op).1 :: (specAnswers spec (spec m op).2 ops).1,
      (specAnswers spec (spec m op).2 ops).2)

def Along (spec : M → Op → Answer × M) (ok : M → Op → Prop) : M → List Op → Prop
  | _, [] => True
  | m, op :: ops => ok m op ∧ Along spec ok (spec m op).2 ops

variable {step : S → Op → Option (Answer × S)} {spec : M → Op → Answer × M} {ok : M → Op → Prop}
  {s s' : S} {as : List Answer}

theorem answersOf_cons_eq_some {op : Op} {ops : List Op} {a : Answer} :
    answersOf step s (op :: ops) = some (a :: as, s') ↔
      ∃ s1, step s op = some (a, s1) ∧ answersOf step s1 ops = some (as, s') := by
  rw [answersOf, bind_eq_some_iff]
  constructor
  · rintro ⟨⟨b, s1⟩, hstep, hrest⟩
    obtain ⟨⟨bs, s2⟩, hops, heq⟩ := map_eq_some_iff.mp hrest
    obtain ⟨⟨rfl, rfl⟩, rfl⟩ : (b = a ∧ bs = as) ∧ s2 = s' := by simpa using heq
    exact ⟨s1, hstep, hops⟩
  · rintro ⟨s1, hstep, hops⟩
    exact ⟨(a, s1), hstep, by rw [hops, map_some]⟩

theorem answersOf_length {ops : List Op}
    (h : answersOf step s ops = some (as, s')) : as.length = ops.length := by
  induction ops generalizing s as with
  | nil =>
    obtain ⟨rfl, -⟩ : [] = as ∧ s = s' := by simpa [answersOf] using h
    rfl
  | cons op ops ih =>
    cases as with
    | nil =>
      obtain ⟨r, -, hr⟩ := bind_eq_some_iff.mp h
      obtain ⟨q, -, hq⟩ := map_eq_some_iff.mp hr
      cases hq
    | cons a as =>
      obtain ⟨s1, -, hops⟩ := answersOf_cons_eq_some.mp h
      rw [length_cons, length_cons, ih hops]

theorem specAnswers_length (spec : M → Op → Answer × M) (m : M) (ops : List Op) :
    (specAnswers spec m ops).1.length = ops.length := by
  induction ops generalizing m with
  | nil => rfl
  | cons op ops ih => rw [specAnswers, length_cons, length_cons, ih]

variable {m : M}

-- Operations that refine the specification one by one refine it in sequence.
theorem answersOf_refines {Rel : S → M → Prop} (hstep : ∀ s m op, Rel s m → ok m op →
      ∃ s', step s op = some ((spec m op).1, s') ∧ Rel s' (spec m op).2)
    (h : Rel s m) {ops : List Op} (hok : Along spec ok m ops) :
    ∃ s', answersOf step s ops = some ((specAnswers spec m ops).1, s') ∧
      Rel s' (specAnswers spec m ops).2 := by
  induction ops generalizing s m with
  | nil => exact ⟨s, rfl, h⟩
  | cons op ops ih =>
    obtain ⟨s1, hop, h1⟩ := hstep s m op h hok.1
    obtain ⟨s', hops, h'⟩ := ih h1 hok.2
    exact ⟨s', answersOf_cons_eq_some.mpr ⟨s1, hop, hops⟩, h'⟩

variable {Kept : M → Prop}

theorem answersOf_keeps
    (hstep : ∀ s m op s', Kept m → step s op = some ((spec m op).1, s') → Kept (spec m op).2)
    (h : Kept m) {ops : List Op}
    (hrun : answersOf step s ops = some ((specAnswers spec m ops).1, s')) :
    Kept (specAnswers spec m ops).2 := by
  induction ops generalizing s m with
  | nil => exact h
  | cons op ops ih =>
    obtain ⟨s1, hop, hops⟩ := answersOf_cons_eq_some.mp hrun
    exact ih (hstep s m op s1 h hop) hops

theorem answersOf_reaches {brings : Op → Prop}
    (hstep : ∀ s m op s', Kept m → step s op = some ((spec m op).1, s') → Kept (spec m op).2)
    (hbrings : ∀ m op, brings op → Kept (spec m op).2) {ops : List Op}
    (hrun : answersOf step s ops = some ((specAnswers spec m ops).1, s'))
    (h : ∃ op ∈ ops, brings op) : Kept (specAnswers spec m ops).2 := by
  induction ops generalizing s m with
  | nil => exact absurd h (by simp)
  | cons op ops ih =>
    obtain ⟨s1, hop, hops⟩ := answersOf_cons_eq_some.mp hrun
    by_cases hb : brings op
    · exact answersOf_keeps hstep (hbrings m op hb) hops
    · obtain ⟨op', hmem, hb'⟩ := h
      obtain rfl | hmem := mem_cons.mp hmem
      · exact absurd hb' hb
      · exact ih hops ⟨op', hmem, hb'⟩

theorem Along.and {ok' : M → Op → Prop} {ops : List Op} (h : Along spec ok m ops)
    (h' : Along spec ok' m ops) : Along spec (fun m op => ok m op ∧ ok' m op) m ops := by
  induction ops generalizing m with
  | nil => trivial
  | cons op ops ih => exact ⟨⟨h.1, h'.1⟩, ih h.2 h'.2⟩

theorem along_of_forall {good : Op → Prop} {ops : List Op} (h : ∀ op ∈ ops, good op) :
    Along spec (fun _ op => good op) m ops := by
  induction ops generalizing m with
  | nil => trivial
  | cons op ops ih =>
    exact ⟨h op mem_cons_self, ih fun op' hop' => h op' (mem_cons_of_mem op hop')⟩

end Wadjet.Data
