import Mathlib.Logic.Basic

namespace Wadjet.Data

variable {ε α β : Type} {x : Except ε α} {b : β}

theorem except_bind_ok {f : α → Except ε β} (h : x.bind f = .ok b) : ∃ a, x = .ok a ∧ f a = .ok b := by
  cases x with
  | error e => cases h
  | ok a => exact ⟨a, rfl, h⟩

theorem except_map_ok {f : α → β} (h : x.map f = .ok b) : ∃ a, x = .ok a ∧ f a = b := by
  cases x with
  | error e => cases h
  | ok a => exact ⟨a, rfl, Except.ok.inj h⟩

theorem mapM_eq_ok_iff {f : α → Except ε β} {g : α → β} {l : List α} :
    l.mapM f = .ok (l.map g) ↔ ∀ a ∈ l, f a = .ok (g a) := by
  induction l with
  | nil => simp [pure, Except.pure]
  | cons a rest ih =>
    rw [List.mapM_cons, List.map_cons, List.forall_mem_cons, ← ih]
    constructor
    · intro h
      obtain ⟨b, hb, h⟩ := except_bind_ok h
      obtain ⟨bs, hbs, h⟩ := except_bind_ok h
      obtain ⟨rfl, rfl⟩ := List.cons.inj (Except.ok.inj h)
      exact ⟨hb, hbs⟩
    · rintro ⟨ha, hrest⟩
      rw [ha, hrest]
      rfl

end Wadjet.Data
