import Mathlib.Data.Multiset.Filter

namespace Wadjet.Data

variable {α β γ : Type} (passes : α → Bool) (visible : α → β)

-- What an observer may learn of a collection: the visible part of the members
-- that pass.
def exposed (s : Multiset α) : Multiset β := (s.filter fun x => passes x).map visible

variable (keep : α → Bool) (g : α → γ) (q : β → Bool)

-- A selection that asks for `passes`, and else looks at visible parts only,
-- followed by a map of visible parts, is a query on what is exposed.
theorem map_filter_eq_exposed (h : β → γ)
    (hkeep : ∀ x, keep x = (passes x && q (visible x))) (hg : ∀ x, g x = h (visible x))
    (s : Multiset α) :
    (s.filter fun x => keep x).map g = ((exposed passes visible s).filter fun y => q y).map h := by
  rw [exposed, Multiset.filter_map, Multiset.filter_filter, Multiset.map_map]
  have hfilter : (s.filter fun x => keep x) =
      s.filter fun x => ((fun y => q y) ∘ visible) x ∧ passes x :=
    Multiset.filter_congr fun x _ => by simp [hkeep, and_comm]
  rw [hfilter]
  exact Multiset.map_congr rfl fun x _ => hg x

theorem map_filter_congr_exposed {passes' keep' : α → Bool} {g' : α → γ} (h : β → γ)
    (hkeep : ∀ x, keep x = (passes x && q (visible x))) (hg : ∀ x, g x = h (visible x))
    (hkeep' : ∀ x, keep' x = (passes' x && q (visible x))) (hg' : ∀ x, g' x = h (visible x))
    {s s' : Multiset α} (hs : exposed passes visible s = exposed passes' visible s') :
    (s.filter fun x => keep x).map g = (s'.filter fun x => keep' x).map g' := by
  rw [map_filter_eq_exposed passes visible keep g q h hkeep hg,
    map_filter_eq_exposed passes' visible keep' g' q h hkeep' hg', hs]

-- A map of every member is told apart by the members that do not pass, so it
-- is a query on what is exposed only when there are none.
theorem map_congr_exposed_iff (h : β → γ) (hg : ∀ x, g x = h (visible x)) :
    (∀ s s' : Multiset α, exposed passes visible s = exposed passes visible s' →
      s.map g = s'.map g) ↔ ∀ x, passes x := by
  refine ⟨fun hall x => ?_, fun hpass s s' hs => ?_⟩
  · by_contra hx
    have hcard := congrArg Multiset.card (hall {x} 0 (by simp [exposed, Multiset.filter_singleton, hx]))
    simp at hcard
  · have hkeep : ∀ x, true = (passes x && true) := by simp [hpass]
    simpa using map_filter_congr_exposed passes visible (fun _ => true) g (fun _ => true) h hkeep hg hkeep hg hs

end Wadjet.Data
