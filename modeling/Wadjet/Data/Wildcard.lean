import Mathlib.Data.List.Forall2
import Mathlib.Data.List.Infix

namespace Wadjet.Data.Wildcard

open List

variable {α : Type}

inductive Token (α : Type) where
  | many
  | one
  | lit (a : α)

def Token.Stands : Token α → List α → Prop
  | .many, _ => True
  | .one, piece => piece.length = 1
  | .lit a, piece => piece = [a]

def Matches (pattern : List (Token α)) (s : List α) : Prop :=
  ∃ pieces, List.Forall₂ Token.Stands pattern pieces ∧ s = pieces.flatten

-- A pattern read from the left, where an escape makes the next letter a literal.
-- One that ends with an escape has no reading.
def readTokens (isEscape : α → Bool) (tok : α → Token α) : List α → Option (List (Token α))
  | [] => some []
  | [c] => if isEscape c then none else some [tok c]
  | c :: d :: rest =>
    if isEscape c then (readTokens isEscape tok rest).map (.lit d :: ·)
    else (readTokens isEscape tok (d :: rest)).map (tok c :: ·)

variable {isEscape : α → Bool} {tok : α → Token α} {rest : List α}

theorem readTokens_escape {c d : α}
    (h : isEscape c = true) : readTokens isEscape tok (c :: d :: rest) =
      (readTokens isEscape tok rest).map (.lit d :: ·) := by
  rw [readTokens, if_pos h]

theorem readTokens_plain {c : α} (h : isEscape c = false) : readTokens isEscape tok (c :: rest) =
      (readTokens isEscape tok rest).map (tok c :: ·) := by
  cases rest <;> simp [readTokens, h]

variable {p : List (Token α)} {s : List α}

theorem matches_nil : Matches [] s ↔ s = [] := by
  simp [Matches]

theorem matches_cons {t : Token α} :
    Matches (t :: p) s ↔ ∃ piece rest, t.Stands piece ∧ s = piece ++ rest ∧ Matches p rest := by
  constructor
  · rintro ⟨pieces, hstands, rfl⟩
    obtain ⟨piece, rest, ht, hrest, rfl⟩ := forall₂_cons_left_iff.mp hstands
    exact ⟨piece, rest.flatten, ht, flatten_cons, rest, hrest, rfl⟩
  · rintro ⟨piece, rest, ht, rfl, pieces, hstands, rfl⟩
    exact ⟨piece :: pieces, .cons ht hstands, flatten_cons.symm⟩

theorem matches_many_cons : Matches (.many :: p) s ↔ ∃ t, t <:+ s ∧ Matches p t := by
  rw [matches_cons]
  constructor
  · rintro ⟨piece, rest, -, rfl, h⟩
    exact ⟨rest, suffix_append _ _, h⟩
  · rintro ⟨rest, ⟨piece, rfl⟩, h⟩
    exact ⟨piece, rest, trivial, rfl, h⟩

theorem matches_one_cons : Matches (.one :: p) s ↔ ∃ a t, s = a :: t ∧ Matches p t := by
  rw [matches_cons]
  constructor
  · rintro ⟨piece, rest, hone, rfl, h⟩
    obtain ⟨a, rfl⟩ := length_eq_one_iff.mp hone
    exact ⟨a, rest, rfl, h⟩
  · rintro ⟨a, rest, rfl, h⟩
    exact ⟨[a], rest, rfl, rfl, h⟩

theorem matches_lit_cons {a : α} : Matches (.lit a :: p) s ↔ ∃ t, s = a :: t ∧ Matches p t := by
  rw [matches_cons]
  constructor
  · rintro ⟨piece, rest, rfl, rfl, h⟩
    exact ⟨rest, rfl, h⟩
  · rintro ⟨rest, rfl, h⟩
    exact ⟨[a], rest, rfl, rfl, h⟩

theorem matches_many_many : Matches (.many :: .many :: p) s ↔ Matches (.many :: p) s := by
  simp only [matches_many_cons]
  constructor
  · rintro ⟨t, ht, u, hu, h⟩
    exact ⟨u, hu.trans ht, h⟩
  · rintro ⟨t, ht, h⟩
    exact ⟨s, suffix_refl s, t, ht, h⟩

theorem matches_many : Matches [.many] s :=
  matches_many_cons.mpr ⟨[], nil_suffix, matches_nil.mpr rfl⟩

theorem matches_lits_append {q : List α} :
    Matches (q.map .lit ++ p) s ↔ ∃ t, s = q ++ t ∧ Matches p t := by
  induction q generalizing s with
  | nil => simp
  | cons a q ih =>
    rw [map_cons, cons_append, matches_lit_cons]
    simp only [ih]
    constructor
    · rintro ⟨_, rfl, t, rfl, h⟩
      exact ⟨t, rfl, h⟩
    · rintro ⟨t, rfl, h⟩
      exact ⟨q ++ t, rfl, t, rfl, h⟩

variable {q : List α}

theorem matches_lits : Matches (q.map .lit) s ↔ s = q := by
  have h := @matches_lits_append _ [] s q
  rw [append_nil] at h
  simp [h, matches_nil]

theorem matches_leading : Matches (q.map .lit ++ [.many]) s ↔ q <+: s := by
  rw [matches_lits_append]
  constructor
  · rintro ⟨t, rfl, -⟩
    exact prefix_append _ _
  · rintro ⟨t, rfl⟩
    exact ⟨t, rfl, matches_many⟩

theorem matches_trailing : Matches (.many :: q.map .lit) s ↔ q <:+ s := by
  simp [matches_many_cons, matches_lits]

theorem matches_within : Matches (.many :: (q.map .lit ++ [.many])) s ↔ q <:+: s := by
  simp only [matches_many_cons, matches_leading]
  constructor
  · rintro ⟨t, hsuffix, hfront⟩
    exact hfront.isInfix.trans hsuffix.isInfix
  · rintro ⟨before, after, rfl⟩
    exact ⟨q ++ after, ⟨before, by simp⟩, prefix_append _ _⟩

end Wadjet.Data.Wildcard
