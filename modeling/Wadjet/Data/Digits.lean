import Mathlib.Tactic.Ring
import Mathlib.Data.List.Basic

namespace Wadjet.Data

open List

def digitByte (n : Nat) : UInt8 :=
  UInt8.ofNat (48 + n % 10)

def decimalDigits (n : Nat) : List UInt8 :=
  if n < 10 then [digitByte n] else decimalDigits (n / 10) ++ [digitByte n]

def fixedDigits : Nat → Nat → List UInt8
  | 0, _ => []
  | s + 1, n => fixedDigits s (n / 10) ++ [digitByte n]

def intText (v : Int) : List UInt8 :=
  if v < 0 then 45 :: decimalDigits v.natAbs else decimalDigits v.natAbs

def ofDigits (l : List UInt8) : Nat :=
  l.foldl (fun x b => x * 10 + (b.toNat - 48)) 0

variable (n : Nat)

theorem digitByte_toNat : (digitByte n).toNat = 48 + n % 10 := by
  rw [digitByte, UInt8.toNat_ofNat', Nat.mod_eq_of_lt (by omega)]

theorem ofDigits_concat (l : List UInt8) (n : Nat) :
    ofDigits (l ++ [digitByte n]) = ofDigits l * 10 + n % 10 := by
  rw [ofDigits, foldl_append, foldl_cons, digitByte_toNat,
    Nat.add_sub_cancel_left]
  rfl

theorem decimalDigits_of_lt {n : Nat} (h : n < 10) : decimalDigits n = [digitByte n] := by
  rw [decimalDigits, if_pos h]

theorem decimalDigits_of_ge {n : Nat} (h : 10 ≤ n) :
    decimalDigits n = decimalDigits (n / 10) ++ [digitByte n] := by
  rw [decimalDigits, if_neg (not_lt.mpr h)]

theorem ofDigits_decimalDigits : ofDigits (decimalDigits n) = n := by
  fun_induction decimalDigits n with
  | case1 n hlt =>
    refine (ofDigits_concat [] n).trans ?_
    rw [Nat.mod_eq_of_lt hlt]
    exact Nat.zero_add n
  | case2 n hge ih =>
    rw [ofDigits_concat, ih]
    omega

theorem decimalDigits_injective {m n : Nat} (h : decimalDigits m = decimalDigits n) : m = n := by
  rw [← ofDigits_decimalDigits m, h, ofDigits_decimalDigits]

theorem length_fixedDigits (s n : Nat) : (fixedDigits s n).length = s := by
  induction s generalizing n with
  | zero => rfl
  | succ s ih => rw [fixedDigits, length_append, ih, length_singleton]

theorem ofDigits_fixedDigits (s n : Nat) : ofDigits (fixedDigits s n) = n % 10 ^ s := by
  induction s generalizing n with
  | zero => rw [Nat.pow_zero, Nat.mod_one]; rfl
  | succ s ih =>
    rw [fixedDigits, ofDigits_concat, ih, Nat.pow_succ', Nat.mod_mul]
    ring

theorem decimalDigits_split {s m : Nat} (h : 10 ^ s ≤ m) :
    decimalDigits m = decimalDigits (m / 10 ^ s) ++ fixedDigits s m := by
  induction s generalizing m with
  | zero => rw [Nat.pow_zero, Nat.div_one, fixedDigits, append_nil]
  | succ s ih =>
    have hpos : 0 < 10 ^ s := Nat.pow_pos (by decide)
    have hdiv : 10 ^ s ≤ m / 10 := by omega
    rw [decimalDigits_of_ge (by omega), ih hdiv, fixedDigits, Nat.div_div_eq_div_mul,
      Nat.pow_succ', append_assoc]

theorem length_decimalDigits_le {s m : Nat} (hs : 0 < s) :
    (decimalDigits m).length ≤ s ↔ m < 10 ^ s := by
  induction s generalizing m with
  | zero => omega
  | succ s ih =>
    obtain hlt | hge := lt_or_ge m 10
    · rw [decimalDigits_of_lt hlt, length_singleton]
      have hpow : 10 ^ 1 ≤ 10 ^ (s + 1) := Nat.pow_le_pow_right (by decide) (by omega)
      omega
    rw [decimalDigits_of_ge hge, length_append, length_singleton]
    cases s with
    | zero =>
      have hlen : 0 < (decimalDigits (m / 10)).length := by
        rw [decimalDigits]
        split_ifs <;> simp
      omega
    | succ s =>
      have hiff := @ih (m / 10) (by omega)
      omega

theorem fixedDigits_pad {s m : Nat} (hs : 0 < s) (h : m < 10 ^ s) :
    replicate (s - (decimalDigits m).length) 48 ++ decimalDigits m = fixedDigits s m := by
  induction s generalizing m with
  | zero => omega
  | succ s ih =>
    have hzero : ∀ s, fixedDigits s 0 = replicate s 48 := by
      intro s
      induction s with
      | zero => rfl
      | succ s ih => rw [fixedDigits, Nat.zero_div, ih, replicate_succ']; rfl
    obtain hlt | hge := lt_or_ge m 10
    · rw [decimalDigits_of_lt hlt, fixedDigits, Nat.div_eq_of_lt hlt, hzero, length_singleton,
        Nat.add_sub_cancel]
    rw [Nat.pow_succ] at h
    have hpos : 0 < s := by
      cases s with
      | zero => rw [Nat.pow_zero] at h; omega
      | succ s => exact Nat.succ_pos s
    rw [decimalDigits_of_ge hge, fixedDigits, length_append, length_singleton,
      ← ih hpos (by omega : m / 10 < 10 ^ s), Nat.add_sub_add_right, append_assoc]

variable {b : UInt8}

theorem isDigit_digitByte : 48 ≤ (digitByte n).toNat ∧ (digitByte n).toNat ≤ 57 := by
  rw [digitByte_toNat]
  omega

theorem isDigit_decimalDigits (h : b ∈ decimalDigits n) : 48 ≤ b.toNat ∧ b.toNat ≤ 57 := by
  fun_induction decimalDigits n with
  | case1 n => exact mem_singleton.mp h ▸ isDigit_digitByte n
  | case2 n _ ih =>
    obtain h | h := mem_append.mp h
    · exact ih h
    · exact mem_singleton.mp h ▸ isDigit_digitByte n

theorem isDigit_fixedDigits (s n : Nat) (h : b ∈ fixedDigits s n) :
    48 ≤ b.toNat ∧ b.toNat ≤ 57 := by
  induction s generalizing n with
  | zero => cases h
  | succ s ih =>
    obtain h | h := mem_append.mp h
    · exact ih (n / 10) h
    · exact mem_singleton.mp h ▸ isDigit_digitByte n

theorem decimalDigits_ne_nil : decimalDigits n ≠ [] := by
  rw [decimalDigits]
  split_ifs <;> simp

theorem mem_intText {v : Int} (h : b ∈ intText v) : b.toNat = 45 ∨ 48 ≤ b.toNat ∧ b.toNat ≤ 57 := by
  unfold intText at h
  split_ifs at h
  · obtain rfl | h := mem_cons.mp h
    · exact .inl rfl
    · exact .inr (isDigit_decimalDigits _ h)
  · exact .inr (isDigit_decimalDigits _ h)

theorem zero_not_mem_intText (v : Int) : (0 : UInt8) ∉ intText v := by
  intro h
  have := mem_intText h
  simp at this

theorem intText_injective {v w : Int} (h : intText v = intText w) : v = w := by
  have hsign : ∀ m n : Nat, 45 :: decimalDigits m ≠ decimalDigits n := by
    intro m n heq
    have hmem : (45 : UInt8) ∈ decimalDigits n := heq ▸ mem_cons_self
    have := isDigit_decimalDigits n hmem
    simp at this
  unfold intText at h
  split_ifs at h with hv hw hw
  · have := decimalDigits_injective (cons.inj h).2
    omega
  · exact absurd h (hsign _ _)
  · exact absurd h.symm (hsign _ _)
  · have := decimalDigits_injective h
    omega

theorem text_split {α : Type} {sep : α} {a b rest rest' : List α} (ha : sep ∉ a) (hb : sep ∉ b)
    (hrest : rest = [] ∨ ∃ l, rest = sep :: l) (hrest' : rest' = [] ∨ ∃ l, rest' = sep :: l)
    (h : a ++ rest = b ++ rest') : a = b ∧ rest = rest' := by
  induction a generalizing b with
  | nil =>
    cases b with
    | nil => exact ⟨rfl, h⟩
    | cons y b =>
      obtain rfl | ⟨l, rfl⟩ := hrest
      · cases h
      · rw [nil_append, cons_append, cons.injEq] at h
        exact absurd (h.1 ▸ mem_cons_self) hb
  | cons x a ih =>
    cases b with
    | nil =>
      obtain rfl | ⟨l, rfl⟩ := hrest'
      · cases h
      · rw [nil_append, cons_append, cons.injEq] at h
        exact absurd (h.1 ▸ mem_cons_self) ha
    | cons y b =>
      rw [cons_append, cons_append, cons.injEq] at h
      obtain ⟨rfl, h⟩ := h
      obtain ⟨rfl, hrests⟩ := ih (fun hmem => ha (mem_cons_of_mem x hmem))
        (fun hmem => hb (mem_cons_of_mem x hmem)) h
      exact ⟨rfl, hrests⟩

end Wadjet.Data
