import Wadjet.Engine.Exec.GroupKey.Compare
import Wadjet.Engine.Exec.Sort.Keys

namespace Wadjet.Engine.Exec

open Wadjet.Data Wadjet.Engine.Batch Wadjet.Engine.Exec.Sort List

theorem Sort.sortEntriesLess_resolved {R V : Type} {key : SortKey R V} (hkernel : IsKernel key.kernel)
    {nullFree : Bool} {a b : R} (ha : nullFree → (key.column a).null = false)
    (hb : nullFree → (key.column b).null = false) :
    sortEntriesLess [resolveSortKey key nullFree] a b =
      decide (keyCompare key (key.column a) (key.column b) < 0) := by
  have hless := not_sortEntriesLess_cons (resolveSortKey key nullFree) []
    (isKernel_resolve hkernel nullFree) b a
  have hswap := (isKernel_keyCompare hkernel).swap (key.column a) (key.column b)
  rw [lexLe, resolvedLe_eq hkernel hb ha, sortEntriesLess, Bool.not_false, Bool.or_true,
    Bool.and_true, keyLe] at hless
  rw [← Bool.not_inj_iff, hless, ← decide_not, decide_eq_decide]
  omega

namespace Sort.IsKernel

variable {α β : Type} {kernel kernel' : α → α → Int}

section

variable (h : IsKernel kernel)

include h

theorem comp (f : β → α) : IsKernel fun a b => kernel (f a) (f b) where
  swap a b := h.swap (f a) (f b)
  trans a b c := h.trans (f a) (f b) (f c)

theorem thenBy_swap {a b : α} {y y' : Int} (hy : y < 0 ↔ 0 < y') :
    thenBy (kernel a b) y < 0 ↔ 0 < thenBy (kernel b a) y' := by
  have hab := h.swap a b
  have hba := h.swap b a
  unfold thenBy
  split_ifs <;> omega

theorem thenBy_trans {a b c : α} {y y' y'' : Int}
    (hy : y ≤ 0 → y' ≤ 0 → y'' ≤ 0) (hab : thenBy (kernel a b) y ≤ 0)
    (hbc : thenBy (kernel b c) y' ≤ 0) : thenBy (kernel a c) y'' ≤ 0 := by
  have hac := h.trans a b c
  have hba := h.trans b c a
  have hcb := h.trans c a b
  have hab' := h.swap a b
  have hbc' := h.swap b c
  have hac' := h.swap a c
  unfold thenBy at hab hbc ⊢
  split_ifs at hab hbc ⊢ <;> omega

theorem lex (h' : IsKernel kernel') : IsKernel fun a b => thenBy (kernel a b) (kernel' a b) where
  swap a b := h.thenBy_swap (h'.swap a b)
  trans a b c := h.thenBy_trans (h'.trans a b c)

theorem elem : IsKernel (compareElem kernel) where
  swap a b := by cases a <;> cases b <;> simp [compareElem, h.swap]
  trans a b c := by
    cases a <;> cases b <;> cases c <;> simp [compareElem]
    exact h.trans _ _ _

end

theorem compareSeq_nil_cons (b : α) (l : List α) : compareSeq kernel [] (b :: l) = -1 := by
  unfold compareSeq comparePrefix thenBy compareLen compareInt
  simp only [length_cons, length_nil]
  split_ifs <;> omega

theorem compareSeq_cons_nil (a : α) (l : List α) : compareSeq kernel (a :: l) [] = 1 := by
  unfold compareSeq comparePrefix thenBy compareLen compareInt
  simp only [length_cons, length_nil]
  split_ifs <;> omega

theorem compareSeq_cons_cons (a b : α) (l l' : List α) :
    compareSeq kernel (a :: l) (b :: l') = thenBy (kernel a b) (compareSeq kernel l l') := by
  simp only [compareSeq, comparePrefix, thenBy, compareLen, compareInt, length_cons]
  split_ifs <;> omega

theorem seq (h : IsKernel kernel) : IsKernel (compareSeq kernel) where
  swap l l' := by
    induction l generalizing l' with
    | nil =>
      cases l' with
      | nil => exact Iff.rfl
      | cons b l' => simp [compareSeq_nil_cons, compareSeq_cons_nil]
    | cons a l ih =>
      cases l' with
      | nil => simp [compareSeq_nil_cons, compareSeq_cons_nil]
      | cons b l' =>
        rw [compareSeq_cons_cons, compareSeq_cons_cons]
        exact h.thenBy_swap (ih l')
  trans l l' l'' := by
    induction l generalizing l' l'' with
    | nil =>
      cases l'' with
      | nil => exact fun _ _ => le_rfl
      | cons c l'' => simp [compareSeq_nil_cons]
    | cons a l ih =>
      cases l' with
      | nil => simp [compareSeq_cons_nil]
      | cons b l' =>
        cases l'' with
        | nil => simp [compareSeq_cons_nil]
        | cons c l'' =>
          rw [compareSeq_cons_cons, compareSeq_cons_cons, compareSeq_cons_cons]
          exact h.thenBy_trans (ih l' l'')

end Sort.IsKernel

theorem isKernel_compareInt : IsKernel compareInt where
  swap a b := by
    unfold compareInt
    split_ifs <;> omega
  trans a b c := by
    unfold compareInt
    split_ifs <;> omega

theorem compareInt_mul_right {k : Int} (hk : 0 < k) (x y : Int) :
    compareInt (x * k) (y * k) = compareInt x y := by
  simp only [compareInt, mul_lt_mul_iff_left₀ hk]

theorem isKernel_compareBool : IsKernel compareBool :=
  ⟨by decide, by decide⟩

theorem compareBytes_eq (l l' : List UInt8) :
    compareBytes l l' = compareSeq (fun a b => compareInt a.toNat b.toNat) l l' := by
  induction l generalizing l' with
  | nil =>
    cases l' with
    | nil => rfl
    | cons b l' => rw [compareBytes, IsKernel.compareSeq_nil_cons]
  | cons a l ih =>
    cases l' with
    | nil => rw [compareBytes, IsKernel.compareSeq_cons_nil]
    | cons b l' =>
      rw [compareBytes, IsKernel.compareSeq_cons_cons, ih]
      simp only [UInt8.lt_iff_toNat_lt, thenBy, compareInt, Nat.cast_lt]
      split_ifs <;> simp_all

theorem isKernel_compareBytes : IsKernel compareBytes := by
  have hbytes : compareBytes = compareSeq fun a b => compareInt a.toNat b.toNat :=
    funext fun l => funext fun l' => compareBytes_eq l l'
  rw [hbytes]
  exact (isKernel_compareInt.comp fun a : UInt8 => (a.toNat : Int)).seq

theorem FloatKey.isKernel_compare {w inf nan : Nat} :
    IsKernel (FloatKey.compare : FloatKey w inf nan → FloatKey w inf nan → Int) where
  swap a b := by
    have := isKernel_compareInt.swap a.rank b.rank
    unfold FloatKey.compare
    cases a.isNaN <;> cases b.isNaN <;> simp_all
  trans a b c := by
    have := isKernel_compareInt.trans a.rank b.rank c.rank
    unfold FloatKey.compare
    cases a.isNaN <;> cases b.isNaN <;> cases c.isNaN <;> simp_all

theorem compareDecimalValues_widest (a b : Int128 × Fin 39) :
    compareDecimalValues a.1 a.2.val b.1 b.2.val =
      compareInt (a.1.signed * 10 ^ (38 - a.2.val)) (b.1.signed * 10 ^ (38 - b.2.val)) := by
  obtain ⟨av, as⟩ := a
  obtain ⟨bv, bs⟩ := b
  have hpos : (0 : Int) < 10 ^ (38 - max as.val bs.val) := pow_pos (by decide) _
  have has : ((bs.val : Int) - as.val).toNat + (38 - max as.val bs.val) = 38 - as.val := by omega
  have hbs : ((as.val : Int) - bs.val).toNat + (38 - max as.val bs.val) = 38 - bs.val := by omega
  rw [compareDecimalValues_eq, ← compareInt_mul_right hpos, mul_assoc, mul_assoc, ← pow_add,
    ← pow_add, has, hbs]

theorem isKernel_compareDecimal :
    IsKernel fun a b : Int128 × Fin 39 => compareDecimalValues a.1 a.2.val b.1 b.2.val := by
  simp only [compareDecimalValues_widest]
  exact isKernel_compareInt.comp fun a : Int128 × Fin 39 => a.1.signed * 10 ^ (38 - a.2.val)

variable (cidrOrderKey : List UInt8 → List UInt8)

theorem isKernel_compareMultiDim {t : KeyType} {compare : t.LeafValue → t.LeafValue → Int}
    (h : IsKernel compare) : IsKernel (compareMultiDim t compare) :=
  (h.elem.seq.comp t.leaves).lex (isKernel_compareInt.seq.comp t.shape)

mutual

theorem isKernel_compareLeaf : (t : LeafType) → IsKernel (compareLeaf cidrOrderKey t)
  | .bool => isKernel_compareBool
  | .int64 => isKernel_compareInt.comp BitVec.toInt
  | .int32 => isKernel_compareInt.comp BitVec.toInt
  | .float64 => FloatKey.isKernel_compare
  | .float32 => FloatKey.isKernel_compare
  | .bytes => isKernel_compareBytes
  | .cidr => isKernel_compareBytes.comp cidrOrderKey
  | .decimal => isKernel_compareDecimal
  | .map entry => (isKernel_compareValues entry).elem.seq
  | .row fields => isKernel_compareFields fields

theorem isKernel_compareInner : (t : KeyType) → IsKernel (compareInner cidrOrderKey t)
  | .leaf t => isKernel_compareLeaf t
  | .array elem => isKernel_compareInner elem

theorem isKernel_compareValues : (t : KeyType) → IsKernel (compareValues cidrOrderKey t)
  | .leaf t => isKernel_compareLeaf t
  | .array (.leaf t) => (isKernel_compareLeaf t).elem.seq
  | .array (.array elem) => isKernel_compareMultiDim (isKernel_compareInner elem)

theorem isKernel_compareFields : (fields : KeyFields) → IsKernel (compareFields cidrOrderKey fields)
  | .nil => ⟨fun _ _ => Iff.rfl, fun _ _ _ _ _ => le_rfl⟩
  | .cons t rest => ((isKernel_compareValues t).elem.comp Prod.fst).lex
      ((isKernel_compareFields rest).comp Prod.snd)

end

-- The comparator is a total preorder, and so is every way to sort a column by it: the
-- comparison resolved for a direction and a side of NULL is the one asked for.
theorem compareValues_orders (t : KeyType) :
    (∀ a b, (compareValues cidrOrderKey t a b).sign = -(compareValues cidrOrderKey t b a).sign) ∧
    (∀ a b c, compareValues cidrOrderKey t a b ≤ 0 → compareValues cidrOrderKey t b c ≤ 0 →
      compareValues cidrOrderKey t a c ≤ 0) ∧
    (∀ a b, compareValues cidrOrderKey t a b ≤ 0 ∨ compareValues cidrOrderKey t b a ≤ 0) ∧
    (∀ a b, a = b → compareValues cidrOrderKey t a b = 0) ∧
    ∀ (order : SortOrder) (nullsLast nullFree : Bool) (key : SortKey (Cell t.Value) t.Value),
      key = ⟨id, compareValues cidrOrderKey t, order, nullsLast⟩ →
      IsKernel (keyCompare key) ∧ ∀ a b : Cell t.Value,
        (nullFree → a.null = false ∧ b.null = false) →
        sortEntriesLess [resolveSortKey key nullFree] a b = decide (keyCompare key a b < 0) := by
  have hkernel := isKernel_compareValues cidrOrderKey t
  refine ⟨fun a b => ?_, hkernel.trans, fun a b => ?_, ?_, ?_⟩
  · have hab := hkernel.swap a b
    have hba := hkernel.swap b a
    obtain h | h | h := lt_trichotomy (compareValues cidrOrderKey t a b) 0
    · rw [Int.sign_eq_neg_one_of_neg h, Int.sign_eq_one_of_pos (hab.mp h)]
    · rw [h, show compareValues cidrOrderKey t b a = 0 by omega]
      rfl
    · rw [Int.sign_eq_one_of_pos h, Int.sign_eq_neg_one_of_neg (hba.mpr h)]
      rfl
  · have hab := hkernel.swap a b
    omega
  · rintro a _ rfl
    have haa := hkernel.swap a a
    omega
  · rintro order nullsLast nullFree key rfl
    exact ⟨isKernel_keyCompare hkernel, fun a b hfree =>
      sortEntriesLess_resolved hkernel (fun h => (hfree h).1) fun h => (hfree h).2⟩

end Wadjet.Engine.Exec
