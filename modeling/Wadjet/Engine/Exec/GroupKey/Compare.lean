import Wadjet.Engine.Exec.GroupKey.Model

namespace Wadjet.Engine.Exec

open Wadjet.Data Wadjet.Engine.Batch List

section Sequences

variable {α : Type} {compare : α → α → Int}

theorem compareElem_eq_zero_iff {a b : Option α} :
    compareElem compare a b = 0 ↔ Option.Rel (fun x y => compare x y = 0) a b := by
  cases a <;> cases b <;> simp [compareElem]

theorem thenBy_eq_zero_iff {x y : Int} : thenBy x y = 0 ↔ x = 0 ∧ y = 0 := by
  unfold thenBy
  by_cases hx : x = 0
  · rw [if_neg (not_not.mpr hx), and_iff_right hx]
  · rw [if_pos hx]
    exact iff_of_false hx fun h => hx h.1

theorem compareLen_eq_zero_iff {m n : Nat} : compareLen m n = 0 ↔ m = n := by
  rw [compareLen, compareInt_eq_zero_iff, Int.natCast_inj]

theorem compareSeq_eq_zero_iff {l l' : List α} :
    compareSeq compare l l' = 0 ↔ List.Forall₂ (fun a b => compare a b = 0) l l' := by
  rw [compareSeq, thenBy_eq_zero_iff, compareLen_eq_zero_iff]
  induction l generalizing l' with
  | nil => cases l' <;> simp [comparePrefix]
  | cons a l ih =>
    cases l' with
    | nil => simp
    | cons b l' =>
      rw [forall₂_cons, ← ih, comparePrefix, thenBy_eq_zero_iff, length_cons,
        length_cons, Nat.succ_inj, and_assoc]

theorem compareBytes_eq_zero_iff {l l' : List UInt8} : compareBytes l l' = 0 ↔ l = l' := by
  induction l generalizing l' with
  | nil => cases l' <;> simp [compareBytes]
  | cons a l ih =>
    cases l' with
    | nil => simp [compareBytes]
    | cons b l' =>
      rw [compareBytes, cons.injEq, ← ih]
      simp only [UInt8.lt_iff_toNat_lt, ← UInt8.toNat_inj]
      obtain hlt | heq | hgt := lt_trichotomy a.toNat b.toNat
      · simp [hlt, hlt.ne]
      · simp [heq]
      · simp [hgt, hgt.not_gt, hgt.ne']

theorem compareBool_eq_zero_iff {a b : Bool} : compareBool a b = 0 ↔ a = b := by
  revert a b
  decide

theorem compareWord_eq_zero_iff {w : Nat} {a b : BitVec w} :
    compareInt a.toInt b.toInt = 0 ↔ a = b := by
  rw [compareInt_eq_zero_iff, BitVec.toInt_inj]

theorem FloatKey.compare_eq_zero_iff {w inf nan : Nat} {a b : FloatKey w inf nan} :
    a.compare b = 0 ↔ a = b := by
  constructor
  · intro h
    have hbits : a.bits.toNat = b.bits.toNat := by
      have ha := a.zero
      have hb := b.zero
      have hnan : ∀ f : FloatKey w inf nan, f.isNaN → f.bits.toNat = nan :=
        fun f hf => f.one (of_decide_eq_true hf)
      unfold FloatKey.compare at h
      cases hna : a.isNaN <;> cases hnb : b.isNaN
      · rw [hna, hnb, if_pos ⟨rfl, rfl⟩, compareInt_eq_zero_iff] at h
        unfold rank at h
        have hlt : ∀ f : FloatKey w inf nan, f.bits.toNat < 2 * 2 ^ (w - 1) := by
          intro f
          refine f.bits.isLt.trans_le ?_
          rw [← Nat.pow_succ']
          exact Nat.pow_le_pow_right Nat.two_pos (by omega)
        have hdiv : ∀ f : FloatKey w inf nan, 2 ^ (w - 1) ≤ f.bits.toNat →
            f.bits.toNat % 2 ^ (w - 1) = f.bits.toNat - 2 ^ (w - 1) := by
          intro f hf
          rw [Nat.mod_eq_sub_mod hf, Nat.mod_eq_of_lt (by have := hlt f; omega)]
        by_cases hsa : 2 ^ (w - 1) ≤ a.bits.toNat <;> by_cases hsb : 2 ^ (w - 1) ≤ b.bits.toNat
        · rw [hdiv a hsa, hdiv b hsb] at h
          omega
        · rw [hdiv a hsa] at h
          omega
        · rw [hdiv b hsb] at h
          omega
        · rw [Nat.mod_eq_of_lt (by omega), Nat.mod_eq_of_lt (by omega)] at h
          omega
      · simp [hna, hnb] at h
      · simp [hna, hnb] at h
      · rw [hnan a hna, hnan b hnb]
    obtain ⟨abits, _, _⟩ := a
    obtain ⟨bbits, _, _⟩ := b
    obtain rfl : abits = bbits := BitVec.eq_of_toNat_eq hbits
    rfl
  · rintro rfl
    unfold FloatKey.compare
    cases a.isNaN <;> simp [compareInt]

end Sequences

theorem shape_head (t : KeyType) (l : List (Option t.Value)) :
    ∃ rest, t.shape l = (l.length : Int) :: rest := by
  cases t with
  | leaf t => exact ⟨[], rfl⟩
  | array elem => exact ⟨_, rfl⟩

-- The lengths of an array of arrays tell where each inner array ends.
theorem codes_shape_array {elem : KeyType}
    (h : Codes elem.shape fun l l' => elem.shape l = elem.shape l') :
    Codes (KeyType.shape (.array elem))
      (List.Forall₂ (Option.Rel fun l l' => elem.shape l = elem.shape l')) := by
  have hlength : Codes (fun n : Nat => [(n : Int)]) Eq := .of_length (fun _ => rfl) (by simp)
  have hnull : ∀ x rest rest', [-1] ++ rest ≠ elem.shape x ++ rest' := by
    intro x rest rest' heq
    obtain ⟨tail, htail⟩ := shape_head elem x
    rw [htail, cons_append, cons_append, cons.injEq] at heq
    omega
  have hcode : optional [-1] elem.shape = fun o => o.elim [-1] elem.shape := by
    funext o
    cases o <;> rfl
  have hoptional := h.optional hnull
  rw [hcode] at hoptional
  exact hlength.counted hoptional

theorem codes_shape : (t : KeyType) →
    Codes t.shape fun l l' => t.shape l = t.shape l'
  | .leaf _ => .of_length (fun _ => rfl) fun _ _ => Iff.rfl
  | .array elem => (codes_shape_array (codes_shape elem)).iff
    (codes_shape_array (codes_shape elem)).eq_iff

variable {elem : KeyType} {l l' : List (Option (List (Option elem.Value)))}

theorem shape_array_iff : KeyType.shape (.array elem) l = KeyType.shape (.array elem) l' ↔
    List.Forall₂ (Option.Rel fun l l' => elem.shape l = elem.shape l') l l' :=
  (codes_shape_array (codes_shape elem)).eq_iff

theorem length_leaves : (t : KeyType) → (l l' : List (Option t.Value)) → t.shape l = t.shape l' →
    (t.leaves l).length = (t.leaves l').length
  | .leaf _, _, _, h => Int.ofNat.inj (cons.inj h).1
  | .array elem, _, _, h => by
    induction shape_array_iff.mp h with
    | nil => rfl
    | cons hoo hrest ih =>
      have htail := ih (shape_array_iff.mpr hrest)
      cases hoo with
      | none => exact htail
      | some hxy =>
        have hhead := length_leaves elem _ _ hxy
        exact length_append.trans ((congrArg₂ _ hhead htail).trans length_append.symm)

def SameFlat {t : KeyType} (same : t.LeafValue → t.LeafValue → Prop) (l l' : List (Option t.Value)) :
    Prop :=
  List.Forall₂ (Option.Rel same) (t.leaves l) (t.leaves l') ∧ t.shape l = t.shape l'

theorem forall₂_append_iff {α : Type} {rel : α → α → Prop} {a a' b b' : List α}
    (hlength : a.length = a'.length) :
    List.Forall₂ rel (a ++ b) (a' ++ b') ↔ List.Forall₂ rel a a' ∧ List.Forall₂ rel b b' := by
  induction a generalizing a' with
  | nil =>
    obtain rfl := length_eq_zero_iff.mp hlength.symm
    simp
  | cons x a ih =>
    cases a' with
    | nil => cases hlength
    | cons x' a' =>
      rw [cons_append, cons_append, forall₂_cons, forall₂_cons,
        ih (Nat.succ.inj hlength), and_assoc]

variable {same : elem.LeafValue → elem.LeafValue → Prop}

theorem sameFlat_array_iff :
    @SameFlat (.array elem) same l l' ↔ List.Forall₂ (Option.Rel (SameFlat same)) l l' := by
  refine (and_congr_right fun _ => shape_array_iff).trans ⟨?_, ?_⟩
  · rintro ⟨hleaves, hshape⟩
    induction hshape with
    | nil => exact .nil
    | cons hoo _ ih =>
      cases hoo with
      | none => exact .cons .none (ih hleaves)
      | some hxy =>
        obtain ⟨hhead, htail⟩ := (forall₂_append_iff (length_leaves elem _ _ hxy)).mp hleaves
        exact .cons (.some ⟨hhead, hxy⟩) (ih htail)
  · intro h
    induction h with
    | nil => exact ⟨.nil, .nil⟩
    | cons hoo _ ih =>
      cases hoo with
      | none => exact ⟨ih.1, .cons .none ih.2⟩
      | some hxy =>
        refine ⟨?_, .cons (.some hxy.2) ih.2⟩
        exact (forall₂_append_iff (length_leaves elem _ _ hxy.2)).mpr ⟨hxy.1, ih.1⟩

theorem sameFlat_array_of
    {values : List (Option elem.Value) → List (Option elem.Value) → Prop}
    (h : ∀ x y, SameFlat same x y ↔ values x y) (l l' : List (Option (List (Option elem.Value)))) :
    @SameFlat (.array elem) same l l' ↔ List.Forall₂ (Option.Rel values) l l' := by
  have hvalues : SameFlat same = values := by
    funext x y
    exact propext (h x y)
  rw [sameFlat_array_iff, hvalues]

variable {cidrOrderKey : List UInt8 → List UInt8}

theorem compareMultiDim_eq_zero_iff {t : KeyType} {compare : t.LeafValue → t.LeafValue → Int}
    {l l' : List (Option t.Value)} :
    compareMultiDim t compare l l' = 0 ↔ SameFlat (fun x y => compare x y = 0) l l' := by
  rw [compareMultiDim, thenBy_eq_zero_iff, compareSeq_eq_zero_iff, compareSeq_eq_zero_iff]
  refine and_congr ?_ ?_
  · simp only [compareElem_eq_zero_iff]
  · simp only [compareInt_eq_zero_iff, forall₂_eq_eq_eq]

theorem compareList_eq_zero_iff (t : LeafType) (l l' : List (Option t.Value)) :
    compareValues cidrOrderKey (.array (.leaf t)) l l' = 0 ↔
      List.Forall₂ (Option.Rel fun x y => compareLeaf cidrOrderKey t x y = 0) l l' := by
  have hdef : compareValues cidrOrderKey (.array (.leaf t)) l l' =
      compareSeq (compareElem (compareLeaf cidrOrderKey t)) l l' := rfl
  rw [hdef, compareSeq_eq_zero_iff]
  simp only [compareElem_eq_zero_iff]

theorem compareArrays_eq_zero_iff (elem : KeyType) (l l' : List (Option (List (Option elem.Value)))) :
    compareValues cidrOrderKey (.array (.array elem)) l l' = 0 ↔
      @SameFlat (.array elem) (fun x y => compareInner cidrOrderKey elem x y = 0) l l' :=
  @compareMultiDim_eq_zero_iff (.array elem) (compareInner cidrOrderKey elem) l l'

theorem sameFlat_iff : (t : KeyType) → (l l' : List (Option t.Value)) →
    (SameFlat (fun x y => compareInner cidrOrderKey t x y = 0) l l' ↔
      List.Forall₂ (Option.Rel fun x y => compareValues cidrOrderKey t x y = 0) l l')
  | .leaf _, l, l' => by
      refine ⟨fun h => h.1, fun h => ⟨h, ?_⟩⟩
      exact congrArg (fun n : Nat => [(n : Int)]) h.length_eq
  | .array (.leaf t), l, l' =>
    @sameFlat_array_of (.leaf t) (fun x y => compareLeaf cidrOrderKey t x y = 0)
      (fun x y => compareValues cidrOrderKey (.array (.leaf t)) x y = 0)
      (fun x y => (sameFlat_iff (.leaf t) x y).trans (compareList_eq_zero_iff t x y).symm) l l'
  | .array (.array elem), l, l' =>
    @sameFlat_array_of (.array elem) (fun x y => compareInner cidrOrderKey elem x y = 0)
      (fun x y => compareValues cidrOrderKey (.array (.array elem)) x y = 0)
      (fun x y => (compareArrays_eq_zero_iff elem x y).symm) l l'

theorem compareArray_eq_zero_iff (elem : KeyType) (l l' : List (Option elem.Value)) :
    compareValues cidrOrderKey (.array elem) l l' = 0 ↔
      List.Forall₂ (Option.Rel fun x y => compareValues cidrOrderKey elem x y = 0) l l' := by
  cases elem with
  | leaf t => exact compareList_eq_zero_iff t l l'
  | array elem => exact (compareArrays_eq_zero_iff elem l l').trans (sameFlat_iff (.array elem) l l')

end Wadjet.Engine.Exec
