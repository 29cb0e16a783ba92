import Wadjet.Coordinator.PartialMerge.Model

namespace Wadjet.Coordinator.PartialMerge

open Wadjet.Data List

def KeyValue.type : KeyValue → KeyType
  | .int _ => .int
  | .bool _ => .bool
  | .bytes _ => .bytes
  | .cidr _ => .cidr

def KeyType.isText : KeyType → Bool
  | .int | .bool => false
  | .bytes | .cidr => true

def Typed (types : List KeyType) (keys : List (Option KeyValue)) : Prop :=
  List.Forall₂ (fun type cell => ∀ v ∈ cell, v.type = type) types keys

-- What the key columns hold, under a NULL the zero of the vector.
def slots (cidrOrderKey : Bytes → Bytes) (types : List KeyType) (keys : List (Option KeyValue)) : List KeyValue :=
  zipWith (fun type cell => identity cidrOrderKey (cell.getD (zeroKey type))) types keys

def Continues : KeyValue → KeyValue → Prop
  | .bytes x, .bytes y | .cidr x, .cidr y => ∃ z, y = x ++ 0 :: z
  | _, _ => False

-- The first column where two rows differ tells them apart, unless another text follows and
-- one of the two goes on as the other followed by the separator.
def Told : List KeyValue → List KeyValue → Prop
  | x :: xs, y :: ys =>
    if x = y then Told xs ys
    else (∃ v ∈ xs, v.type.isText) → ¬ Continues x y ∧ ¬ Continues y x
  | _, _ => True

variable {cidrOrderKey : Bytes → Bytes} {types : List KeyType}

section Slots

variable {keys others : List (Option KeyValue)}

theorem rowKey_eq (types : List KeyType) (row : PartialRow) :
    rowKey cidrOrderKey types row = intercalate [0] ((slots cidrOrderKey types row.keys).map (appendKey id)) := by
  rw [rowKey, slots, ← map_uncurry_zip_eq_zipWith, map_map]
  refine congrArg (intercalate [0]) (map_congr_left fun entry _ => ?_)
  obtain ⟨type, cell⟩ := entry
  cases h : cell.getD (zeroKey type) <;> simp [h, identity, appendKey]

theorem slots_eq (types : List KeyType) (keys : List (Option KeyValue)) :
    slots cidrOrderKey types keys =
      zipWith (fun type cell => cell.getD (identity cidrOrderKey (zeroKey type))) types
          (keyOf cidrOrderKey keys) := by
  rw [slots, keyOf, zipWith_map_right]
  congr 1
  funext type cell
  cases cell <;> rfl

theorem slots_congr (types : List KeyType) (h : keyOf cidrOrderKey keys = keyOf cidrOrderKey others) :
    slots cidrOrderKey types keys = slots cidrOrderKey types others := by
  rw [slots_eq, slots_eq, h]

theorem types_slots (h : Typed types keys) : (slots cidrOrderKey types keys).map KeyValue.type = types := by
  induction h with
  | nil => rfl
  | @cons type cell _ _ hcell _ ih =>
    refine congrArg₂ cons ?_ ih
    have hidentity : ∀ v : KeyValue, (identity cidrOrderKey v).type = v.type := fun v => by cases v <;> rfl
    rw [hidentity]
    cases cell with
    | none => cases type <;> rfl
    | some v => exact hcell v rfl

end Slots

section Joined

variable {x y : KeyValue} {xs ys : List KeyValue}

theorem appendKey_injective (htype : x.type = y.type) (h : appendKey id x = appendKey id y) : x = y := by
  cases x with
  | int v => cases y <;> cases htype; exact congrArg _ (intText_injective h)
  | bool b =>
    cases y <;> cases htype
    rename_i c
    revert b c
    decide
  | bytes | cidr => cases y <;> cases htype; exact congrArg _ h

theorem zero_not_mem_appendKey (h : ¬ x.type.isText) : 0 ∉ appendKey id x := by
  cases x with
  | int v => exact zero_not_mem_intText v
  | bool b => cases b <;> decide
  | bytes | cidr => exact absurd rfl h

theorem continues_of_append {z : Bytes} (htype : x.type = y.type) (h : appendKey id y = appendKey id x ++ 0 :: z) :
    Continues x y := by
  have htext : y.type.isText := by
    by_contra hplain
    exact zero_not_mem_appendKey hplain (h ▸ mem_append_right _ mem_cons_self)
  cases x with
  | int | bool => cases y <;> cases htype; cases htext
  | bytes | cidr => cases y <;> cases htype; exact ⟨z, h⟩

theorem count_zero_joined (hplain : ∀ v ∈ xs, ¬ v.type.isText) :
    (intercalate [0] (xs.map (appendKey id))).count 0 = xs.length - 1 := by
  induction xs with
  | nil => rfl
  | cons x xs ih =>
    have hx := count_eq_zero.mpr (zero_not_mem_appendKey (hplain x mem_cons_self))
    cases xs with
    | nil => simpa using hx
    | cons v rest =>
      rw [map_cons, map_cons, intercalate_cons_cons, ← map_cons, count_append, count_append, hx,
        ih fun w hw => hplain w (mem_cons_of_mem x hw)]
      simp
      omega

theorem continues_of_joined {z R R' : Bytes} (htype : x.type = y.type) (hxy : appendKey id y = appendKey id x ++ z)
    (h : 0 :: R = z ++ 0 :: R') (hne : x ≠ y) : Continues x y ∧ R'.count 0 < R.count 0 := by
  cases z with
  | nil => exact absurd (appendKey_injective htype (by simpa using hxy.symm)) hne
  | cons c z =>
    obtain ⟨rfl, rfl⟩ := cons.inj h
    exact ⟨continues_of_append htype hxy, by simp; omega⟩

theorem count_joined_eq (htypes : xs.map KeyValue.type = ys.map KeyValue.type) (hplain : ¬ ∃ v ∈ xs, v.type.isText) :
    (intercalate [0] (xs.map (appendKey id))).count 0 = (intercalate [0] (ys.map (appendKey id))).count 0 := by
  have hlength := congrArg length htypes
  rw [length_map, length_map] at hlength
  have hys : ∀ w ∈ ys, ¬ w.type.isText := by
    intro w hw htext
    obtain ⟨v, hv, hvw⟩ := mem_map.mp (htypes ▸ mem_map_of_mem hw)
    exact hplain ⟨v, hv, hvw ▸ htext⟩
  rw [count_zero_joined fun v hv htext => hplain ⟨v, hv, htext⟩, count_zero_joined hys, hlength]

theorem eq_of_joined (htypes : xs.map KeyValue.type = ys.map KeyValue.type) (htold : Told xs ys)
    (h : intercalate [0] (xs.map (appendKey id)) = intercalate [0] (ys.map (appendKey id))) : xs = ys := by
  induction xs generalizing ys with
  | nil => exact (map_eq_nil_iff.mp htypes.symm).symm
  | cons x xs ih =>
    obtain ⟨y, ys, rfl⟩ := exists_cons_of_ne_nil (fun hnil => by simp [hnil] at htypes : ys ≠ [])
    obtain ⟨htype, hrests⟩ : x.type = y.type ∧ xs.map KeyValue.type = ys.map KeyValue.type := by simpa using htypes
    have hlength := congrArg length hrests
    rw [length_map, length_map] at hlength
    rw [map_cons, map_cons] at h
    cases xs with
    | nil =>
      obtain rfl := length_eq_zero_iff.mp hlength.symm
      rw [appendKey_injective htype (by simpa using h)]
    | cons v vs =>
      obtain ⟨w, ws, rfl⟩ := exists_cons_of_ne_nil (fun hnil => by simp [hnil] at hlength : ys ≠ [])
      rw [map_cons, map_cons, intercalate_cons_cons, intercalate_cons_cons, ← map_cons, ← map_cons,
        append_assoc, append_assoc, singleton_append, singleton_append] at h
      unfold Told at htold
      by_cases hxy : x = y
      · subst hxy
        rw [if_pos rfl] at htold
        rw [ih hrests htold (cons.inj (append_cancel_left h)).2]
      · rw [if_neg hxy] at htold
        have hcount := count_joined_eq hrests
        obtain ⟨z, hz, hrest⟩ | ⟨z, hz, hrest⟩ := append_eq_append_iff.mp h
        · obtain ⟨hcontinues, hlt⟩ := continues_of_joined htype hz hrest hxy
          exact absurd hcontinues (htold (not_not.mp fun hplain => by have := hcount hplain; omega)).1
        · obtain ⟨hcontinues, hlt⟩ := continues_of_joined htype.symm hz hrest (Ne.symm hxy)
          exact absurd hcontinues (htold (not_not.mp fun hplain => by have := hcount hplain; omega)).2

end Joined

end Wadjet.Coordinator.PartialMerge
