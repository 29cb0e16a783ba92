import Wadjet.Engine.Batch.DecimalTextOrder
import Wadjet.Engine.Exec.GroupKey.Containers

namespace Wadjet.Physical.SetOps

open Wadjet.Data Wadjet.Engine.Batch Wadjet.Engine.Exec Wide List Function

inductive SetOp where
  | union
  | intersect
  | except

section Loops

variable {R K : Type} [DecidableEq K] (key : R → K)

def countKeys (rows : List R) : K → Nat :=
  rows.foldl (fun rightSet row => update rightSet (key row) (rightSet (key row) + 1)) fun _ => 0

-- The loops of the ALL forms: a row of the right is used up by the first row of the left that
-- meets it. INTERSECT keeps the rows that met one, EXCEPT the others.
def matchAll (found : Bool) : List R → (K → Nat) → List R
  | [], _ => []
  | row :: rest, rightSet =>
    if 0 < rightSet (key row) then
      let rows := matchAll found rest (update rightSet (key row) (rightSet (key row) - 1))
      if found then row :: rows else rows
    else
      let rows := matchAll found rest rightSet
      if found then rows else row :: rows

def matchDistinct (found : Bool) (rightSet : K → Nat) : List R → List K → List R
  | [], _ => []
  | row :: rest, seen =>
    if key row ∈ seen then matchDistinct found rightSet rest seen
    else
      let rows := matchDistinct found rightSet rest (key row :: seen)
      if decide (0 < rightSet (key row)) = found then row :: rows else rows

variable (left right : List R)

def intersectRows (all : Bool) : List R :=
  if all then matchAll key true left (countKeys key right)
  else matchDistinct key true (countKeys key right) left []

def exceptRows (all : Bool) : List R :=
  if all then matchAll key false left (countKeys key right)
  else matchDistinct key false (countKeys key right) left []

def deduplicateRows (rows : List R) : List R :=
  matchDistinct key false (fun _ => 0) rows []

def combine (all : Bool) : SetOp → List R
  | .intersect => intersectRows key left right all
  | .except => exceptRows key left right all
  | .union => if all then left ++ right else deduplicateRows key (left ++ right)

end Loops

def copies (m n : Nat) (all : Bool) : SetOp → Nat
  | .union => if all then m + n else if 0 < m + n then 1 else 0
  | .intersect => if all then min m n else if 0 < m ∧ 0 < n then 1 else 0
  | .except => if all then m - n else if 0 < m ∧ n = 0 then 1 else 0

section Counts

variable {R K : Type} [DecidableEq K] {key : R → K}

theorem countKeys_apply (rows : List R) (k : K) :
    countKeys key rows k = rows.countP (key · = k) := by
  have hfold : ∀ rightSet : K → Nat,
      rows.foldl (fun rightSet row => update rightSet (key row) (rightSet (key row) + 1)) rightSet k =
        rightSet k + rows.countP (key · = k) := by
    induction rows with
    | nil => exact fun _ => rfl
    | cons row rest ih =>
      intro rightSet
      rw [foldl_cons, ih]
      by_cases hk : key row = k
      · simp [hk]
        omega
      · simp [hk, update_of_ne (Ne.symm hk)]
  rw [countKeys, hfold, Nat.zero_add]

theorem matchAll_sublist (found : Bool) (left : List R) (rightSet : K → Nat) :
    matchAll key found left rightSet <+ left := by
  induction left generalizing rightSet with
  | nil => exact .slnil
  | cons row rest ih =>
    rw [matchAll]
    split_ifs
    · exact (ih _).cons_cons row
    · exact (ih _).cons row
    · exact (ih _).cons row
    · exact (ih _).cons_cons row

theorem countP_matchAll (found : Bool) (left : List R) (rightSet : K → Nat) (k : K) :
    (matchAll key found left rightSet).countP (key · = k) =
      if found then min (left.countP (key · = k)) (rightSet k) else left.countP (key · = k) - rightSet k := by
  induction left generalizing rightSet with
  | nil => cases found <;> simp [matchAll]
  | cons row rest ih =>
    rw [matchAll]
    by_cases hk : key row = k
    · subst hk
      by_cases hset : 0 < rightSet (key row) <;> cases found <;> simp [hset, ih] <;> omega
    · by_cases hset : 0 < rightSet (key row) <;> cases found <;>
        simp [hset, hk, ih, update_of_ne (Ne.symm hk)]

variable {found : Bool} {rightSet : K → Nat}

theorem matchDistinct_sublist (left : List R) (seen : List K) :
    matchDistinct key found rightSet left seen <+ left := by
  induction left generalizing seen with
  | nil => exact .slnil
  | cons row rest ih =>
    rw [matchDistinct]
    split_ifs
    · exact (ih _).cons row
    · exact (ih _).cons_cons row
    · exact (ih _).cons row

theorem countP_matchDistinct (left : List R) (seen : List K) (k : K) :
    (matchDistinct key found rightSet left seen).countP (key · = k) =
      if k ∉ seen ∧ 0 < left.countP (key · = k) ∧ decide (0 < rightSet k) = found then 1 else 0 := by
  induction left generalizing seen with
  | nil => simp [matchDistinct]
  | cons row rest ih =>
    rw [matchDistinct]
    by_cases hseen : key row ∈ seen
    · by_cases hk : key row = k
      · rw [if_pos hseen, ih]
        simp [hseen, ← hk]
      · simp [hseen, ih, hk]
    · by_cases hk : key row = k
      · subst hk
        by_cases hfound : decide (0 < rightSet (key row)) = found <;>
          simp only [hseen, hfound, if_true, if_false, countP_cons, ih] <;> simp [hseen]
      · by_cases hfound : decide (0 < rightSet (key row)) = found <;>
          simp [hseen, hfound, hk, Ne.symm hk, ih]

variable (left right : List R) (all : Bool) (op : SetOp)

theorem countP_combine (k : K) : (combine key left right all op).countP (key · = k) =
    copies (left.countP (key · = k)) (right.countP (key · = k)) all op := by
  cases op <;> cases all <;>
    simp [combine, copies, intersectRows, exceptRows, deduplicateRows, countP_matchAll,
      countP_matchDistinct, countKeys_apply]

theorem mem_of_mem_combine {row : R} (h : row ∈ combine key left right all op) :
    row ∈ left ++ right := by
  cases op with
  | union =>
    cases all with
    | true => exact h
    | false => exact (matchDistinct_sublist _ _).subset h
  | intersect | except =>
    refine mem_append_left _ ?_
    cases all with
    | true => exact (matchAll_sublist _ _ _).subset h
    | false => exact (matchDistinct_sublist _ _).subset h

section Answer

variable (key) (same : R → R → Prop) [DecidableRel same]

def Correct : Prop :=
  (∀ r, (combine key left right all op).countP (same r ·) =
    copies (left.countP (same r ·)) (right.countP (same r ·)) all op) ∧
  ∀ r ∈ combine key left right all op, r ∈ left ++ right

def Told : Prop :=
  ∀ r ∈ left ++ right, ∀ s ∈ left ++ right, key r = key s → same r s

end Answer

variable {same : R → R → Prop} [DecidableRel same] {left right} (hequiv : Equivalence same)
    (hkey : ∀ {r s}, same r s → key r = key s)

include hequiv hkey

theorem correct_of_told (h : Told key left right same) : Correct key left right all op same := by
  have hmem : ∀ t ∈ combine key left right all op, t ∈ left ++ right :=
    fun t ht => mem_of_mem_combine left right all op ht
  refine ⟨fun r => ?_, hmem⟩
  by_cases hr : ∃ s ∈ left ++ right, same r s
  · obtain ⟨s, hs, hrs⟩ := hr
    -- the rows equal to r are those with the key of s
    have hcount : ∀ rows : List R, (∀ t ∈ rows, t ∈ left ++ right) →
        rows.countP (same r ·) = rows.countP (key · = key s) := by
      refine fun rows hrows => countP_congr fun t ht => ?_
      rw [decide_eq_true_iff, decide_eq_true_iff]
      refine ⟨fun hrt => (hkey hrt).symm.trans (hkey hrs), fun hts => ?_⟩
      exact hequiv.trans hrs (hequiv.symm (h t (hrows t ht) s hs hts))
    rw [hcount _ hmem, hcount left fun t => mem_append_left _, hcount right fun t => mem_append_right _,
      countP_combine]
  · have hnone : ∀ rows : List R, (∀ t ∈ rows, t ∈ left ++ right) → rows.countP (same r ·) = 0 := by
      refine fun rows hrows => countP_eq_zero.mpr fun t ht hrt => hr ⟨t, hrows t ht, ?_⟩
      exact of_decide_eq_true hrt
    rw [hnone _ hmem, hnone left fun t => mem_append_left _, hnone right fun t => mem_append_right _]
    cases op <;> cases all <;> rfl

theorem told_of_correct (h : Correct key left right false .union same) : Told key left right same := by
  intro r hr s hs heq
  have hkept : ∀ t ∈ left ++ right, key t = key r →
      ∃ t' ∈ (combine key left right false .union).filter (key · = key r), same t t' := by
    intro t ht hkeys
    have hpos : 0 < left.countP (same t ·) + right.countP (same t ·) := by
      rw [← countP_append, countP_pos_iff]
      exact ⟨t, ht, decide_eq_true (hequiv.refl t)⟩
    have hone := h.1 t
    rw [copies, if_neg Bool.false_ne_true, if_pos hpos] at hone
    obtain ⟨t', ht', hsame⟩ := countP_pos_iff.mp (hone ▸ Nat.one_pos)
    have hsame := of_decide_eq_true hsame
    exact ⟨t', mem_filter.mpr ⟨ht', decide_eq_true ((hkey hsame).symm.trans hkeys)⟩, hsame⟩
  -- one row of the answer has the key
  have hfilter : ((combine key left right false .union).filter (key · = key r)).length ≤ 1 := by
    rw [← countP_eq_length_filter, countP_combine, copies, if_neg Bool.false_ne_true]
    split_ifs <;> omega
  obtain ⟨r', hr', hrr'⟩ := hkept r hr rfl
  obtain ⟨s', hs', hss'⟩ := hkept s hs heq.symm
  obtain ⟨x, hx⟩ := length_eq_one_iff.mp (hfilter.antisymm (length_pos_of_mem hr'))
  rw [hx, mem_singleton] at hr' hs'
  exact hequiv.trans (hr' ▸ hrr') (hequiv.symm (hs' ▸ hss'))

end Counts

-- The boxes of a unified schema. A decimal comes as its text at a scale of its own, and has a
-- carrier at the scale of the column.
structure DecimalBox (scale : Nat) where
  own : Nat
  unscaled : Int128
  carrier : Int128
  same : unscaled.signed * 10 ^ scale = carrier.signed * 10 ^ own

inductive ColumnType where
  | bool
  | int (width : Nat)
  | decimal (scale : Fin 39)
  | string
  | cidr
  | list (elem : ElemType)
  | row (fields : ElemFields)

def ColumnType.Value : ColumnType → Type
  | .bool => Bool
  | .int width => BitVec width
  | .decimal scale => DecimalBox scale.val
  | .string | .cidr => List UInt8
  | .list elem => List (Option elem.Value)
  | .row fields => fields.Values

def Row : List ColumnType → Type
  | [] => Unit
  | t :: rest => Option t.Value × Row rest

def parseDecimalStringChecked (s : List UInt8) (scale : Int) : Option Int128 :=
  if decimalSpecialText s ≠ .finite then none
  else
    (decimalTextAt s scale).bind fun d =>
      if d.residual ≠ 0 then none else if d.sat ≠ 0 then none else some d.unscaled

def boolText (b : Bool) : List UInt8 :=
  if b then [116, 114, 117, 101] else [102, 97, 108, 115, 101]

variable (cidrOrderKey : List UInt8 → List UInt8)

def keyValueText : (t : ColumnType) → t.Value → List UInt8
  | .bool, b => boolText b
  | .int _, v => intText v.toInt
  | .decimal scale, d =>
    let text := formatDecimal d.unscaled d.own
    ((parseDecimalStringChecked text scale.val).map (appendDecimalKey · scale.val)).getD text
  | .string, s => s
  | .cidr, s => cidrOrderKey s
  | .list elem, l => appendKeyElems (appendKeyElem cidrOrderKey elem) l
  | .row fields, vs => uvarint fields.length ++ appendKeyFields cidrOrderKey fields vs

def texts : (ts : List ColumnType) → Row ts → List (Option (List UInt8))
  | [], _ => []
  | t :: rest, r => r.1.map (keyValueText cidrOrderKey t) :: texts rest r.2

-- `N` for NULL, and `v` before a value.
def key (ts : List ColumnType) (r : Row ts) : List UInt8 :=
  (texts cidrOrderKey ts r).flatMap fun v => 0 :: flagged 78 118 id v

def Same : (t : ColumnType) → t.Value → t.Value → Prop
  | .bool, a, b | .string, a, b => a = b
  | .int _, a, b => a.toInt = b.toInt
  | .decimal scale, a, b => compareDecimalValues a.carrier scale.val b.carrier scale.val = 0
  | .cidr, a, b => cidrOrderKey a = cidrOrderKey b
  | .list elem, a, b => List.Forall₂ (Option.Rel (SameElem cidrOrderKey elem)) a b
  | .row fields, a, b => SameElems cidrOrderKey fields a b

def SameRow : (ts : List ColumnType) → Row ts → Row ts → Prop
  | [], _, _ => True
  | t :: rest, a, b => Option.Rel (Same cidrOrderKey t) a.1 b.1 ∧ SameRow rest a.2 b.2

-- The texts that stand in the key as they are, and those that never have a zero byte.
def ColumnType.isRaw : ColumnType → Bool
  | .string | .cidr => true
  | _ => false

def ColumnType.isPlain : ColumnType → Bool
  | .bool | .int _ => true
  | _ => false

-- The one text and then what could be the tag of the next column; a NULL is followed by another.
def Continues (rest : List ColumnType) (x y : List UInt8) : Prop :=
  ∃ tag z, y = x ++ 0 :: tag :: z ∧ (tag = 118 ∨ tag = 78 ∧ 1 < rest.length)

def Apart : (ts : List ColumnType) → Row ts → Row ts → Prop
  | [], _, _ => True
  | t :: rest, a, b =>
    (t.isRaw → ¬ rest.all (·.isPlain) → ∀ x ∈ a.1.map (keyValueText cidrOrderKey t),
      ∀ y ∈ b.1.map (keyValueText cidrOrderKey t), ¬ Continues rest x y ∧ ¬ Continues rest y x) ∧
    Apart rest a.2 b.2

variable {cidrOrderKey}

theorem decimalSpecialText_plain (neg : Bool) (m s : Nat) :
    decimalSpecialText (plainText neg m s) = .finite := by
  obtain ⟨b, rest, hbody, hlow, hhigh⟩ := head_plainBody m s
  rw [decimalSpecialText, if_pos]
  rw [mayBeDecimalSpecial, dropWhile_plainText, unsigned_plainText, hbody, head?_cons,
    Option.any_some, isSpecialMark]
  simp only [decide_eq_false_iff_not, mem_cons, not_mem_nil, or_false]
  rintro (rfl | rfl | rfl | rfl) <;> simp at hhigh

theorem eq_of_resolves {r : ScaledDecimal} {v : Int128} (h : Resolves r (v.signed : ℚ)) :
    r.sat = 0 ∧ r.residual = 0 ∧ r.unscaled = v := by
  have horder := h v
  rw [sub_self, ScaledDecimal.order] at horder
  split_ifs at horder with hsat hcmp
  · simp_all
  · simp_all
  · refine ⟨not_not.mp hsat, by simpa using horder, signed_injective ?_⟩
    simp only [Engine.Batch.cmp, less_iff] at hcmp
    split_ifs at hcmp <;> omega

theorem signed_mul_pow {scale : Nat} (d : DecimalBox scale) :
    (if d.unscaled.isNegative then -(d.unscaled.signed.natAbs * 10 ^ (-(d.own : Int) + scale) : ℚ)
      else d.unscaled.signed.natAbs * 10 ^ (-(d.own : Int) + scale)) = d.carrier.signed := by
  have hsame : (d.unscaled.signed : ℚ) * 10 ^ scale = d.carrier.signed * 10 ^ d.own := by
    exact_mod_cast d.same
  have hscaled : (d.unscaled.signed : ℚ) * 10 ^ (-(d.own : Int) + scale) = d.carrier.signed := by
    rw [zpow_add₀ (by norm_num), zpow_neg, zpow_natCast, zpow_natCast, mul_left_comm, hsame]
    field_simp
  have hneg := d.unscaled.isNegative_iff_signed
  rw [← hscaled, Nat.cast_natAbs]
  split_ifs with h
  · rw [abs_of_neg (hneg.mp h), Int.cast_neg, neg_mul, neg_neg]
  · rw [abs_of_nonneg (not_lt.mp (mt hneg.mpr h))]

theorem parseDecimalStringChecked_format {scale : Nat} (d : DecimalBox scale) :
    parseDecimalStringChecked (formatDecimal d.unscaled d.own) scale = some d.carrier := by
  obtain ⟨k, hjoined⟩ := joined_digits d.own d.unscaled.signed.natAbs
  have hdigits := isDigits_of_all (l := replicate k 48 ++ decimalDigits d.unscaled.signed.natAbs)
    (by simp [all_isDigit_decimalDigits, isDigit])
  have hparts := decimalTextParts_plain d.unscaled.isNegative d.unscaled.signed.natAbs d.own
  rw [hjoined] at hparts
  obtain ⟨r, hr, hresolves⟩ := decimalTextAt_resolves hparts hdigits scale
  rw [worth, ofDigits_append, ofDigits_zeros, Nat.zero_mul, Nat.zero_add, ofDigits_decimalDigits,
    signed_mul_pow] at hresolves
  obtain ⟨hsat, hresidual, hvalue⟩ := eq_of_resolves hresolves
  rw [formatDecimal_eq, parseDecimalStringChecked, decimalSpecialText_plain, hr]
  simp [hsat, hresidual, hvalue]

theorem keyValueText_decimal (scale : Fin 39) (d : DecimalBox scale.val) :
    keyValueText cidrOrderKey (.decimal scale) d = appendDecimalKey d.carrier scale.val := by
  unfold keyValueText
  dsimp only
  rw [parseDecimalStringChecked_format, Option.map_some, Option.getD_some]

theorem boolText_injective {a b : Bool} (h : boolText a = boolText b) : a = b := by
  revert a b
  decide

theorem separates_text : (t : ColumnType) → Separates 0
    (fun v => t.isRaw → 0 ∉ keyValueText cidrOrderKey t v)
    (keyValueText cidrOrderKey t) (Same cidrOrderKey t)
  | .bool => fun a b _ _ rest rest' hrest hrest' heq => by
      have hclear : ∀ b, (0 : UInt8) ∉ boolText b := by decide
      obtain ⟨htext, hrests⟩ := text_split (hclear a) (hclear b) hrest hrest' heq
      exact ⟨boolText_injective htext, hrests⟩
  | .int _ => fun a b _ _ rest rest' hrest hrest' heq => by
      obtain ⟨htext, hrests⟩ := text_split (zero_not_mem_intText _) (zero_not_mem_intText _) hrest hrest' heq
      exact ⟨intText_injective htext, hrests⟩
  | .decimal scale => fun a b _ _ rest rest' _ _ heq => by
      erw [keyValueText_decimal scale a, keyValueText_decimal scale b] at heq
      have hscale : scale.val < 256 := by omega
      exact tells_decimalKey.tells false (a.carrier, scale.val) (b.carrier, scale.val) ⟨hscale, hscale⟩
        rest rest' nofun heq
  | .string => fun _ _ ha hb _ _ hrest hrest' heq =>
      text_split (ha rfl) (hb rfl) hrest hrest' heq
  | .cidr => fun _ _ ha hb _ _ hrest hrest' heq =>
      text_split (ha rfl) (hb rfl) hrest hrest' heq
  | .list elem => (codes_elems (codes_keyElem elem) (tagged_elem elem)).separates 0
  | .row fields => Codes.separates ((codes_keyFields fields).after (uvarint fields.length)) 0

theorem keyValueText_congr : (t : ColumnType) → {a b : t.Value} → Same cidrOrderKey t a b →
    keyValueText cidrOrderKey t a = keyValueText cidrOrderKey t b
  | .string, _, _, h | .cidr, _, _, h => h
  | .bool, _, _, h => congrArg boolText h
  | .int _, _, _, h => congrArg intText h
  | .decimal scale, a, b, h => (keyValueText_decimal scale a).trans
      ((tells_decimalKey.congr (a.carrier, scale.val) (b.carrier, scale.val) h).trans
        (keyValueText_decimal scale b).symm)
  | .list elem, a, b, h => (codes_elems (codes_keyElem elem) (tagged_elem elem)).congr a b h
  | .row fields, a, b, h => ((codes_keyFields fields).after (uvarint fields.length)).congr a b h

theorem keyValueText_eq_iff (t : ColumnType) {a b : t.Value} :
    keyValueText cidrOrderKey t a = keyValueText cidrOrderKey t b ↔ Same cidrOrderKey t a b := by
  refine ⟨fun h => ?_, keyValueText_congr t⟩
  by_cases hraw : t.isRaw
  · cases t <;> first | exact h | cases hraw
  · exact (separates_text t a b (absurd · hraw) (absurd · hraw) [] [] (.inl rfl) (.inl rfl) (by rw [h])).1

variable {ts : List ColumnType}

theorem sameRow_iff {a b : Row ts} :
    SameRow cidrOrderKey ts a b ↔ texts cidrOrderKey ts a = texts cidrOrderKey ts b := by
  induction ts with
  | nil => exact iff_of_true trivial rfl
  | cons t rest ih =>
    rw [SameRow, texts, texts, cons.injEq, ih]
    obtain ⟨_ | x, a⟩ := a <;> obtain ⟨_ | y, b⟩ := b
    · simp
    · simp
    · simp
    · simp [keyValueText_eq_iff]

instance (ts : List ColumnType) (a b : Row ts) : Decidable (SameRow cidrOrderKey ts a b) :=
  decidable_of_iff _ sameRow_iff.symm

theorem key_cons (t : ColumnType) (rest : List ColumnType) (r : Row (t :: rest)) :
    key cidrOrderKey (t :: rest) r =
      0 :: (flagged 78 118 (keyValueText cidrOrderKey t) r.1 ++ key cidrOrderKey rest r.2) := by
  obtain ⟨_ | v, r⟩ := r <;> rfl

theorem follows_key (ts : List ColumnType) (r : Row ts) : Follows 0 (key cidrOrderKey ts r) := by
  cases ts with
  | nil => exact .inl rfl
  | cons t rest => exact .inr ⟨_, key_cons t rest r⟩

theorem zero_not_mem_plain {t : ColumnType} (ht : t.isPlain) (v : t.Value) :
    0 ∉ keyValueText cidrOrderKey t v := by
  cases t with
  | bool => exact (by decide : ∀ b, (0 : UInt8) ∉ boolText b) v
  | int => exact zero_not_mem_intText _
  | decimal | string | cidr | list | row => cases ht

theorem count_zero_key (hplain : ts.all (·.isPlain)) (r : Row ts) :
    (key cidrOrderKey ts r).count 0 = ts.length := by
  induction ts with
  | nil => rfl
  | cons t rest ih =>
    obtain ⟨ht, hrest⟩ := Bool.and_eq_true_iff.mp (all_cons ▸ hplain)
    rw [key_cons, count_cons_self, count_append, ih hrest, length_cons]
    obtain ⟨_ | v, r⟩ := r
    · simp
    · simp [count_eq_zero.mpr (zero_not_mem_plain ht v)]

-- What one text has more than the other begins with a tag of the key.
theorem continues_of_key {a b : Row ts} {w : List UInt8} (hw : w ≠ [])
    (h : key cidrOrderKey ts a = w ++ key cidrOrderKey ts b) (x : List UInt8) :
    ¬ ts.all (·.isPlain) ∧ Continues ts x (x ++ w) := by
  cases ts with
  | nil => exact absurd (append_eq_nil_iff.mp h.symm).1 hw
  | cons t rest =>
    obtain ⟨c, w, rfl⟩ := exists_cons_of_ne_nil hw
    have hkey := h
    rw [key_cons, cons_append, cons.injEq] at hkey
    obtain ⟨rfl, hkey⟩ := hkey
    constructor
    · intro hplain
      have hcount := congrArg (count 0) h
      rw [count_append, count_cons_self, count_zero_key hplain, count_zero_key hplain] at hcount
      omega
    · cases w with
      | nil =>
        rw [nil_append, key_cons] at hkey
        obtain ⟨_ | v, a⟩ := a <;> simp at hkey
      | cons tag z =>
        refine ⟨tag, z, rfl, ?_⟩
        obtain ⟨_ | v, a⟩ := a
        · obtain ⟨rfl, hrest⟩ := cons.inj hkey
          refine .inr ⟨rfl, Nat.succ_lt_succ (length_pos_iff.mpr ?_)⟩
          rintro rfl
          rw [key_cons] at hrest
          simp [key, texts] at hrest
        · exact .inl (cons.inj hkey).1.symm

theorem sameRow_of_key {a b : Row ts} (hapart : Apart cidrOrderKey ts a b)
    (h : key cidrOrderKey ts a = key cidrOrderKey ts b) : SameRow cidrOrderKey ts a b := by
  induction ts with
  | nil => trivial
  | cons t rest ih =>
    rw [key_cons, key_cons] at h
    obtain ⟨_ | x, a⟩ := a <;> obtain ⟨_ | y, b⟩ := b
    · exact ⟨.none, ih hapart.2 (by simpa using h)⟩
    · simp at h
    · simp at h
    · have htexts : keyValueText cidrOrderKey t x ++ key cidrOrderKey rest a =
          keyValueText cidrOrderKey t y ++ key cidrOrderKey rest b := by simpa using h
      by_cases hraw : t.isRaw
      · -- a text that has more than the other takes it from the columns that follow
        obtain ⟨w, hy, hkey⟩ | ⟨w, hx, hkey⟩ := append_eq_append_iff.mp htexts
        · by_cases hw : w = []
          · subst hw
            rw [append_nil] at hy
            exact ⟨.some ((keyValueText_eq_iff t).mp hy.symm), ih hapart.2 hkey⟩
          · obtain ⟨hplain, hcontinues⟩ := continues_of_key hw hkey (keyValueText cidrOrderKey t x)
            exact absurd (hy ▸ hcontinues) (hapart.1 hraw hplain _ rfl _ rfl).1
        · by_cases hw : w = []
          · subst hw
            rw [append_nil] at hx
            exact ⟨.some ((keyValueText_eq_iff t).mp hx), ih hapart.2 hkey.symm⟩
          · obtain ⟨hplain, hcontinues⟩ := continues_of_key hw hkey (keyValueText cidrOrderKey t y)
            exact absurd (hx ▸ hcontinues) (hapart.1 hraw hplain _ rfl _ rfl).2
      · obtain ⟨hxy, hrest⟩ := separates_text t x y (absurd · hraw) (absurd · hraw)
          _ _ (follows_key rest a) (follows_key rest b) htexts
        exact ⟨.some hxy, ih hapart.2 hrest⟩

theorem sameRow_equivalence (ts : List ColumnType) : Equivalence (SameRow cidrOrderKey ts) := by
  refine ⟨fun r => ?_, fun h => ?_, fun h h' => ?_⟩ <;> rw [sameRow_iff] at *
  · exact h.symm
  · exact h.trans h'

theorem key_eq_of_same {r s : Row ts} (h : SameRow cidrOrderKey ts r s) :
    key cidrOrderKey ts r = key cidrOrderKey ts s := by
  rw [key, key, sameRow_iff.mp h]

def textRow (x b : List UInt8) : Row [.string, .string] :=
  (some x, some b, ())

theorem apart_textRow {x y : List UInt8} (h : ¬ Continues [.string] x y) (h' : ¬ Continues [.string] y x)
    (b b' : List UInt8) : Apart cidrOrderKey _ (textRow x b) (textRow y b') := by
  refine ⟨?_, fun _ hplain => absurd rfl hplain, trivial⟩
  intro _ _ u hu v hv
  obtain rfl : x = u := Option.some.inj hu
  obtain rfl : y = v := Option.some.inj hv
  exact ⟨h, h'⟩

theorem not_continues_self (rest : List ColumnType) (x : List UInt8) : ¬ Continues rest x x := by
  rintro ⟨tag, z, hx, -⟩
  have hlength := congrArg length hx
  rw [length_append, length_cons] at hlength
  omega

theorem key_textRow (x b : List UInt8) :
    key cidrOrderKey _ (textRow x b) = 0 :: 118 :: (x ++ 0 :: 118 :: b) := by
  change (0 :: 118 :: x) ++ ((0 :: 118 :: b) ++ []) = _
  rw [append_nil, cons_append, cons_append]

theorem key_continued {x y : List UInt8} (h : Continues [.string] x y) :
    ∃ b, key cidrOrderKey _ (textRow x b) = key cidrOrderKey _ (textRow y []) := by
  obtain ⟨tag, z, rfl, rfl | ⟨-, hlong⟩⟩ := h
  · exact ⟨z ++ [0, 118], by simp [key_textRow]⟩
  · cases Nat.lt_irrefl _ hlong

-- `0 v` in the middle of `x y z` is a tag of the key, or two bytes of a text.
def splitLate : Row [.string, .string] :=
  textRow [120] [121, 0, 118, 122]

def splitEarly : Row [.string, .string] :=
  textRow [120, 0, 118, 121] [122]

end Wadjet.Physical.SetOps
