import Mathlib.Data.List.Forall2
import Mathlib.Tactic.Ring

namespace Wadjet.Data

open List

section Codes

variable {α β : Type} {alike : Bool → α → α → Prop} {code : α → List β} {same : α → α → Prop}

-- Codes that tell values apart, whatever follows them. `alike` is what two values must have
-- in common for that; it knows whether they are the last.
structure Tells (alike : Bool → α → α → Prop) (code : α → List β) (same : α → α → Prop) : Prop where
  tells : ∀ last a b, alike last a b → ∀ rest rest', (last → rest = [] ∧ rest' = []) →
    code a ++ rest = code b ++ rest' → same a b ∧ rest = rest'
  congr : ∀ a b, same a b → code a = code b

abbrev Codes (code : α → List β) (same : α → α → Prop) : Prop :=
  Tells (fun _ _ _ => True) code same

def optional (null : List β) (code : α → List β) : Option α → List β
  | none => null
  | some a => code a

def flagged (null present : β) (code : α → List β) : Option α → List β :=
  optional [null] fun a => present :: code a

@[simp] theorem flagged_none {null present : β} : flagged null present code none = [null] := rfl

@[simp] theorem flagged_some {null present : β} {a : α} :
    flagged null present code (some a) = present :: code a := rfl

def AlikeAll (alike : Bool → α → α → Prop) (last : Bool) : List α → List α → Prop
  | a :: l, b :: l' => alike (last && l.isEmpty) a b ∧ AlikeAll alike last l l'
  | _, _ => True

theorem alikeAll_of_forall (h : ∀ last a b, alike last a b) (last : Bool) (l l' : List α) :
    AlikeAll alike last l l' := by
  induction l generalizing l' with
  | nil => trivial
  | cons a l ih =>
    cases l' with
    | nil => trivial
    | cons b l' => exact ⟨h _ a b, ih l'⟩

theorem forall₂_flatMap {l l' : List α} (hcode : ∀ a b, same a b → code a = code b)
    (h : List.Forall₂ same l l') : l.flatMap code = l'.flatMap code := by
  induction h with
  | nil => rfl
  | cons hab _ ih => rw [flatMap_cons, flatMap_cons, hcode _ _ hab, ih]

namespace Tells

variable (h : Tells alike code same)

include h

theorem mono {alike' : Bool → α → α → Prop} (halike : ∀ last a b, alike' last a b → alike last a b) :
    Tells alike' code same :=
  ⟨fun last a b hab => h.tells last a b (halike last a b hab), h.congr⟩

theorem iff {same' : α → α → Prop} (hsame : ∀ {a b}, same' a b ↔ same a b) : Tells alike code same' where
  tells last a b hab rest rest' hlast heq :=
    (h.tells last a b hab rest rest' hlast heq).imp_left hsame.mpr
  congr a b hab := h.congr a b (hsame.mp hab)

theorem comap {γ : Type} (f : γ → α) : Tells (fun last c d => alike last (f c) (f d))
    (fun c => code (f c)) fun c d => same (f c) (f d) :=
  ⟨fun last _ _ => h.tells last _ _, fun _ _ => h.congr _ _⟩

theorem after (word : List β) : Tells alike (fun a => word ++ code a) same := by
  refine ⟨fun last a b hab rest rest' hlast heq => ?_, fun a b hab => congrArg _ (h.congr a b hab)⟩
  rw [append_assoc, append_assoc] at heq
  exact h.tells last a b hab rest rest' hlast (append_cancel_left heq)

theorem optional {null : List β} (hnull : ∀ a rest rest', null ++ rest ≠ code a ++ rest') :
    Tells (fun last o o' => ∀ a ∈ o, ∀ b ∈ o', alike last a b) (optional null code)
      (Option.Rel same) := by
  constructor
  · rintro last (_ | a) (_ | b) hab rest rest' hlast heq
    · exact ⟨.none, append_cancel_left heq⟩
    · exact absurd heq (hnull b rest rest')
    · exact absurd heq.symm (hnull a rest' rest)
    · obtain ⟨hsame, hrest⟩ := h.tells last a b (hab a rfl b rfl) _ _ hlast heq
      exact ⟨.some hsame, hrest⟩
  · rintro _ _ (hab | -)
    · exact h.congr _ _ hab
    · rfl

theorem flagged {null present : β} (hne : null ≠ present) :
    Tells (fun last o o' => ∀ a ∈ o, ∀ b ∈ o', alike last a b) (flagged null present code)
      (Option.Rel same) :=
  (h.after [present]).optional fun _ _ _ heq => hne (cons.inj heq).1

theorem append {γ : Type} {alike' : Bool → γ → γ → Prop} {code' : γ → List β} {same' : γ → γ → Prop}
    (h' : Tells alike' code' same') {ends : Bool} (hends : ends → ∀ c, code' c = []) :
    Tells (fun last p q => alike (last && ends) p.1 q.1 ∧ alike' last p.2 q.2)
      (fun p : α × γ => code p.1 ++ code' p.2) (fun p q => same p.1 q.1 ∧ same' p.2 q.2) := by
  refine ⟨?_, fun _ _ hab => congrArg₂ _ (h.congr _ _ hab.1) (h'.congr _ _ hab.2)⟩
  rintro last ⟨a, c⟩ ⟨b, d⟩ ⟨hab, hcd⟩ rest rest' hlast heq
  rw [append_assoc, append_assoc] at heq
  obtain ⟨hsame, heq⟩ := h.tells _ a b hab _ _ (fun hend => by
    obtain ⟨hend, hnil⟩ := Bool.and_eq_true_iff.mp hend
    simp [hends hnil, hlast hend]) heq
  obtain ⟨hsame', hrest⟩ := h'.tells last c d hcd _ _ hlast heq
  exact ⟨⟨hsame, hsame'⟩, hrest⟩

theorem flatMap {last : Bool} {l l' : List α} (hl : AlikeAll alike last l l')
    (hlength : l.length = l'.length) {rest rest' : List β} (hlast : last → rest = [] ∧ rest' = [])
    (heq : l.flatMap code ++ rest = l'.flatMap code ++ rest') :
    List.Forall₂ same l l' ∧ rest = rest' := by
  induction l generalizing l' with
  | nil =>
    obtain rfl := length_eq_zero_iff.mp hlength.symm
    exact ⟨.nil, heq⟩
  | cons a l ih =>
    cases l' with
    | nil => cases hlength
    | cons b l' =>
      rw [flatMap_cons, flatMap_cons, append_assoc, append_assoc] at heq
      have hlength := Nat.succ.inj hlength
      obtain ⟨hab, heq⟩ := h.tells _ a b hl.1 _ _ (fun hend => by
        obtain ⟨hclosed, hnil⟩ := Bool.and_eq_true_iff.mp hend
        obtain rfl := isEmpty_iff.mp hnil
        obtain rfl := length_eq_zero_iff.mp hlength.symm
        exact hlast hclosed) heq
      obtain ⟨htail, hrest⟩ := ih hl.2 hlength heq
      exact ⟨.cons hab htail, hrest⟩

theorem counted {small : Nat → Nat → Prop} {header : Nat → List β}
    (hheader : ∀ m n, small m n → ∀ rest rest', header m ++ rest = header n ++ rest' →
      m = n ∧ rest = rest') :
    Tells (fun last l l' => small l.length l'.length ∧ AlikeAll alike last l l')
      (fun l => header l.length ++ l.flatMap code) (List.Forall₂ same) := by
  constructor
  · rintro last l l' ⟨hsmall, hl⟩ rest rest' hlast heq
    rw [append_assoc, append_assoc] at heq
    obtain ⟨hlength, heq⟩ := hheader _ _ hsmall _ _ heq
    exact h.flatMap hl hlength hlast heq
  · intro l l' hl
    rw [hl.length_eq, forall₂_flatMap h.congr hl]

end Tells

namespace Codes

theorem of_read (h : ∀ a b rest rest', code a ++ rest = code b ++ rest' → same a b ∧ rest = rest')
    (hcongr : ∀ a b, same a b → code a = code b) : Codes code same :=
  ⟨fun _ a b _ rest rest' _ => h a b rest rest', hcongr⟩

theorem of_length {n : Nat} (hlength : ∀ a, (code a).length = n)
    (hsame : ∀ a b, code a = code b ↔ same a b) : Codes code same := by
  refine of_read (fun a b rest rest' heq => ?_) fun a b => (hsame a b).mpr
  obtain ⟨hcode, hrest⟩ := append_inj heq ((hlength a).trans (hlength b).symm)
  exact ⟨(hsame a b).mp hcode, hrest⟩

section

variable (h : Codes code same)

include h

theorem read {a b : α} {rest rest' : List β} (heq : code a ++ rest = code b ++ rest') :
    same a b ∧ rest = rest' :=
  h.tells false a b trivial rest rest' nofun heq

theorem eq_iff {a b : α} : code a = code b ↔ same a b :=
  ⟨fun heq => (h.read (congrArg (· ++ []) heq)).1, h.congr a b⟩

theorem optional {null : List β} (hnull : ∀ a rest rest', null ++ rest ≠ code a ++ rest') :
    Codes (optional null code) (Option.Rel same) :=
  (Tells.optional h hnull).mono fun _ _ _ _ _ _ _ _ => trivial

theorem append {γ : Type} {code' : γ → List β} {same' : γ → γ → Prop} (h' : Codes code' same') :
    Codes (fun p : α × γ => code p.1 ++ code' p.2) (fun p q => same p.1 q.1 ∧ same' p.2 q.2) :=
  (Tells.append h h' (nofun : false → _)).mono fun _ _ _ _ => ⟨trivial, trivial⟩

end

variable {header : Nat → List β} (hheader : Codes header Eq)

include hheader

theorem counted (h : Codes code same) :
    Codes (fun l => header l.length ++ l.flatMap code) (List.Forall₂ same) :=
  (Tells.counted h fun _ _ (_ : True) _ _ => hheader.read).mono
    fun last l l' _ => ⟨trivial, alikeAll_of_forall (fun _ _ _ => trivial) last l l'⟩

theorem raw : Codes (fun l : List β => header l.length ++ l) Eq := by
  refine of_read (fun l l' rest rest' heq => ?_) fun l l' hl => by rw [hl]
  rw [append_assoc, append_assoc] at heq
  obtain ⟨hlength, heq⟩ := hheader.read heq
  exact append_inj heq hlength

end Codes

variable {ok : α → Prop}

def Follows (sep : β) (rest : List β) : Prop :=
  rest = [] ∨ ∃ l, rest = sep :: l

def Separates (sep : β) (ok : α → Prop) (code : α → List β) (same : α → α → Prop) : Prop :=
  ∀ a b, ok a → ok b → ∀ rest rest', Follows sep rest → Follows sep rest' →
    code a ++ rest = code b ++ rest' → same a b ∧ rest = rest'

theorem Codes.separates (h : Codes code same) (sep : β) : Separates sep ok code same :=
  fun _ _ _ _ _ _ _ _ => h.read

end Codes

def littleEndian : Nat → Nat → List UInt8
  | 0, _ => []
  | n + 1, x => UInt8.ofNat x :: littleEndian n (x / 256)

theorem length_littleEndian (n x : Nat) : (littleEndian n x).length = n := by
  induction n generalizing x with
  | zero => rfl
  | succ n ih => rw [littleEndian, length_cons, ih]

theorem littleEndian_eq_iff {n x y : Nat} :
    littleEndian n x = littleEndian n y ↔ x % 256 ^ n = y % 256 ^ n := by
  induction n generalizing x y with
  | zero => simp [littleEndian, Nat.mod_one]
  | succ n ih =>
    have hlow : UInt8.ofNat x = UInt8.ofNat y ↔ x % 256 = y % 256 := by
      rw [← UInt8.toNat_inj, UInt8.toNat_ofNat', UInt8.toNat_ofNat']
    rw [littleEndian, littleEndian, cons.injEq, hlow, ih, Nat.pow_succ', Nat.mod_mul, Nat.mod_mul]
    omega

theorem littleEndian_injective {n x y : Nat} (hx : x < 256 ^ n) (hy : y < 256 ^ n)
    (h : littleEndian n x = littleEndian n y) : x = y := by
  simpa only [Nat.mod_eq_of_lt hx, Nat.mod_eq_of_lt hy] using littleEndian_eq_iff.mp h

-- Two lengths that have the same `n` low bytes are one.
def SameCut (n x y : Nat) : Prop :=
  x % 256 ^ n = y % 256 ^ n → x = y

theorem SameCut.header {n x y : Nat} (h : SameCut n x y) (rest rest' : List UInt8)
    (heq : littleEndian n x ++ rest = littleEndian n y ++ rest') : x = y ∧ rest = rest' := by
  obtain ⟨hcode, hrest⟩ := append_inj heq (by rw [length_littleEndian, length_littleEndian])
  exact ⟨h (littleEndian_eq_iff.mp hcode), hrest⟩

theorem codes_word {w n : Nat} (hw : 2 ^ w = 256 ^ n) :
    Codes (fun x : BitVec w => littleEndian n x.toNat) Eq := by
  refine .of_length (fun x => length_littleEndian n x.toNat) fun a b => ?_
  rw [littleEndian_eq_iff, ← hw, Nat.mod_eq_of_lt a.isLt, Nat.mod_eq_of_lt b.isLt, BitVec.toNat_inj]

def ofLittleEndian : List UInt8 → Nat
  | [] => 0
  | b :: l => b.toNat + 256 * ofLittleEndian l

theorem ofLittleEndian_append (l l' : List UInt8) :
    ofLittleEndian (l ++ l') = ofLittleEndian l + 256 ^ l.length * ofLittleEndian l' := by
  induction l with
  | nil => simp [ofLittleEndian]
  | cons b l ih =>
    rw [cons_append, ofLittleEndian, ofLittleEndian, ih, length_cons]
    ring

theorem ofLittleEndian_take (l : List UInt8) (n : Nat) :
    ofLittleEndian (l.take n) = ofLittleEndian l % 256 ^ n := by
  induction n generalizing l with
  | zero => simp [ofLittleEndian, Nat.mod_one]
  | succ n ih =>
    cases l with
    | nil => simp [ofLittleEndian]
    | cons b l =>
      have hb := b.toNat_lt
      have hdiv : (b.toNat + 256 * ofLittleEndian l) / 256 = ofLittleEndian l := by omega
      rw [take_succ_cons, ofLittleEndian, ofLittleEndian, ih, Nat.pow_succ', Nat.mod_mul, hdiv]
      omega

theorem ofLittleEndian_drop (l : List UInt8) (n : Nat) :
    ofLittleEndian (l.drop n) = ofLittleEndian l / 256 ^ n := by
  induction n generalizing l with
  | zero => simp
  | succ n ih =>
    cases l with
    | nil => simp [ofLittleEndian]
    | cons b l =>
      have hb := b.toNat_lt
      rw [drop_succ_cons, ih, ofLittleEndian, Nat.pow_succ', ← Nat.div_div_eq_div_mul]
      congr 1
      omega

theorem ofLittleEndian_littleEndian (n x : Nat) :
    ofLittleEndian (littleEndian n x) = x % 256 ^ n := by
  induction n generalizing x with
  | zero => simp [littleEndian, ofLittleEndian, Nat.mod_one]
  | succ n ih =>
    have hbyte : (UInt8.ofNat x).toNat = x % 256 := UInt8.toNat_ofNat'
    rw [littleEndian, ofLittleEndian, hbyte, ih, Nat.pow_succ', Nat.mod_mul]

theorem ofNat_ofLittleEndian {w n : Nat} (hw : 2 ^ w = 256 ^ n) (v : BitVec w) :
    BitVec.ofNat w (ofLittleEndian (littleEndian n v.toNat)) = v := by
  rw [ofLittleEndian_littleEndian, ← hw, Nat.mod_eq_of_lt v.isLt, BitVec.ofNat_toNat,
    BitVec.setWidth_eq]

def bigEndian (n x : Nat) : List UInt8 :=
  (littleEndian n x).reverse

def ofBytes (l : List UInt8) : Nat :=
  ofLittleEndian l.reverse

theorem ofBytes_append (l l' : List UInt8) :
    ofBytes (l ++ l') = ofBytes l * 256 ^ l'.length + ofBytes l' := by
  rw [ofBytes, reverse_append, ofLittleEndian_append, length_reverse, Nat.add_comm, Nat.mul_comm]
  rfl

theorem ofBytes_bigEndian {n x : Nat} (hx : x < 256 ^ n) : ofBytes (bigEndian n x) = x := by
  rw [ofBytes, bigEndian, reverse_reverse, ofLittleEndian_littleEndian, Nat.mod_eq_of_lt hx]

theorem ofBytes_dropWhile (l : List UInt8) : ofBytes (l.dropWhile (· == 0)) = ofBytes l := by
  induction l with
  | nil => rfl
  | cons b l ih =>
    by_cases hb : b = 0
    · subst hb
      rw [dropWhile_cons_of_pos (by decide), ih, ← singleton_append, ofBytes_append]
      simp [ofBytes, ofLittleEndian]
    · rw [dropWhile_cons_of_neg (by simpa using hb)]

-- Seven bits a byte, lowest first, with the high bit on all bytes but the last.
def uvarint (n : Nat) : List UInt8 :=
  if n < 128 then [UInt8.ofNat n] else UInt8.ofNat (n % 128 + 128) :: uvarint (n / 128)
termination_by n
decreasing_by omega

theorem codes_uvarint : Codes uvarint Eq := by
  refine .of_read ?_ fun _ _ => congrArg uvarint
  have hbyte : ∀ {m n : Nat}, m < 256 → n < 256 → UInt8.ofNat m = UInt8.ofNat n → m = n := by
    intro m n hm hn heq
    have := congrArg UInt8.toNat heq
    rwa [UInt8.toNat_ofNat', UInt8.toNat_ofNat', Nat.mod_eq_of_lt hm, Nat.mod_eq_of_lt hn] at this
  intro m
  induction m using Nat.strong_induction_on with
  | _ m ih =>
    intro n rest rest' heq
    rw [uvarint, uvarint.eq_1 n] at heq
    split_ifs at heq <;> rw [cons_append, cons_append, cons.injEq] at heq <;>
      have hlow := hbyte (by omega) (by omega) heq.1
    · exact ⟨hlow, heq.2⟩
    · omega
    · omega
    · obtain ⟨hhigh, hrest⟩ := ih (m / 128) (by omega) (n / 128) rest rest' heq.2
      exact ⟨by omega, hrest⟩

end Wadjet.Data
