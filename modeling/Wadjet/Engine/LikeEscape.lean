import Wadjet.Engine.Like

namespace Wadjet.Engine.LikePattern

open Wadjet.Data.Wildcard List Option

inductive EscapeError where
  | invalidEscape
  | trailingEscape
deriving DecidableEq

-- The escape is one byte. A pattern that ends with it raises only where the text
-- is not exhausted first.
def matchLikeEscRecur (hasEsc : Bool) (esc : UInt8) (pattern s : List UInt8) :
    Except EscapeError Bool :=
  match pattern with
  | [] => .ok s.isEmpty
  | c :: rest =>
    if hasEsc ∧ c = esc then
      match rest, s with
      | [], [] => .ok false
      | [], _ :: _ => .error .trailingEscape
      | _ :: _, [] => .ok false
      | d :: rest, b :: s => if b ≠ d then .ok false else matchLikeEscRecur hasEsc esc rest s
    else if c = percent then
      let later := rest.dropWhile (· == percent)
      if later = [] then .ok true else s.tails.anyM fun t => matchLikeEscRecur hasEsc esc later t
    else
      match switchByte c s with
      | none => .ok false
      | some s => matchLikeEscRecur hasEsc esc rest s
termination_by pattern.length
decreasing_by
  · simp only [length_cons]
    omega
  · have := (dropWhile_sublist (p := (· == percent)) (l := rest)).length_le
    simp only [length_cons]
    omega
  · simp

def matchLikeEscape (s pattern : List UInt8) (hasEsc : Bool) (esc : UInt8) :
    Except EscapeError Bool :=
  matchLikeEscRecur hasEsc esc pattern s

def byteTokens (hasEsc : Bool) (esc : UInt8) : List UInt8 → Option (List (Token UInt8)) :=
  readTokens (fun c => hasEsc && c == esc) token

def Fits (tokens : Option (List (Token UInt8))) (s : List UInt8) : Prop :=
  ∃ ts, tokens = some ts ∧ Matches ts s

section Fits

variable {tokens : Option (List (Token UInt8))} {s : List UInt8}

theorem fits_many_cons : Fits (tokens.map (.many :: ·)) s ↔ ∃ t, t <:+ s ∧ Fits tokens t := by
  cases tokens <;> simp [Fits, matches_many_cons]

theorem fits_lit_cons {a : UInt8} :
    Fits (tokens.map (.lit a :: ·)) s ↔ ∃ t, s = a :: t ∧ Fits tokens t := by
  cases tokens <;> simp [Fits, matches_lit_cons]

theorem fits_token_cons {c : UInt8} (hc : c ≠ percent) : Fits (tokens.map (token c :: ·)) s ↔
    ∃ d t, s = d :: t ∧ (c = underscore ∨ d = c) ∧ Fits tokens t := by
  cases tokens <;> simp [Fits, matches_token_cons hc]

end Fits

section Bytes

variable {hasEsc : Bool} {esc : UInt8} {rest : List UInt8}

theorem byteTokens_escape {c d : UInt8} (h : hasEsc ∧ c = esc) :
    byteTokens hasEsc esc (c :: d :: rest) = (byteTokens hasEsc esc rest).map (.lit d :: ·) :=
  readTokens_escape (by simp [h])

theorem byteTokens_plain {c : UInt8} (h : ¬ (hasEsc ∧ c = esc)) :
    byteTokens hasEsc esc (c :: rest) = (byteTokens hasEsc esc rest).map (token c :: ·) :=
  readTokens_plain (by simpa using h)

theorem byteTokens_dropWhile (h : ¬ (hasEsc ∧ percent = esc)) (rest : List UInt8) :
    ∃ k, byteTokens hasEsc esc rest = (byteTokens hasEsc esc (rest.dropWhile (· == percent))).map
      (replicate k .many ++ ·) := by
  induction rest with
  | nil => exact ⟨0, rfl⟩
  | cons c rest ih =>
    by_cases hc : c = percent
    · subst hc
      obtain ⟨k, hk⟩ := ih
      refine ⟨k + 1, ?_⟩
      rw [byteTokens_plain h, hk, Option.map_map]
      rfl
    · refine ⟨0, ?_⟩
      rw [dropWhile_cons_of_neg (by simpa using hc)]
      simp

theorem fits_percent (h : ¬ (hasEsc ∧ percent = esc)) (rest s : List UInt8) :
    Fits (byteTokens hasEsc esc (percent :: rest)) s ↔
      ∃ t, t <:+ s ∧ Fits (byteTokens hasEsc esc (rest.dropWhile (· == percent))) t := by
  obtain ⟨k, hk⟩ := byteTokens_dropWhile h rest
  rw [byteTokens_plain h, hk, ← fits_many_cons]
  clear hk
  cases byteTokens hasEsc esc (rest.dropWhile (· == percent)) with
  | none => simp [Fits]
  | some ts =>
    induction k with
    | zero => simp [Fits, token]
    | succ k ih =>
      refine Iff.trans ?_ ih
      simp only [Fits, map_some, some.injEq, exists_eq_left']
      exact matches_many_many

end Bytes

theorem anyM_cases {α ε : Type} (f : α → Except ε Bool) (l : List α) :
    (l.anyM f = .ok true ∧ ∃ a ∈ l, f a = .ok true) ∨
    (l.anyM f = .ok false ∧ ∀ a ∈ l, f a = .ok false) ∨
    ∃ e, l.anyM f = .error e ∧ ∃ a ∈ l, f a = .error e := by
  induction l with
  | nil => exact .inr (.inl ⟨rfl, nofun⟩)
  | cons a l ih =>
    rw [anyM_cons]
    simp only [exists_mem_cons_iff, forall_mem_cons]
    cases hfirst : f a with
    | error e => exact .inr (.inr ⟨e, rfl, .inl rfl⟩)
    | ok first =>
      cases first with
      | true => exact .inl ⟨rfl, .inl rfl⟩
      | false =>
        obtain ⟨hany, hsome⟩ | ⟨hany, hall⟩ | ⟨e, hany, hsome⟩ := ih
        · exact .inl ⟨hany, .inr hsome⟩
        · exact .inr (.inl ⟨hany, rfl, hall⟩)
        · exact .inr (.inr ⟨e, hany, .inr hsome⟩)

def Decides (hasEsc : Bool) (esc : UInt8) (pattern s : List UInt8) : Prop :=
  (∃ b, matchLikeEscRecur hasEsc esc pattern s = .ok b ∧
    (b ↔ Fits (byteTokens hasEsc esc pattern) s)) ∨
  matchLikeEscRecur hasEsc esc pattern s = .error .trailingEscape ∧
    byteTokens hasEsc esc pattern = none

section Decides

variable {hasEsc : Bool} {esc : UInt8} {rest s : List UInt8}

theorem Decides.fits_iff {pattern : List UInt8} (h : Decides hasEsc esc pattern s) {b : Bool}
    (hb : matchLikeEscRecur hasEsc esc pattern s = .ok b) :
    b ↔ Fits (byteTokens hasEsc esc pattern) s := by
  obtain ⟨b', hok, hfits⟩ | ⟨herror, -⟩ := h
  · cases hok.symm.trans hb
    exact hfits
  · cases herror.symm.trans hb

theorem Decides.tokens_eq_none {pattern : List UInt8} (h : Decides hasEsc esc pattern s)
    {e : EscapeError} (he : matchLikeEscRecur hasEsc esc pattern s = .error e) :
    e = .trailingEscape ∧ byteTokens hasEsc esc pattern = none := by
  obtain ⟨b, hok, -⟩ | ⟨herror, hnone⟩ := h
  · cases hok.symm.trans he
  · cases herror.symm.trans he
    exact ⟨rfl, hnone⟩

theorem decides_percent (hesc : ¬ (hasEsc ∧ percent = esc))
    (hlater : rest.dropWhile (· == percent) ≠ [])
    (ih : ∀ t, Decides hasEsc esc (rest.dropWhile (· == percent)) t) :
    Decides hasEsc esc (percent :: rest) s := by
  have hloop : matchLikeEscRecur hasEsc esc (percent :: rest) s = s.tails.anyM fun t =>
      matchLikeEscRecur hasEsc esc (rest.dropWhile (· == percent)) t := by
    rw [matchLikeEscRecur.eq_def]
    simp only [if_neg hesc, if_true, if_neg hlater]
  unfold Decides
  rw [hloop, fits_percent hesc]
  obtain ⟨hany, t, ht, htrue⟩ | ⟨hany, hall⟩ | ⟨e, hany, t, ht, herror⟩ := anyM_cases
    (fun t => matchLikeEscRecur hasEsc esc (rest.dropWhile (· == percent)) t) s.tails
  · have hsuffix := (mem_tails t s).mp ht
    exact .inl ⟨true, hany, iff_of_true rfl ⟨t, hsuffix, ((ih t).fits_iff htrue).mp rfl⟩⟩
  · refine .inl ⟨false, hany, iff_of_false Bool.false_ne_true ?_⟩
    rintro ⟨t, ht, hfits⟩
    have hfalse := hall t ((mem_tails t s).mpr ht)
    exact Bool.false_ne_true (((ih t).fits_iff hfalse).mpr hfits)
  · obtain ⟨rfl, hnone⟩ := (ih t).tokens_eq_none herror
    obtain ⟨k, hk⟩ := byteTokens_dropWhile hesc rest
    refine .inr ⟨hany, ?_⟩
    rw [byteTokens_plain hesc, hk, hnone]
    rfl

theorem decides_plain {c : UInt8} (hesc : ¬ (hasEsc ∧ c = esc)) (hc : c ≠ percent)
    (ih : ∀ t, switchByte c s = some t → Decides hasEsc esc rest t) :
    Decides hasEsc esc (c :: rest) s := by
  unfold Decides
  rw [byteTokens_plain hesc, fits_token_cons hc, matchLikeEscRecur.eq_def]
  simp only [if_neg hesc, if_neg hc]
  cases hread : switchByte c s with
  | none =>
    refine .inl ⟨false, rfl, iff_of_false Bool.false_ne_true ?_⟩
    rintro ⟨d, t, rfl, hd, -⟩
    rw [(reads_switchByte c (d :: t) t).mpr ⟨d, rfl, hd⟩] at hread
    cases hread
  | some t =>
    have hrest := ih t hread
    obtain ⟨d, rfl, hd⟩ := (reads_switchByte c s t).mp hread
    simpa [Decides, hd] using hrest

end Decides

theorem matchLikeEscRecur_decides (hasEsc : Bool) (esc : UInt8) (pattern s : List UInt8) :
    Decides hasEsc esc pattern s := by
  induction pattern, s using matchLikeEscRecur.induct hasEsc esc with
  | case1 s =>
    refine .inl ⟨_, matchLikeEscRecur.eq_def .., ?_⟩
    simp [byteTokens, readTokens, Fits, matches_nil]
  | case2 c hesc =>
    refine .inl ⟨false, ?_, ?_⟩
    · rw [matchLikeEscRecur, if_pos hesc]
    · simp [byteTokens, readTokens, hesc, Fits]
  | case3 c hesc =>
    refine .inr ⟨?_, ?_⟩
    · rw [matchLikeEscRecur, if_pos hesc]
    · simp [byteTokens, readTokens, hesc]
  | case4 c hesc d rest =>
    refine .inl ⟨false, ?_, ?_⟩
    · rw [matchLikeEscRecur, if_pos hesc]
    · simp [byteTokens_escape hesc, fits_lit_cons]
  | case5 c hesc d rest a s hne =>
    refine .inl ⟨false, ?_, ?_⟩
    · rw [matchLikeEscRecur, if_pos hesc]
      exact if_pos hne
    · simp [byteTokens_escape hesc, fits_lit_cons, hne]
  | case6 c hesc d rest a s heq ih =>
    obtain rfl := not_not.mp heq
    unfold Decides
    rw [matchLikeEscRecur, if_pos hesc, byteTokens_escape hesc]
    simpa [Decides, fits_lit_cons] using ih
  | case7 s rest later hempty =>
    rename_i hesc
    replace hempty : rest.dropWhile (· == percent) = [] := hempty
    refine .inl ⟨true, ?_, iff_of_true rfl ((fits_percent hesc rest s).mpr ?_)⟩
    · rw [matchLikeEscRecur.eq_def]
      simp [if_neg hesc, hempty]
    · rw [hempty]
      exact ⟨[], nil_suffix, [], rfl, matches_nil.mpr rfl⟩
  | case8 s rest later hlater hesc =>
    rename_i ih
    exact decides_percent hesc hlater ih
  | case9 s c rest hesc hc hnone => exact decides_plain hesc hc (by simp [hnone])
  | case10 s c rest hesc hc t hsome ih =>
    refine decides_plain hesc hc fun t' ht => ?_
    cases hsome.symm.trans ht
    exact ih

theorem byteTokens_unescaped (esc : UInt8) (pattern : List UInt8) :
    byteTokens false esc pattern = some (pattern.map token) := by
  induction pattern with
  | nil => rfl
  | cons c rest ih =>
    rw [byteTokens_plain (by simp), ih]
    rfl

theorem matchLikeEscape_plain (esc : UInt8) (pattern s : List UInt8) :
    ∃ b, matchLikeEscape s pattern false esc = .ok b ∧ (b ↔ Like pattern s) := by
  have hdecides := matchLikeEscRecur_decides false esc pattern s
  unfold Decides at hdecides
  rw [byteTokens_unescaped] at hdecides
  simpa [Fits, Like, matchLikeEscape] using hdecides

-- The five matchers of the engine have one language.
theorem like_matchers_agree (pattern s : List UInt8) (esc : UInt8) :
    (Kernel.compileLikePattern pattern s ↔ Like pattern s) ∧
    (Scan.compileLike pattern false s ↔ Like pattern s) ∧
    (Expr.matchLike s pattern ↔ Like pattern s) ∧
    (Exec.matchLike s pattern ↔ Like pattern s) ∧
    ∃ b, matchLikeEscape s pattern false esc = .ok b ∧ (b ↔ Like pattern s) :=
  ⟨Kernel.compileLikePattern_iff pattern s, Scan.compileLike_iff pattern s,
    likeLoop_iff reads_switchByte pattern s, likeLoop_iff reads_filterByte pattern s,
    matchLikeEscape_plain esc pattern s⟩

def utf8 (text : List Char) : List UInt8 :=
  text.flatMap String.utf8EncodeChar

-- NULL in any argument is NULL. The escape is the first byte of its character.
def fnLikeEscape (s pattern escape : Option (List Char)) : Except EscapeError (Option Bool) :=
  match s, pattern, escape with
  | some s, some pattern, some escape =>
    if 1 < escape.length then .error .invalidEscape
    else (matchLikeEscape (utf8 s) (utf8 pattern) (escape != []) ((utf8 escape).headD 0)).map some
  | _, _, _ => .ok none

def charToken (c : Char) : Token Char :=
  if c = '%' then .many else if c = '_' then .one else .lit c

def charTokens (escape : List Char) : List Char → Option (List (Token Char)) :=
  readTokens (fun c => escape.contains c) charToken

def spell : Token Char → List (Token UInt8)
  | .many => [.many]
  | .one => [.one]
  | .lit c => (String.utf8EncodeChar c).map .lit

def LikeEscape (s pattern escape : List Char) : Prop :=
  Fits ((charTokens escape pattern).map (·.flatMap spell)) (utf8 s)

def escapeText (escape : Char) (text : List Char) : List Char :=
  text.flatMap fun c => if c = '%' ∨ c = '_' ∨ c = escape then [escape, c] else [c]

theorem utf8_cons (c : Char) (rest : List Char) :
    utf8 (c :: rest) = String.utf8EncodeChar c ++ utf8 rest :=
  rfl

theorem utf8EncodeChar_cases (c : Char) :
    (c.val.toNat < 128 ∧ String.utf8EncodeChar c = [UInt8.ofNat c.val.toNat]) ∨
    ∃ a b rest, String.utf8EncodeChar c = a :: b :: rest ∧ ∀ x ∈ a :: b :: rest, 128 ≤ x.toNat := by
  unfold String.utf8EncodeChar
  dsimp only
  split_ifs with h1 h2 h3
  · exact .inl ⟨by omega, rfl⟩
  all_goals
    simp
    omega

variable {c : Char}

theorem ascii_byte_inj {d : Char} (hc : c.val.toNat < 128) (hd : d.val.toNat < 128) :
    UInt8.ofNat c.val.toNat = UInt8.ofNat d.val.toNat ↔ c = d := by
  constructor
  · intro h
    have hval := congrArg UInt8.toNat h
    rw [UInt8.toNat_ofNat', UInt8.toNat_ofNat', Nat.mod_eq_of_lt (by omega),
      Nat.mod_eq_of_lt (by omega)] at hval
    exact Char.ext (UInt32.toNat_inj.mp hval)
  · rintro rfl
    rfl

section Reading

variable {escape : List Char} (hchars : escape.length ≤ 1) (hbytes : (utf8 escape).length ≤ 1)
include hchars hbytes

theorem escape_cases : escape = [] ∨ ∃ a : Char, escape = [a] ∧ a.val.toNat < 128 ∧
    (utf8 escape).headD 0 = UInt8.ofNat a.val.toNat := by
  match escape with
  | [] => exact .inl rfl
  | [a] =>
    rw [utf8, flatMap_singleton] at hbytes ⊢
    obtain ⟨hlow, hone⟩ | ⟨x, y, rest, hmany, -⟩ := utf8EncodeChar_cases a
    · exact .inr ⟨a, rfl, hlow, by rw [hone]; rfl⟩
    · rw [hmany] at hbytes
      simp at hbytes

theorem not_escape_of_high {x : UInt8} (hx : 128 ≤ x.toNat) :
    ¬ ((escape != []) ∧ x = (utf8 escape).headD 0) := by
  obtain rfl | ⟨a, rfl, hlow, hhead⟩ := escape_cases hchars hbytes
  · simp
  · rw [hhead]
    rintro ⟨-, rfl⟩
    rw [UInt8.toNat_ofNat'] at hx
    omega

theorem escape_byte_iff (hc : c.val.toNat < 128) :
    ((escape != []) ∧ UInt8.ofNat c.val.toNat = (utf8 escape).headD 0) ↔
      escape.contains c := by
  obtain rfl | ⟨a, rfl, hlow, hhead⟩ := escape_cases hchars hbytes
  · simp
  · rw [hhead, ascii_byte_inj hc hlow]
    simp

theorem byteTokens_high {q : List UInt8} (hq : ∀ x ∈ q, 128 ≤ x.toNat) (r : List UInt8) :
    byteTokens (escape != []) ((utf8 escape).headD 0) (q ++ r) =
      (byteTokens (escape != []) ((utf8 escape).headD 0) r).map (q.map .lit ++ ·) := by
  induction q with
  | nil => simp
  | cons x q ih =>
    rw [forall_mem_cons] at hq
    have hplain : token x = .lit x := by
      apply token_plain <;> rintro rfl <;> exact absurd hq.1 (by decide)
    rw [cons_append, byteTokens_plain (not_escape_of_high hchars hbytes hq.1), ih hq.2, hplain]
    simp [Function.comp_def]

theorem byteTokens_char (hc : escape.contains c = false) (r : List UInt8) :
    byteTokens (escape != []) ((utf8 escape).headD 0) (String.utf8EncodeChar c ++ r) =
      (byteTokens (escape != []) ((utf8 escape).headD 0) r).map (spell (charToken c) ++ ·) := by
  obtain ⟨hlow, hone⟩ | ⟨x, y, rest, hmany, hhigh⟩ := utf8EncodeChar_cases c
  · have hplain := (escape_byte_iff hchars hbytes hlow).not.mpr (Bool.eq_false_iff.mp hc)
    have hspell : spell (charToken c) = [token (UInt8.ofNat c.val.toNat)] := by
      have hpercent := @ascii_byte_inj c '%' hlow (by decide)
      have hunderscore := @ascii_byte_inj c '_' hlow (by decide)
      by_cases hp : c = '%'
      · subst hp
        rfl
      by_cases hu : c = '_'
      · subst hu
        rfl
      · rw [token_plain (hpercent.not.mpr hp) (hunderscore.not.mpr hu), charToken, if_neg hp,
          if_neg hu, spell, hone]
        rfl
    rw [hone, singleton_append, byteTokens_plain hplain, hspell]
    rfl
  · have hlit : charToken c = .lit c := by
      have hne : ∀ d : Char, (String.utf8EncodeChar d).length = 1 → c ≠ d := by
        rintro d hd rfl
        rw [hmany] at hd
        simp at hd
      rw [charToken, if_neg (hne _ (by decide)), if_neg (hne _ (by decide))]
    rw [hmany, byteTokens_high hchars hbytes hhigh, hlit, spell, hmany]

theorem encode_escape (hc : escape.contains c) :
    ∃ x, String.utf8EncodeChar c = [x] ∧ (escape != []) ∧ x = (utf8 escape).headD 0 := by
  obtain rfl | ⟨a, rfl, hlow, hhead⟩ := escape_cases hchars hbytes
  · cases hc
  · obtain rfl : c = a := by simpa using hc
    obtain ⟨-, hone⟩ | ⟨x, y, rest, hmany, -⟩ := utf8EncodeChar_cases c
    · exact ⟨_, hone, rfl, hhead.symm⟩
    · simp [utf8, hmany] at hbytes

theorem byteTokens_utf8 (p : List Char) :
    byteTokens (escape != []) ((utf8 escape).headD 0) (utf8 p) =
      (charTokens escape p).map (·.flatMap spell) := by
  have hplain : ∀ {c : Char} {rest : List Char}, escape.contains c = false →
      byteTokens (escape != []) ((utf8 escape).headD 0) (utf8 rest) =
        (charTokens escape rest).map (·.flatMap spell) →
      byteTokens (escape != []) ((utf8 escape).headD 0) (utf8 (c :: rest)) =
        (charTokens escape (c :: rest)).map (·.flatMap spell) := by
    intro c rest hc ih
    rw [utf8_cons, byteTokens_char hchars hbytes hc, ih, charTokens,
      readTokens_plain hc, Option.map_map, Option.map_map]
    rfl
  induction p using readTokens.induct (fun c => escape.contains c) with
  | case1 => rfl
  | case2 c hc =>
    obtain ⟨x, hone, hesc⟩ := encode_escape hchars hbytes hc
    rw [utf8_cons, hone, charTokens, readTokens, if_pos hc]
    exact if_pos (by simpa using hesc)
  | case3 c hc => exact hplain (Bool.eq_false_iff.mpr hc) rfl
  | case4 c d rest hc ih =>
    obtain ⟨x, hone, hesc⟩ := encode_escape hchars hbytes hc
    obtain ⟨y, ys, hd, hhigh⟩ : ∃ y ys, String.utf8EncodeChar d = y :: ys ∧
        ∀ z ∈ ys, 128 ≤ z.toNat := by
      obtain ⟨-, hd⟩ | ⟨y, z, zs, hd, hhigh⟩ := utf8EncodeChar_cases d
      · exact ⟨_, [], hd, forall_mem_nil _⟩
      · exact ⟨y, z :: zs, hd, fun w hw => hhigh w (mem_cons_of_mem y hw)⟩
    rw [utf8_cons, utf8_cons, hone, hd, singleton_append, cons_append,
      byteTokens_escape hesc, byteTokens_high hchars hbytes hhigh, ih, charTokens,
      readTokens_escape hc]
    simp only [Option.map_map]
    congr 1
    funext ts
    simp [spell, hd]
  | case5 c d rest hc ih => exact hplain (Bool.eq_false_iff.mpr hc) ih

theorem fnLikeEscape_decides (s p : List Char) :
    (∃ b, fnLikeEscape (some s) (some p) (some escape) = .ok (some b) ∧
      (b ↔ LikeEscape s p escape)) ∨
    fnLikeEscape (some s) (some p) (some escape) = .error .trailingEscape ∧
      charTokens escape p = none := by
  have hdecides := matchLikeEscRecur_decides (escape != []) ((utf8 escape).headD 0) (utf8 p) (utf8 s)
  unfold Decides at hdecides
  rw [byteTokens_utf8 hchars hbytes] at hdecides
  simp only [fnLikeEscape, if_neg (not_lt.mpr hchars), matchLikeEscape]
  obtain ⟨b, hok, hfits⟩ | ⟨herror, hnone⟩ := hdecides
  · exact .inl ⟨b, by rw [hok]; rfl, hfits⟩
  · exact .inr ⟨by rw [herror]; rfl, map_eq_none_iff.mp hnone⟩

end Reading

theorem utf8_inj {s t : List Char} : utf8 s = utf8 t ↔ s = t := by
  refine ⟨fun h => ?_, congrArg utf8⟩
  have hencode : s.utf8Encode = t.utf8Encode := congrArg toByteArray h
  have hdecode := congrArg ByteArray.utf8Decode? hencode
  rw [utf8Decode?_utf8Encode, utf8Decode?_utf8Encode] at hdecode
  exact toArray_inj (some.inj hdecode)

theorem charTokens_escapeText (a : Char) (t : List Char) :
    charTokens [a] (escapeText a t) = some (t.map .lit) := by
  unfold charTokens
  induction t with
  | nil => rfl
  | cons c t ih =>
    rw [escapeText, flatMap_cons, ← escapeText]
    split_ifs with hc
    · rw [cons_append, singleton_append, readTokens_escape (by simp), ih]
      rfl
    · rw [not_or, not_or] at hc
      rw [singleton_append, readTokens_plain (by simpa using hc.2.2), ih, charToken,
        if_neg hc.1, if_neg hc.2.1]
      rfl

theorem likeEscape_escapeText (a : Char) (s t : List Char) :
    LikeEscape s (escapeText a t) [a] ↔ s = t := by
  have hspell : (t.map Token.lit).flatMap spell = (utf8 t).map .lit := by
    rw [flatMap_map, utf8, map_flatMap]
    rfl
  rw [LikeEscape, charTokens_escapeText, map_some, hspell, ← utf8_inj]
  simp [Fits, matches_lits]

def EscapesByCharacter (escape : List Char) : Prop :=
  (∀ s p b, fnLikeEscape (some s) (some p) (some escape) = .ok (some b) →
    (b ↔ LikeEscape s p escape)) ∧
  ∀ a, escape = [a] → ∀ s t, ∃ b,
    fnLikeEscape (some s) (some (escapeText a t)) (some escape) = .ok (some b) ∧ (b ↔ s = t)

theorem fnLikeEscape_percent {a : Char} (ha : 1 < (String.utf8EncodeChar a).length) :
    fnLikeEscape (some ['%']) (some [a, '%']) (some [a]) = .ok (some false) := by
  obtain ⟨-, hone⟩ | ⟨x, y, rest, hmany, hhigh⟩ := utf8EncodeChar_cases a
  · rw [hone] at ha
    simp at ha
  have hne : percent ≠ y := by
    rintro rfl
    exact absurd (hhigh percent (by simp)) (by decide)
  have hpattern : utf8 [a, '%'] = x :: y :: (rest ++ [percent]) := by
    rw [utf8_cons, hmany]
    rfl
  have hescape : utf8 [a] = x :: y :: rest := by
    rw [utf8_cons, hmany]
    exact append_nil _
  have htext : utf8 ['%'] = [percent] := rfl
  rw [fnLikeEscape, if_neg (by simp), matchLikeEscape, hpattern, hescape, htext,
    matchLikeEscRecur, if_pos ⟨rfl, rfl⟩]
  simp only [if_pos hne]
  rfl

theorem escapesByCharacter_iff {escape : List Char} (hchars : escape.length ≤ 1) :
    EscapesByCharacter escape ↔ (utf8 escape).length ≤ 1 := by
  constructor
  · intro h
    by_contra hlong
    match escape with
    | [] => exact hlong (Nat.zero_le 1)
    | [a] =>
      have hbytes : utf8 [a] = String.utf8EncodeChar a := append_nil _
      rw [hbytes, not_le] at hlong
      have hfalse := (h.1 _ _ _ (fnLikeEscape_percent hlong)).mpr
        ((likeEscape_escapeText a ['%'] ['%']).mpr rfl)
      cases hfalse
  · intro hbytes
    constructor
    · intro s p b hb
      obtain ⟨b', hok, hfits⟩ | ⟨herror, -⟩ := fnLikeEscape_decides hchars hbytes s p
      · cases hok.symm.trans hb
        exact hfits
      · cases herror.symm.trans hb
    · rintro a rfl s t
      obtain ⟨b, hok, hfits⟩ | ⟨-, hnone⟩ :=
        fnLikeEscape_decides hchars hbytes s (escapeText a t)
      · exact ⟨b, hok, hfits.trans (likeEscape_escapeText a s t)⟩
      · rw [charTokens_escapeText] at hnone
        cases hnone

theorem escapesByCharacter_bang : EscapesByCharacter ['!'] :=
  (escapesByCharacter_iff (by decide)).mpr (by decide)

-- A euro sign before a percent sign does not make it a literal.
theorem euro_escape_lost :
    fnLikeEscape (some ['%']) (some ['€', '%']) (some ['€']) = .ok (some false) ∧
      LikeEscape ['%'] ['€', '%'] ['€'] :=
  ⟨fnLikeEscape_percent (by decide), (likeEscape_escapeText '€' ['%'] ['%']).mpr rfl⟩

end Wadjet.Engine.LikePattern
