import Mathlib.Data.UInt
import Wadjet.Data.Wildcard

namespace Wadjet.Engine.LikePattern

open Wadjet.Data.Wildcard List

def percent : UInt8 :=
  37

def underscore : UInt8 :=
  95

-- One byte of a pattern that is no percent sign against the text, in the order of
-- tests of the switch in the kernel, the scan and the expression evaluator.
def switchByte (c : UInt8) (s : List UInt8) : Option (List UInt8) :=
  if c = underscore then
    match s with
    | [] => none
    | _ :: s => some s
  else
    match s with
    | [] => none
    | d :: s => if d ≠ c then none else some s

def filterByte (c : UInt8) : List UInt8 → Option (List UInt8)
  | [] => none
  | d :: s => if c = underscore ∨ c = d then some s else none

-- The loop that the matchers share: runs of percent signs are skipped, and the
-- rest of the pattern is tried at every later place of the text.
def likeLoop (byte : UInt8 → List UInt8 → Option (List UInt8)) (pattern s : List UInt8) : Bool :=
  match pattern with
  | [] => s.isEmpty
  | c :: rest =>
    if c = percent then
      let later := rest.dropWhile (· == percent)
      if later = [] then true else s.tails.any fun t => likeLoop byte later t
    else
      match byte c s with
      | none => false
      | some s => likeLoop byte rest s
termination_by pattern.length
decreasing_by
  · have := (dropWhile_sublist (p := (· == percent)) (l := rest)).length_le
    simp only [length_cons]
    omega
  · simp

namespace Kernel

def matchLike (s pattern : List UInt8) : Bool :=
  likeLoop switchByte pattern s

def compileLikePattern (pattern s : List UInt8) : Bool :=
  let hasLeadingWild := pattern.head? == some percent
  let hasTrailingWild := pattern.getLast? == some percent
  let unled := if hasLeadingWild then pattern.tail else pattern
  let inner := if hasTrailingWild && !unled.isEmpty then unled.dropLast else unled
  if inner.any fun c => c == percent || c == underscore then matchLike s pattern
  else
    match hasLeadingWild, hasTrailingWild with
    | true, true => decide (inner.length ≤ s.length) && decide (inner <:+: s)
    | true, false =>
      decide (inner.length ≤ s.length) && s.drop (s.length - inner.length) == inner
    | false, true => decide (inner.length ≤ s.length) && s.take inner.length == inner
    | false, false => s == inner

end Kernel

namespace Scan

def likeMatchBytes (s pattern : List UInt8) : Bool :=
  likeLoop switchByte pattern s

def compileLike (pattern : List UInt8) (negate : Bool) (s : List UInt8) : Bool :=
  let hasUnderscore := pattern.contains underscore
  let base :=
    if !hasUnderscore && !pattern.contains percent then s == pattern
    else if !hasUnderscore && 2 ≤ pattern.length && pattern.head? == some percent &&
        pattern.getLast? == some percent && !pattern.tail.dropLast.contains percent then
      decide (pattern.tail.dropLast <:+: s)
    else if !hasUnderscore && 1 ≤ pattern.length && pattern.getLast? == some percent &&
        !pattern.dropLast.contains percent then
      decide (pattern.dropLast <+: s)
    else if !hasUnderscore && 1 ≤ pattern.length && pattern.head? == some percent &&
        !pattern.tail.contains percent then
      decide (pattern.tail <:+ s)
    else likeMatchBytes s pattern
  if negate then !base else base

end Scan

def Expr.matchLike (s pattern : List UInt8) : Bool :=
  likeLoop switchByte pattern s

def Exec.matchLike (s pattern : List UInt8) : Bool :=
  likeLoop filterByte pattern s

def token (c : UInt8) : Token UInt8 :=
  if c = percent then .many else if c = underscore then .one else .lit c

def Like (pattern s : List UInt8) : Prop :=
  Matches (pattern.map token) s

theorem token_plain {c : UInt8} (hpercent : c ≠ percent) (hunderscore : c ≠ underscore) :
    token c = .lit c := by
  rw [token, if_neg hpercent, if_neg hunderscore]

theorem map_token_plain {q : List UInt8} (hpercent : percent ∉ q) (hunderscore : underscore ∉ q) :
    q.map token = q.map .lit := by
  apply map_congr_left
  intro c hc
  exact token_plain (ne_of_mem_of_not_mem hc hpercent) (ne_of_mem_of_not_mem hc hunderscore)

theorem matches_token_cons {c : UInt8} (hc : c ≠ percent) {p : List (Token UInt8)}
    {s : List UInt8} :
    Matches (token c :: p) s ↔ ∃ d t, s = d :: t ∧ (c = underscore ∨ d = c) ∧ Matches p t := by
  by_cases hany : c = underscore
  · simp [token, hany, show underscore ≠ percent by decide, matches_one_cons]
  · simp [token_plain hc hany, matches_lit_cons, hany]

theorem like_percent_dropWhile (p s : List UInt8) :
    Like (percent :: p.dropWhile (· == percent)) s ↔ Like (percent :: p) s := by
  induction p with
  | nil => rfl
  | cons c p ih =>
    by_cases hc : c = percent
    · subst hc
      rw [dropWhile_cons_of_pos (by simp), ih]
      exact matches_many_many.symm
    · rw [dropWhile_cons_of_neg (by simpa using hc)]

def Reads (byte : UInt8 → List UInt8 → Option (List UInt8)) : Prop :=
  ∀ c s t, byte c s = some t ↔ ∃ d, s = d :: t ∧ (c = underscore ∨ d = c)

theorem reads_switchByte : Reads switchByte := by
  intro c s t
  unfold switchByte
  by_cases hany : c = underscore <;> cases s <;> simp [hany]

theorem reads_filterByte : Reads filterByte := by
  intro c s t
  cases s <;> simp [filterByte, eq_comm, and_comm]

theorem likeLoop_iff {byte : UInt8 → List UInt8 → Option (List UInt8)} (hbyte : Reads byte)
    (pattern s : List UInt8) : likeLoop byte pattern s ↔ Like pattern s := by
  induction pattern, s using likeLoop.induct byte with
  | case1 s => rw [likeLoop, Like, map_nil, matches_nil, List.isEmpty_iff]
  | case2 s rest later hempty =>
    rw [likeLoop, ← like_percent_dropWhile]
    simp only [if_pos, show rest.dropWhile (· == percent) = [] from hempty]
    exact iff_of_true trivial matches_many
  | case3 s rest later hlater ih =>
    have hsome : rest.dropWhile (· == percent) ≠ [] := hlater
    rw [likeLoop, ← like_percent_dropWhile]
    simp only [if_pos, if_neg hsome, any_eq_true, mem_tails]
    refine Iff.trans ?_ matches_many_cons.symm
    exact exists_congr fun t => and_congr_right fun _ => ih t
  | case4 s c rest hc hnone =>
    rw [likeLoop, if_neg hc, hnone, Like, map_cons, matches_token_cons hc]
    refine iff_of_false Bool.false_ne_true ?_
    rintro ⟨d, t, rfl, hd, -⟩
    rw [(hbyte c (d :: t) t).mpr ⟨d, rfl, hd⟩] at hnone
    cases hnone
  | case5 s c rest hc t hsome ih =>
    obtain ⟨d, rfl, hd⟩ := (hbyte c s t).mp hsome
    rw [likeLoop, if_neg hc, hsome, Like, map_cons, matches_token_cons hc]
    refine ih.trans ⟨fun h => ⟨d, t, rfl, hd, h⟩, ?_⟩
    rintro ⟨_, _, heq, -, h⟩
    obtain ⟨-, rfl⟩ := cons.inj heq
    exact h

section Shapes

variable {pattern s : List UInt8}

theorem eq_cons_of_head? (h : pattern.head? = some percent) : pattern = percent :: pattern.tail :=
  (cons_head?_tail h).symm

theorem eq_append_of_getLast? (h : pattern.getLast? = some percent) :
    pattern = pattern.dropLast ++ [percent] :=
  (dropLast_append_getLast? _ h).symm

variable {q : List UInt8} (hpercent : percent ∉ q) (hunderscore : underscore ∉ q)
include hpercent hunderscore

theorem like_literal_iff : Like q s ↔ s = q := by
  rw [Like, map_token_plain hpercent hunderscore, matches_lits]

theorem like_leading_iff (hlast : pattern.getLast? = some percent) (hq : pattern.dropLast = q) :
    Like pattern s ↔ q <+: s := by
  rw [eq_append_of_getLast? hlast, hq, Like, map_append,
    map_token_plain hpercent hunderscore]
  exact matches_leading

theorem like_trailing_iff (hhead : pattern.head? = some percent) (hq : pattern.tail = q) :
    Like pattern s ↔ q <:+ s := by
  rw [eq_cons_of_head? hhead, hq, Like, map_cons, map_token_plain hpercent hunderscore]
  exact matches_trailing

theorem like_within_iff (hhead : pattern.head? = some percent)
    (hlast : pattern.getLast? = some percent) (hq : pattern.tail.dropLast = q) :
    Like pattern s ↔ q <:+: s := by
  rw [eq_cons_of_head? hhead] at hlast ⊢
  by_cases hrest : pattern.tail = []
  · rw [hrest] at hq ⊢
    subst hq
    exact iff_of_true matches_many nil_infix
  · rw [getLast?_cons_of_ne_nil hrest] at hlast
    rw [eq_append_of_getLast? hlast, hq, Like, map_cons, map_append,
      map_token_plain hpercent hunderscore]
    exact matches_within

end Shapes

theorem Kernel.compileLikePattern_iff (pattern s : List UInt8) :
    Kernel.compileLikePattern pattern s ↔ Like pattern s := by
  have hloop : Kernel.matchLike s pattern ↔ Like pattern s :=
    likeLoop_iff reads_switchByte pattern s
  have hplain : ∀ {q : List UInt8}, ¬ (q.any fun c => c == percent || c == underscore) →
      percent ∉ q ∧ underscore ∉ q := by
    intro q hq
    simp only [any_eq_true, Bool.or_eq_true, not_exists, not_and, not_or] at hq
    exact ⟨fun hmem => (hq _ hmem).1 rfl, fun hmem => (hq _ hmem).2 rfl⟩
  have hdrop : ∀ q : List UInt8, (if (true && !q.isEmpty) then q.dropLast else q) =
      q.dropLast := by
    intro q
    cases q <;> rfl
  unfold Kernel.compileLikePattern
  cases hlead : pattern.head? == some percent <;> cases htrail : pattern.getLast? == some percent
  all_goals
    simp only [if_true, Bool.false_eq_true, if_false, Bool.false_and, hdrop]
    split_ifs with hwild
    · exact hloop
    obtain ⟨hpercent, hunderscore⟩ := hplain hwild
  · rw [beq_iff_eq, like_literal_iff hpercent hunderscore]
  · rw [beq_iff_eq] at htrail
    rw [like_leading_iff hpercent hunderscore htrail rfl, Bool.and_eq_true, decide_eq_true_eq,
      beq_iff_eq, eq_comm, ← prefix_iff_eq_take]
    exact and_iff_right_of_imp List.IsPrefix.length_le
  · rw [beq_iff_eq] at hlead
    rw [like_trailing_iff hpercent hunderscore hlead rfl, Bool.and_eq_true, decide_eq_true_eq,
      beq_iff_eq, eq_comm, ← suffix_iff_eq_drop]
    exact and_iff_right_of_imp List.IsSuffix.length_le
  · rw [beq_iff_eq] at hlead htrail
    rw [like_within_iff hpercent hunderscore hlead htrail rfl, Bool.and_eq_true,
      decide_eq_true_eq, decide_eq_true_eq]
    exact and_iff_right_of_imp List.IsInfix.length_le

theorem Scan.compileLike_iff (pattern s : List UInt8) :
    Scan.compileLike pattern false s ↔ Like pattern s := by
  have hpart : ∀ {q : List UInt8}, q <:+: pattern → underscore ∉ pattern → underscore ∉ q :=
    fun hq hnot hmem => hnot (hq.subset hmem)
  unfold Scan.compileLike
  simp only [Bool.false_eq_true, if_false]
  split_ifs with hliteral hwithin hleading htrailing <;>
    simp only [Bool.and_eq_true, Bool.not_eq_true', contains_eq_mem, decide_eq_false_iff_not,
      beq_iff_eq, decide_eq_true_eq] at *
  · rw [like_literal_iff hliteral.2 hliteral.1]
  · obtain ⟨⟨⟨⟨hunderscore, -⟩, hhead⟩, hlast⟩, hmiddle⟩ := hwithin
    have hinside : pattern.tail.dropLast <:+: pattern :=
      ( dropLast_prefix _).isInfix.trans (tail_suffix _).isInfix
    rw [like_within_iff hmiddle (hpart hinside hunderscore) hhead hlast rfl]
  · obtain ⟨⟨⟨hunderscore, -⟩, hlast⟩, hmiddle⟩ := hleading
    have hinside := ( dropLast_prefix pattern).isInfix
    rw [like_leading_iff hmiddle (hpart hinside hunderscore) hlast rfl]
  · obtain ⟨⟨⟨hunderscore, -⟩, hhead⟩, hmiddle⟩ := htrailing
    have hinside := (tail_suffix pattern).isInfix
    rw [like_trailing_iff hmiddle (hpart hinside hunderscore) hhead rfl]
  · exact likeLoop_iff reads_switchByte pattern s

end Wadjet.Engine.LikePattern
