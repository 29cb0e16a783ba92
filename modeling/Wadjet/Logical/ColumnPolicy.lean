import Wadjet.Sql.Refs
import Wadjet.Logical.Predicate

namespace Wadjet.Logical

open Wadjet.Sql

structure ColumnPolicy where
  column : String
  denied : Bool
  maskExpr : String
  deriving DecidableEq, Repr

namespace ColumnPolicy

def masks (p : ColumnPolicy) : Bool := !p.denied && p.maskExpr != ""

end ColumnPolicy

variable (U : Unicode)

def restrictedColumns (policies : List ColumnPolicy) : List String :=
  policies.map fun p => U.lower p.column

def isWordRune (c : Char) : Bool :=
  c = '_' || c.isDigit || (decide ('a' ≤ c) && decide (c ≤ 'z')) ||
    (decide ('A' ≤ c) && decide (c ≤ 'Z'))

def restrictedWord (restricted : List String) (word : List Char) : Option String :=
  if word.isEmpty || !restricted.contains (U.lower (String.ofList word)) then none
  else some (String.ofList word)

-- The loop of `textNamesRestricted`, with the word read so far and whether
-- the rune stands in a quoted literal.
def scanWords (restricted : List String) : List Char → List Char → Bool → Option String
  | [], word, _ => restrictedWord U restricted word
  | c :: cs, word, inLit =>
    if c = Char.ofNat 39 then
      (restrictedWord U restricted word).or (scanWords restricted cs [] !inLit)
    else if inLit then scanWords restricted cs word inLit
    else if isWordRune c then scanWords restricted cs (word ++ [c]) inLit
    else (restrictedWord U restricted word).or (scanWords restricted cs [] inLit)

def textNamesRestricted (text : String) (restricted : List String) : Option String :=
  scanWords U restricted text.toList [] false

-- A tree whose references cannot be read falls back to its text.
def nodeNamesRestricted (n : Node) (restricted : List String) : Option String :=
  match n.columnRefs with
  | none => textNamesRestricted U (n.text U) restricted
  | some refs => (refs.find? fun r => restricted.contains (U.lower r.2)).map (·.2)

variable (parse : String → Option Node)

def Predicate.expr (p : Predicate) : Option Node :=
  p.ast.or (if p.raw = "" then none else parse p.raw)

def predicateNamesRestricted (p : Predicate) (restricted : List String) : Option String :=
  match p.expr parse with
  | some n => nodeNamesRestricted U n restricted
  | none => if p.raw = "" then none else some p.raw

structure ScanPredicate extends Predicate where
  column : String := ""

def scanPredicateIsRestricted (p : ScanPredicate) (restricted : List String) : Bool :=
  (p.column != "" && restricted.contains (U.lower p.column)) ||
    (predicateNamesRestricted U parse p.toPredicate restricted).isSome

theorem refs_of_nodeNamesRestricted (n : Node) (restricted : List String)
    (h : nodeNamesRestricted U n restricted = none) (hplain : n.hasOpaque = false)
    (r : String × String) (hr : r ∈ n.refs) : U.lower r.2 ∉ restricted := by
  simp only [nodeNamesRestricted, Node.columnRefs, hplain, Bool.false_eq_true, if_false,
    Option.map_eq_none_iff, List.find?_eq_none] at h
  simpa using h r hr

end Wadjet.Logical
