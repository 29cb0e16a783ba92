import Wadjet.Sql.Eval
import Wadjet.Sql.Text

namespace Wadjet.Logical

open Wadjet.Sql

-- A conjunct of a filter. `ast` is `none` for a predicate that carries only
-- its source text.
structure Predicate where
  ast : Option Node
  raw : String
  fromPolicy : Bool := false
  deriving Repr

namespace Predicate

def ofNode (U : Unicode) (n : Node) : Predicate := ⟨some n, n.text U, false⟩

def truth {V : Type} (I : Interp V) (ρ : Row V) (p : Predicate) : Truth :=
  match p.ast with
  | some n => n.truth I ρ
  | none => .unknown

@[simp] theorem truth_ofNode {V : Type} (I : Interp V) (ρ : Row V) (U : Unicode) (n : Node) :
    (ofNode U n).truth I ρ = n.truth I ρ := rfl

end Predicate

def flattenORNodes : Node → List Node
  | .or l r => flattenORNodes l ++ flattenORNodes r
  | .paren (.or l r) => flattenORNodes l ++ flattenORNodes r
  | n => [n]

def flattenANDNodes : Node → List Node
  | .and l r => flattenANDNodes l ++ flattenANDNodes r
  | .paren (.and l r) => flattenANDNodes l ++ flattenANDNodes r
  | n => [n]

-- Right-associative trees over a list that is not empty.
def buildANDTree (first : Node) : List Node → Node
  | [] => first
  | n :: ns => .and first (buildANDTree n ns)

def buildORTree (first : Node) : List Node → Node
  | [] => first
  | n :: ns => .or first (buildORTree n ns)

theorem flattenANDNodes_ne_nil (n : Node) : flattenANDNodes n ≠ [] := by
  fun_induction flattenANDNodes n with
  | case1 l r ihl ihr => simp [ihl]
  | case2 l r ihl ihr => simp [ihl]
  | case3 n h₁ h₂ => simp

theorem flattenORNodes_ne_nil (n : Node) : flattenORNodes n ≠ [] := by
  fun_induction flattenORNodes n with
  | case1 l r ihl ihr => simp [ihl]
  | case2 l r ihl ihr => simp [ihl]
  | case3 n h₁ h₂ => simp

variable {V : Type} (I : Interp V) (ρ : Row V)

def AllTrue (terms : List Node) : Prop := ∀ t ∈ terms, t.truth I ρ = .true

@[simp] theorem allTrue_nil : AllTrue I ρ [] := by simp [AllTrue]

@[simp] theorem allTrue_cons (t : Node) (ts : List Node) :
    AllTrue I ρ (t :: ts) ↔ t.truth I ρ = .true ∧ AllTrue I ρ ts := by
  simp [AllTrue]

@[simp] theorem allTrue_append (ss ts : List Node) :
    AllTrue I ρ (ss ++ ts) ↔ AllTrue I ρ ss ∧ AllTrue I ρ ts := by
  simp [AllTrue, or_imp, forall_and]

theorem truth_eq_true_iff_flattenAND (n : Node) :
    n.truth I ρ = .true ↔ AllTrue I ρ (flattenANDNodes n) := by
  fun_induction flattenANDNodes n with
  | case1 l r ihl ihr => simp [ihl, ihr]
  | case2 l r ihl ihr => simp [ihl, ihr]
  | case3 n h₁ h₂ => simp

theorem truth_eq_true_iff_flattenOR (n : Node) :
    n.truth I ρ = .true ↔ ∃ b ∈ flattenORNodes n, b.truth I ρ = .true := by
  fun_induction flattenORNodes n with
  | case1 l r ihl ihr => simp [ihl, ihr, or_and_right, exists_or]
  | case2 l r ihl ihr => simp [ihl, ihr, or_and_right, exists_or]
  | case3 n h₁ h₂ => simp

theorem truth_buildANDTree (first : Node) (ns : List Node) :
    (buildANDTree first ns).truth I ρ = .true ↔ AllTrue I ρ (first :: ns) := by
  induction ns generalizing first with
  | nil => simp [buildANDTree]
  | cons n ns ih => simp [buildANDTree, ih]

theorem truth_buildORTree (first : Node) (ns : List Node) :
    (buildORTree first ns).truth I ρ = .true ↔ ∃ b ∈ first :: ns, b.truth I ρ = .true := by
  induction ns generalizing first with
  | nil => simp [buildORTree]
  | cons n ns ih =>
    rw [buildORTree, Node.truth_or, Truth.or_eq_true, ih]
    simp

end Wadjet.Logical
