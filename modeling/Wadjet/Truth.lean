import Mathlib.Data.List.Basic

namespace Wadjet

inductive Truth where
  | false
  | unknown
  | true
  deriving DecidableEq, Repr

namespace Truth

def ofBool : Bool → Truth
  | .true => .true
  | .false => .false

def and : Truth → Truth → Truth
  | .false, _ => .false
  | _, .false => .false
  | .true, .true => .true
  | _, _ => .unknown

def or : Truth → Truth → Truth
  | .true, _ => .true
  | _, .true => .true
  | .false, .false => .false
  | _, _ => .unknown

def not : Truth → Truth
  | .true => .false
  | .false => .true
  | .unknown => .unknown

def notIf (negate : Bool) (t : Truth) : Truth := if negate then t.not else t

@[simp] theorem ofBool_eq_true (b : Bool) : ofBool b = .true ↔ b = .true := by
  cases b <;> simp [ofBool]

@[simp] theorem and_eq_true (a b : Truth) : a.and b = .true ↔ a = .true ∧ b = .true := by
  cases a <;> cases b <;> simp [and]

@[simp] theorem or_eq_true (a b : Truth) : a.or b = .true ↔ a = .true ∨ b = .true := by
  cases a <;> cases b <;> simp [or]

@[simp] theorem not_eq_true (a : Truth) : a.not = .true ↔ a = .false := by
  cases a <;> simp [not]

@[simp] theorem and_eq_false (a b : Truth) : a.and b = .false ↔ a = .false ∨ b = .false := by
  cases a <;> cases b <;> simp [and]

@[simp] theorem notIf_unknown (negate : Bool) : notIf negate .unknown = .unknown := by
  cases negate <;> rfl

variable (ts : List Truth)

def any : Truth := ts.foldr or .false

def all : Truth := ts.foldr and .true

@[simp] theorem any_nil : any [] = .false := rfl

@[simp] theorem any_cons (t : Truth) (ts : List Truth) : any (t :: ts) = t.or (any ts) := rfl

@[simp] theorem all_nil : all [] = .true := rfl

@[simp] theorem all_cons (t : Truth) (ts : List Truth) : all (t :: ts) = t.and (all ts) := rfl

theorem any_eq_true : any ts = .true ↔ .true ∈ ts := by
  induction ts with
  | nil => simp
  | cons t ts ih => simp only [any_cons, or_eq_true, ih, List.mem_cons, @eq_comm _ Truth.true t]

end Truth

end Wadjet
