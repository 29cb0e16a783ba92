import Wadjet.Auth.DmlPolicy.Expressions
import Wadjet.Data.Results
import Wadjet.Logical.PlanPolicy.Theorems

namespace Wadjet.Auth.DmlPolicy

open Wadjet.Data Wadjet.Sql Wadjet.Logical List
open Wadjet.Logical.PlanPolicy (World Record Database Policies visible)

section Statements

variable {V : Type} {W : World V} (P : Policies W)

-- An identity that may read and write every table, and the obligations the
-- policies put on it.
structure Grants (A : Provider) : Prop where
  enabled : A.enabled
  bound : A.bindError = none
  identity : A.hasIdentity
  evaluator : A.hasEvaluator
  access : ∀ table action, A.tableAccess table action = none
  policies : ∀ table, A.columnPolicies table = .ok (P.columns (W.unicode.lower table))

def Statement.folded (A : Provider) (stmt : Statement) : String :=
  W.unicode.lower (A.resolveTableName (dmlTarget stmt).1)

def Statement.relation (A : Provider) (stmt : Statement) : String :=
  relationName (A.resolveTableName (dmlTarget stmt).1) (dmlTarget stmt).2

def Statement.exprs : Statement → List Node
  | .delete _ _ condition => condition.toList
  | .update _ _ sets condition => condition.toList ++ sets.map (·.value)
  | _ => []

theorem enforceDMLPolicies_cases (A : Provider) (hgrants : Grants P A) (stmt out : Statement)
    (htarget : (dmlTarget stmt).1 ≠ "")
    (h : enforceDMLPolicies W.unicode W.parse A stmt = .ok out) :
    (P.columns (stmt.folded (W := W) A) = [] ∧ out = stmt) ∨
    rewriteStatement W.unicode W.parse (A.resolveTableName (dmlTarget stmt).1) (stmt.relation A)
      (P.columns (stmt.folded (W := W) A)) stmt = .ok out := by
  simp only [enforceDMLPolicies, hgrants.enabled, hgrants.bound, hgrants.identity, htarget,
    hgrants.access, hgrants.evaluator, hgrants.policies, Bool.not_true, Bool.false_eq_true,
    if_false] at h
  split at h
  · cases h
  next hnil =>
    exact Or.inl ⟨Except.ok.inj hnil, (Except.ok.inj h).symm⟩
  next policies hne hcols =>
    obtain rfl := Except.ok.inj hcols
    exact Or.inr h

section Rewritten

variable (t table relation : String)

theorem rewriteCondition_visible (c c' : Option Node) (hread : ∀ n ∈ c, Readable P t relation n)
    (h : rewriteCondition W.unicode W.parse table relation (P.columns t) c = .ok c') :
    ∀ n ∈ c', W.ReadsVisible (P.restricted t) n := by
  cases c with
  | none =>
    obtain rfl := Except.ok.inj h
    exact fun n hn => nomatch hn
  | some n =>
    obtain ⟨out, hexpr, rfl⟩ := except_map_ok h
    intro m hm
    obtain rfl := Option.some.inj hm
    exact rewriteExpr_visible P t table relation n out (hread n rfl) hexpr

theorem rewriteSets_visible (sets sets' : List SetClause)
    (hread : ∀ s ∈ sets, Readable P t relation s.value)
    (h : rewriteSets W.unicode W.parse table relation (P.columns t) sets = .ok sets') :
    ∀ s ∈ sets', W.ReadsVisible (P.restricted t) s.value := by
  induction sets generalizing sets' with
  | nil =>
    obtain rfl := Except.ok.inj h
    exact fun s hs => nomatch hs
  | cons s rest ih =>
    obtain ⟨_, -, h⟩ := except_bind_ok h
    obtain ⟨value, hexpr, h⟩ := except_bind_ok h
    obtain ⟨rest', hrest, h⟩ := except_bind_ok h
    obtain rfl := Except.ok.inj h
    intro x hx
    rcases mem_cons.mp hx with rfl | hx
    · exact rewriteExpr_visible P t table relation s.value value (hread s mem_cons_self) hexpr
    · exact ih rest' (fun s hs => hread s (mem_cons_of_mem _ hs)) hrest x hx

theorem rewriteStatement_visible (stmt out : Statement)
    (hread : ∀ n ∈ stmt.exprs, Readable P t relation n)
    (h : rewriteStatement W.unicode W.parse table relation (P.columns t) stmt = .ok out) :
    ∀ n ∈ out.exprs, W.ReadsVisible (P.restricted t) n := by
  cases stmt with
  | delete name asName c =>
    obtain ⟨c', hc, h⟩ := except_bind_ok h
    obtain rfl := Except.ok.inj h
    intro n hn
    exact rewriteCondition_visible P t table relation c c'
      (fun m hm => hread m (by simpa [Statement.exprs] using hm)) hc n (by simpa [Statement.exprs] using hn)
  | update name asName sets c =>
    obtain ⟨c', hc, h⟩ := except_bind_ok h
    obtain ⟨sets', hs, h⟩ := except_bind_ok h
    obtain rfl := Except.ok.inj h
    intro n hn
    simp only [Statement.exprs, mem_append, Option.mem_toList, mem_map] at hn hread
    rcases hn with hn | ⟨s, hmem, rfl⟩
    · exact rewriteCondition_visible P t table relation c c' (fun m hm => hread m (Or.inl hm)) hc n hn
    · exact rewriteSets_visible P t table relation sets sets'
        (fun s hs => hread s.value (Or.inr ⟨s, hs, rfl⟩)) hs s hmem
  | insert name columns =>
    simp only [rewriteStatement] at h
    split at h
    · cases h
    · obtain rfl := Except.ok.inj h
      exact fun n hn => nomatch hn
  | merge target asName => cases h

end Rewritten

theorem same_of_readsVisible (restricted : List String) (out : Statement)
    (hvisible : ∀ n ∈ out.exprs, W.ReadsVisible restricted n) (db : Database V) (r r' : Record V)
    (hsame : visible restricted r = visible restricted r') :
    out.selects W db r = out.selects W db r' ∧ out.assigned W db r = out.assigned W db r' := by
  have htruth : ∀ n ∈ out.exprs, n.truth (W.engine db) (W.row r) = n.truth (W.engine db) (W.row r') := by
    intro n hn
    rw [(hvisible n hn).truth W db db r, hsame, ← (hvisible n hn).truth W db db r']
  have heval : ∀ n ∈ out.exprs, n.eval (W.engine db) (W.row r) = n.eval (W.engine db) (W.row r') := by
    intro n hn
    rw [(hvisible n hn).eval W db db r, hsame, ← (hvisible n hn).eval W db db r']
  cases out with
  | delete name asName c =>
    refine ⟨?_, rfl⟩
    cases c with
    | none => rfl
    | some n => simp [Statement.selects, htruth n (by simp [Statement.exprs])]
  | update name asName sets c =>
    refine ⟨?_, ?_⟩
    · cases c with
      | none => rfl
      | some n => simp [Statement.selects, htruth n (by simp [Statement.exprs])]
    · refine map_congr_left fun s hs => ?_
      rw [heval s.value (by simp only [Statement.exprs, mem_append, mem_map]; exact Or.inr ⟨s, hs, rfl⟩)]
  | insert name columns => exact ⟨rfl, rfl⟩
  | merge target asName => exact ⟨rfl, rfl⟩

section Selected

variable (t table relation : String) (db : Database V) (r : Record V)

def Statement.condition : Statement → Option Node
  | .delete _ _ condition | .update _ _ _ condition => condition
  | _ => none

theorem rewriteCondition_selects (c c' : Option Node) (hdirect : ∀ n ∈ c, Direct P t relation n)
    (h : rewriteCondition W.unicode W.parse table relation (P.columns t) c = .ok c') :
    (c'.all fun n => n.truth (W.engine db) (W.row r) = .true) =
      c.all fun n => n.truth (W.engine db) (W.row (shown P t db r)) = .true := by
  cases c with
  | none =>
    obtain rfl := Except.ok.inj h
    rfl
  | some n =>
    obtain ⟨out, hexpr, rfl⟩ := except_map_ok h
    simp only [Option.all_some, truth_rewriteExpr P t db r table relation n out (hdirect n rfl) hexpr]

theorem rewriteStatement_selects (stmt out : Statement) (hdirect : ∀ n ∈ stmt.condition, Direct P t relation n)
    (h : rewriteStatement W.unicode W.parse table relation (P.columns t) stmt = .ok out) :
    out.selects W db r = stmt.selects W db (shown P t db r) := by
  cases stmt with
  | delete name asName c =>
    obtain ⟨c', hc, h⟩ := except_bind_ok h
    obtain rfl := Except.ok.inj h
    exact rewriteCondition_selects P t table relation db r c c' hdirect hc
  | update name asName sets c =>
    obtain ⟨c', hc, h⟩ := except_bind_ok h
    obtain ⟨sets', hs, h⟩ := except_bind_ok h
    obtain rfl := Except.ok.inj h
    exact rewriteCondition_selects P t table relation db r c c' hdirect hc
  | insert name columns =>
    simp only [rewriteStatement] at h
    split at h
    · cases h
    · obtain rfl := Except.ok.inj h
      rfl
  | merge target asName => cases h

end Selected

end Statements

open Wadjet.Logical.PlanPolicy (officeWorld officePolicies member visible_member noRows departmentX)

def officeProvider (P : Policies officeWorld) : Provider where
  enabled := true
  bindError := none
  hasIdentity := true
  hasEvaluator := true
  tableAccess _ _ := none
  columnPolicies table := .ok (P.columns (Unicode.ascii.lower table))
  resolveTableName table := table

theorem grants_office (P : Policies officeWorld) : Grants P (officeProvider P) where
  enabled := rfl
  bound := rfl
  identity := rfl
  evaluator := rfl
  access _ _ := rfl
  policies _ := rfl

def fieldRef : Node := .colRef "addr" "city"

def masked (literal : String) : Node := .cmp (.colRef "e" "ssn") .eq (.lit literal .string)

def maskedOut (literal : String) : Node :=
  .cmp (.paren (.lit "***" .string)) .eq (.lit literal .string)

def numbered (ssn : String) : Record String := fun c => if c = "ssn" then some ssn else member "x" "Rome" c

theorem visible_numbered (ssn ssn' : String) : visible (officePolicies.restricted "emp") (numbered ssn) =
    visible (officePolicies.restricted "emp") (numbered ssn') := by
  have hrestricted : "ssn" ∈ officePolicies.restricted "emp" := by decide
  funext c
  by_cases hc : c = "ssn"
  · simp [visible, hc, hrestricted]
  · simp [visible, numbered, hc]

theorem readable_masked (literal : String) : Readable officePolicies "emp" "e" (masked literal) := by
  have hrefs : (masked literal).refs = [("e", "ssn")] := rfl
  have hnodes : (masked literal).nodes = [masked literal, .colRef "e" "ssn", .lit literal .string] := rfl
  refine ⟨fun ref href => ?_, fun ref href hrow => ?_, fun m hm hop => ?_⟩
  · obtain rfl := mem_singleton.mp (hrefs ▸ href)
    exact Or.inr (Or.inr rfl)
  · obtain rfl := mem_singleton.mp (hrefs ▸ href)
    exact absurd hrow (by decide)
  · rw [hnodes] at hm
    simp only [mem_cons, not_mem_nil, or_false] at hm
    rcases hm with rfl | rfl | rfl <;> cases hop

theorem direct_department : Direct officePolicies "emp" "emp" departmentX := by
  refine ⟨fun ref href => ?_, fun p hp hmasks ast hast => ?_⟩
  · obtain rfl := mem_singleton.mp (show ref ∈ [("", "dept")] from href)
    exact Or.inl rfl
  · rcases mem_cons.mp (show p ∈ PlanPolicy.empPolicies from hp) with rfl | hp
    · obtain rfl := Option.some.inj hast
      exact fun _ _ => rfl
    · obtain rfl := mem_singleton.mp hp
      exact absurd hmasks (by decide)

def crewPolicies : Policies officeWorld where
  columns t := if t = "crew" then [⟨"addr", false, "'***'"⟩] else []
  rowFilter _ := ""
  restricts t p hp := by
    split at hp
    · obtain rfl := mem_singleton.mp hp
      rfl
    · cases hp
  masks_visible t p hp _ n hn := by
    split at hp
    · obtain rfl := mem_singleton.mp hp
      obtain rfl := Option.some.inj hn
      exact ⟨rfl, fun ref href => nomatch href⟩
    · cases hp

def anyCity : Node := .anyAll fieldRef .eq .any [.lit "Rome" .string]

end Wadjet.Auth.DmlPolicy
