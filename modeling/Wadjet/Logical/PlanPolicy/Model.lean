import Mathlib.Data.Multiset.Filter
import Wadjet.Logical.ColumnPolicy

namespace Wadjet.Logical.PlanPolicy

open Wadjet.Sql

structure Scan where
  table : String
  isTableFunc : Bool := false
  recursiveCTE : Bool := false
  scanPredicates : List ScanPredicate := []
  predicates : List ScanPredicate := []
  partitionFilter : List (String × String) := []
  requiredColumns : List String := []
  scanColumns : List String := []

structure Projection where
  out : String
  expr : Node

-- The logical plan. Every node type the policy passes only walk through is
-- an `other` with its expressions and its children.
inductive Plan where
  | scan (s : Scan)
  | filter (predicates : List Predicate) (policyFilter : Bool) (child : Plan)
  | project (items : List Projection) (securityBarrier : Bool) (child : Plan)
  | other (op : String) (exprs : List Node) (children : List Plan)

-- A relation of the catalog, which is all a policy can name.
def Scan.policed (s : Scan) : Bool := s.table != "" && !s.isTableFunc && !s.recursiveCTE

def Scan.attached (s : Scan) : List ScanPredicate := s.scanPredicates ++ s.predicates

abbrev TablePolicies := List (String × List ColumnPolicy)

abbrev PolicyLookup := String → Except String (List ColumnPolicy × String)

inductive PolicyError where
  | lookup (message : String)
  | unenforceable
  | noProjection (table : String)
  | attachedPredicate (table : String)
  | partitionFilter (column table : String)
  | predicateOver (column : String)
  deriving DecidableEq, Repr

section Passes

variable (U : Unicode) (parse : String → Option Node)

def TablePolicies.for (tp : TablePolicies) (table : String) : List ColumnPolicy :=
  if table = "" then [] else (tp.lookup (U.lower table)).getD []

def policedScan (s : Scan) (table : String) : Bool :=
  table != "" && !s.isTableFunc && !s.recursiveCTE && U.equalFold s.table table

mutual

def injectRowFilterNode (table raw : String) (ast : Node) : Plan → Plan
  | .scan s =>
    if policedScan U s table then .filter [⟨some ast, raw, true⟩] true (.scan s) else .scan s
  | .filter ps policy child => .filter ps policy (injectRowFilterNode table raw ast child)
  | .project items barrier child => .project items barrier (injectRowFilterNode table raw ast child)
  | .other op exprs children => .other op exprs (injectRowFilterList table raw ast children)

def injectRowFilterList (table raw : String) (ast : Node) : List Plan → List Plan
  | [] => []
  | p :: ps => injectRowFilterNode table raw ast p :: injectRowFilterList table raw ast ps

end

def injectRowFilter (plan : Plan) (table filterSQL : String) : Plan :=
  match parse filterSQL with
  | none => plan
  | some ast => injectRowFilterNode U table filterSQL ast plan

variable (policies : List ColumnPolicy)

def denies (folded : String) : Bool :=
  policies.any fun p => p.denied && U.lower p.column == folded

-- The last mask written for a column is the one in the map.
def maskFor (folded : String) : Option String :=
  ((policies.filter fun p => p.masks && U.lower p.column == folded).getLast?).map (·.maskExpr)

def securityItem (col : String) : Option Projection :=
  if denies U policies (U.lower col) then none
  else match maskFor U policies (U.lower col) with
    | some mask => some ⟨col, (parse mask).getD (.lit mask .string)⟩
    | none => some ⟨col, .colRef "" col⟩

def maskedOrDenied : List String :=
  restrictedColumns U (policies.filter fun p => p.denied || p.masks)

def stripRestrictedScanPredicates (s : Scan) (restricted : List String) : Scan :=
  let keep := fun (p : ScanPredicate) =>
    p.fromPolicy || !scanPredicateIsRestricted U parse p restricted
  if restricted.isEmpty then s
  else { s with
    scanPredicates := s.scanPredicates.filter keep
    predicates := s.predicates.filter keep
    partitionFilter := s.partitionFilter.filter fun e => !restricted.contains (U.lower e.1) }

def firstNonempty (a b c : List String) : List String :=
  if a.isEmpty then (if b.isEmpty then c else b) else a

-- What `injectColumnPolicies` makes of a scan of the table it is given, and
-- how many scans stay unprotected.
def coverScan (s : Scan) (policies : List ColumnPolicy) (schemaColumns : List String) : Plan × Nat :=
  let items := (firstNonempty schemaColumns s.scanColumns s.requiredColumns).filterMap
    (securityItem U parse policies)
  if items.isEmpty then (.scan s, 1)
  else (.project items true (.scan
    (stripRestrictedScanPredicates U parse s (maskedOrDenied U policies))), 0)

mutual

def injectColumnPoliciesNode (table : String) (policies : List ColumnPolicy)
    (schemaColumns : List String) : Plan → Plan × Nat
  | .scan s =>
    if policedScan U s table then coverScan U parse s policies schemaColumns else (.scan s, 0)
  | .filter ps policy child =>
    let (c, n) := injectColumnPoliciesNode table policies schemaColumns child
    (.filter ps policy c, n)
  | .project items barrier child =>
    let (c, n) := injectColumnPoliciesNode table policies schemaColumns child
    (.project items barrier c, n)
  | .other op exprs children =>
    let (cs, n) := injectColumnPoliciesList table policies schemaColumns children
    (.other op exprs cs, n)

def injectColumnPoliciesList (table : String) (policies : List ColumnPolicy)
    (schemaColumns : List String) : List Plan → List Plan × Nat
  | [] => ([], 0)
  | p :: ps =>
    let (p', n) := injectColumnPoliciesNode table policies schemaColumns p
    let (ps', m) := injectColumnPoliciesList table policies schemaColumns ps
    (p' :: ps', n + m)

end

def injectColumnPolicies (plan : Plan) (table : String) (policies : List ColumnPolicy)
    (schemaColumns : List String) : Plan × Nat :=
  if policies.isEmpty then (plan, 0)
  else injectColumnPoliciesNode U parse table policies schemaColumns plan

-- What a pass over the plan leaves: the plan, the scans left unprotected and
-- the first refusal of the lookup.
structure Walked (α : Type) where
  result : α
  unprotected : Nat := 0
  firstErr : Option String := none

variable (tp : TablePolicies) (columnsOf : String → List String) (lookup : Option PolicyLookup)

-- The columns the projection over a minted scan publishes: what the scan
-- produces, and every masked column.
def publishedColumns (s : Scan) (policies : List ColumnPolicy) : List String :=
  let cols := firstNonempty s.requiredColumns s.scanColumns (columnsOf s.table)
  let present := cols.map U.lower
  cols ++ (policies.filter fun p => p.masks && !present.contains (U.lower p.column)).map (·.column)

-- The row filter comes from the lookup, and the lookup is asked only about a
-- table the resolved set does not hold.
def obligations (table : String) : Except String (List ColumnPolicy × String) :=
  match tp.for U table, lookup with
  | [], some l => l table
  | policies, _ => .ok (policies, "")

def coverNewScan (s : Scan) : Walked Plan :=
  match obligations U tp lookup s.table with
  | .error message => ⟨.scan s, 0, some message⟩
  | .ok ([], rowFilter) =>
    if rowFilter = "" then ⟨.scan s, 0, none⟩
    else ⟨injectRowFilter U parse (.scan s) s.table rowFilter, 0, none⟩
  | .ok (policies, rowFilter) =>
    let (out, n) := injectColumnPolicies U parse (.scan s) s.table policies
      (publishedColumns U columnsOf s policies)
    ⟨if rowFilter = "" then out else injectRowFilter U parse out s.table rowFilter, n, none⟩

mutual

def applyToNewScans (covered : Bool) : Plan → Walked Plan
  | .scan s =>
    if covered || !s.policed then ⟨.scan s, 0, none⟩ else coverNewScan U parse tp columnsOf lookup s
  | .filter ps policy child =>
    let w := applyToNewScans covered child
    ⟨.filter ps policy w.result, w.unprotected, w.firstErr⟩
  | .project items barrier child =>
    let w := applyToNewScans (covered || barrier) child
    ⟨.project items barrier w.result, w.unprotected, w.firstErr⟩
  | .other op exprs children =>
    let w := applyToNewScansList covered children
    ⟨.other op exprs w.result, w.unprotected, w.firstErr⟩

def applyToNewScansList (covered : Bool) : List Plan → Walked (List Plan)
  | [] => ⟨[], 0, none⟩
  | p :: ps =>
    let w := applyToNewScans covered p
    let ws := applyToNewScansList covered ps
    ⟨w.result :: ws.result, w.unprotected + ws.unprotected, w.firstErr.or ws.firstErr⟩

end

mutual

def scanTables : Plan → List String
  | .scan s => if s.policed then [s.table] else []
  | .filter _ _ child => scanTables child
  | .project _ _ child => scanTables child
  | .other _ _ children => scanTablesList children

def scanTablesList : List Plan → List String
  | [] => []
  | p :: ps => scanTables p ++ scanTablesList ps

end

-- `PolicedScanTables`: each table once, under the spelling met first.
def policedScanTables (plan : Plan) : List String :=
  (scanTables plan).foldl (fun out table =>
    if out.any fun t => U.lower t == U.lower table then out else out ++ [table]) []

variable (policed : String → List ColumnPolicy)

def checkScan (barrier : Bool) (s : Scan) : Option PolicyError :=
  if !s.policed || (policed s.table).isEmpty then none
  else if !barrier then some (.noProjection s.table)
  else if s.attached.any fun p => !p.fromPolicy &&
      scanPredicateIsRestricted U parse p (restrictedColumns U (policed s.table)) then
    some (.attachedPredicate s.table)
  else (s.partitionFilter.find? fun e =>
      (restrictedColumns U (policed s.table)).contains (U.lower e.1)).map fun e =>
    .partitionFilter e.1 s.table

def checkFilter (predicates : List Predicate) (child : Plan) : Option PolicyError :=
  (policedScanTables U child).findSome? fun table =>
    let restricted := restrictedColumns U (policed table)
    if restricted.isEmpty then none
    else (predicates.findSome? fun p => predicateNamesRestricted U parse p restricted).map
      .predicateOver

mutual

def checkPolicyPlanOrder (barrier : Bool) : Plan → Option PolicyError
  | .scan s => checkScan U parse policed barrier s
  | .filter predicates policyFilter child =>
    (if barrier && !policyFilter then checkFilter U parse policed predicates child else none).or
      (checkPolicyPlanOrder barrier child)
  | .project _ securityBarrier child => checkPolicyPlanOrder (barrier || securityBarrier) child
  | .other _ _ children => checkPolicyPlanOrderList barrier children

def checkPolicyPlanOrderList (barrier : Bool) : List Plan → Option PolicyError
  | [] => none
  | p :: ps => (checkPolicyPlanOrder barrier p).or (checkPolicyPlanOrderList barrier ps)

end

def policedBy (table : String) : List ColumnPolicy :=
  match tp.for U table, lookup with
  | [], some l =>
    match l table with
    | .ok (policies, _) => policies
    | .error _ => []
  | policies, _ => policies

def enforceOptimizedPlan (plan : Plan) : Except PolicyError Plan :=
  if tp.isEmpty && lookup.isNone then .ok plan
  else
    let w := applyToNewScans U parse tp columnsOf lookup false plan
    match w.firstErr with
    | some message => .error (.lookup message)
    | none =>
      if w.unprotected > 0 then .error .unenforceable
      else match checkPolicyPlanOrder U parse (policedBy U tp lookup) false w.result with
        | some err => .error err
        | none => .ok w.result

end Passes

abbrev Record (V : Type) := String → Option V

abbrev Database (V : Type) := String → Multiset (Record V)

-- What the engine computes with. An operator is any function of the values of
-- its expressions and of its inputs' rows; a table function or a recursive
-- reference has rows of its own.
structure World (V : Type) where
  unicode : Unicode
  interp : Interp V
  -- What a subquery answers for an enclosing row, and the optimized plan that
  -- is built for it there.
  subqueryRows : Database V → Row V → String → List (Option V)
  body : Row V → String → Plan
  column : Multiset (Row V) → List (Option V)
  parse : String → Option Node
  -- The folded names of the ROW columns, and the fields of their values.
  rowColumn : String → Bool
  rowColumn_empty : rowColumn (unicode.lower "") = false
  field : V → String → Option V
  partitionMatches : Option V → String → Bool
  op : String → List (Row V → Option V) → List (Multiset (Row V)) → Multiset (Row V)
  special : Database V → String → Multiset (Row V)

namespace World

variable {V : Type} (W : World V)

-- A qualifier that names a ROW column selects a field of it; any other names
-- the relation.
def row (r : Record V) : Row V := fun table column =>
  if W.rowColumn (W.unicode.lower table) then
    (r (W.unicode.lower table)).bind fun v => W.field v (W.unicode.lower column)
  else r (W.unicode.lower column)

variable (db : Database V)

def engine : Interp V := W.interp.withRows (W.subqueryRows db)

def holds (ρ : Row V) (p : Predicate) : Bool :=
  match p.expr W.parse with
  | some n => n.truth (W.engine db) ρ = .true
  | none => false

def projected (items : List Projection) (ρ : Row V) : Row V :=
  W.row fun name =>
    (items.find? fun item => W.unicode.lower item.out == name).bind fun item =>
      item.expr.eval (W.engine db) ρ

def scanKeeps (s : Scan) (r : Record V) : Bool :=
  (s.attached.all fun p => W.holds db (W.row r) p.toPredicate) &&
    s.partitionFilter.all fun e => W.partitionMatches (r (W.unicode.lower e.1)) e.2

def scanRows (s : Scan) : Multiset (Row V) :=
  if s.policed then
    ((db (W.unicode.lower s.table)).filter fun r => W.scanKeeps db s r).map W.row
  else W.special db s.table

mutual

def run : Plan → Multiset (Row V)
  | .scan s => W.scanRows db s
  | .filter predicates _ child => (run child).filter fun ρ => predicates.all (W.holds db ρ)
  | .project items _ child => (run child).map (W.projected db items)
  | .other op exprs children => W.op op (exprs.map fun n => n.eval (W.engine db)) (runList children)

def runList : List Plan → List (Multiset (Row V))
  | [] => []
  | p :: ps => run p :: runList ps

end

end World

end Wadjet.Logical.PlanPolicy
