import Wadjet.Sql.Eval

namespace Wadjet.Sql

open List

namespace Node

section Walk

variable {α : Type} (leaf : Node → List α) (into : Node → Bool)

mutual

-- A left-to-right walk that descends only into the nodes `into` accepts. Each
-- of the planner's walkers is this one with its own answer to where it goes.
def walk : Node → List α
  | n@(.binaryOp l _ r) => leaf n ++ (if into n then l.walk ++ r.walk else [])
  | n@(.unaryOp _ e) => leaf n ++ (if into n then e.walk else [])
  | n@(.cmp l _ r) => leaf n ++ (if into n then l.walk ++ r.walk else [])
  | n@(.inExpr e _ vs) => leaf n ++ (if into n then e.walk ++ walkList vs else [])
  | n@(.between e _ l h) => leaf n ++ (if into n then e.walk ++ (l.walk ++ h.walk) else [])
  | n@(.like e _ p) => leaf n ++ (if into n then e.walk ++ p.walk else [])
  | n@(.is e _ _) => leaf n ++ (if into n then e.walk else [])
  | n@(.and l r) => leaf n ++ (if into n then l.walk ++ r.walk else [])
  | n@(.or l r) => leaf n ++ (if into n then l.walk ++ r.walk else [])
  | n@(.not e) => leaf n ++ (if into n then e.walk else [])
  | n@(.paren e) => leaf n ++ (if into n then e.walk else [])
  | n@(.funcCall _ args _ _ _) => leaf n ++ (if into n then walkList args else [])
  | n@(.caseWhen s ws e) =>
    leaf n ++ (if into n then walkOpt s ++ (walkWhens ws ++ walkOpt e) else [])
  | n@(.cast e _ _) => leaf n ++ (if into n then e.walk else [])
  | n@(.arrayLit es) => leaf n ++ (if into n then walkList es else [])
  | n@(.tuple es) => leaf n ++ (if into n then walkList es else [])
  | n@(.anyAll e _ _ vs) => leaf n ++ (if into n then e.walk ++ walkList vs else [])
  | n@(.window f ps os) => leaf n ++ (if into n then f.walk ++ (walkList ps ++ walkList os) else [])
  | n => leaf n

def walkList : List Node → List α
  | [] => []
  | n :: ns => n.walk ++ walkList ns

def walkWhens : List (Node × Node) → List α
  | [] => []
  | (c, r) :: ws => c.walk ++ (r.walk ++ walkWhens ws)

def walkOpt : Option Node → List α
  | none => []
  | some n => n.walk

end

theorem walkList_eq_flatMap (ns : List Node) :
    walkList leaf into ns = ns.flatMap (walk leaf into) := by
  induction ns with
  | nil => rfl
  | cons n ns ih => rw [walkList, ih, flatMap_cons]

end Walk

-- Direct subexpressions, in the order the walk takes them.
@[simp]
def children : Node → List Node
  | .binaryOp l _ r | .cmp l _ r | .and l r | .or l r | .like l _ r => [l, r]
  | .unaryOp _ e | .is e _ _ | .not e | .paren e | .cast e _ _ => [e]
  | .inExpr e _ vs | .anyAll e _ _ vs => e :: vs
  | .between e _ l h => [e, l, h]
  | .funcCall _ args _ _ _ => args
  | .caseWhen s ws e => s.toList ++ ((ws.flatMap fun w => [w.1, w.2]) ++ e.toList)
  | .arrayLit es | .tuple es => es
  | .window f ps os => f :: (ps ++ os)
  | _ => []

variable {α : Type}

theorem walk_eq (leaf : Node → List α) (into : Node → Bool) (n : Node) : n.walk leaf into =
      leaf n ++ (if into n then n.children.flatMap (walk leaf into) else []) := by
  have hwhens : ∀ ws : List (Node × Node), walkWhens leaf into ws =
      (ws.flatMap fun w => [w.1, w.2]).flatMap (walk leaf into) := by
    intro ws
    induction ws with
    | nil => rfl
    | cons w ws ih =>
      simp [walkWhens, ih]
  have hopt : ∀ o : Option Node, walkOpt leaf into o = o.toList.flatMap (walk leaf into) := by
    intro o
    cases o <;> simp [walkOpt]
  cases n <;> simp [walk, walkList_eq_flatMap, hwhens, hopt]

def mapChildren (g : Node → Node) : Node → Node
  | .binaryOp l op r => .binaryOp (g l) op (g r)
  | .unaryOp op e => .unaryOp op (g e)
  | .cmp l op r => .cmp (g l) op (g r)
  | .inExpr e negated vs => .inExpr (g e) negated (vs.map g)
  | .between e negated l h => .between (g e) negated (g l) (g h)
  | .like e negated p => .like (g e) negated (g p)
  | .is e negated check => .is (g e) negated check
  | .and l r => .and (g l) (g r)
  | .or l r => .or (g l) (g r)
  | .not e => .not (g e)
  | .paren e => .paren (g e)
  | .funcCall name args distinct starred label => .funcCall name (args.map g) distinct starred label
  | .caseWhen s ws e => .caseWhen (s.map g) (ws.map fun w => (g w.1, g w.2)) (e.map g)
  | .cast e typeName column => .cast (g e) typeName column
  | .arrayLit es => .arrayLit (es.map g)
  | .tuple es => .tuple (es.map g)
  | .anyAll e op modifier vs => .anyAll (g e) op modifier (vs.map g)
  | .window f ps os => .window (g f) (ps.map g) (os.map g)
  | n => n

theorem mapChildren_id (n : Node) : n.mapChildren id = n := by
  cases n <;> simp [mapChildren]

theorem sizeOf_lt_of_mem_children {n c : Node} (h : c ∈ n.children) : sizeOf c < sizeOf n := by
  have hlist : ∀ {ns : List Node}, c ∈ ns → sizeOf c < sizeOf ns := sizeOf_lt_of_mem
  cases n with
  | caseWhen subject whens els =>
    simp only [children, mem_append, Option.mem_toList, mem_flatMap, mem_cons, not_mem_nil,
      or_false] at h
    obtain rfl | ⟨⟨cond, result⟩, hmem, rfl | rfl⟩ | rfl := h
    case inr.inl.inl | inr.inl.inr =>
      have := sizeOf_lt_of_mem hmem
      simp at this ⊢
      omega
    all_goals
      simp
      omega
  | _ => simp at h ⊢ <;> grind

theorem induct_children {motive : Node → Prop}
    (step : ∀ n, (∀ c ∈ n.children, motive c) → motive n) (n : Node) : motive n :=
  step n fun c _ => induct_children step c
termination_by sizeOf n
decreasing_by exact sizeOf_lt_of_mem_children ‹_›

variable {n : Node}

theorem exists_leaf_of_mem_walk (leaf : Node → List α) (into : Node → Bool)
    {x : α} (h : x ∈ n.walk leaf into) : ∃ m, x ∈ leaf m := by
  induction n using induct_children with
  | step n ih =>
    rw [walk_eq, mem_append] at h
    rcases h with h | h
    · exact ⟨n, h⟩
    · split at h
      · obtain ⟨c, hc, hx⟩ := mem_flatMap.mp h
        exact ih c hc hx
      · cases h

theorem exists_mem_walk {β : Type} {leaf : Node → List α} {leaf' : Node → List β} (into : Node → Bool)
    {x : α} {P : β → Prop} (hleaf : ∀ m, x ∈ leaf m → ∃ y ∈ leaf' m, P y) (h : x ∈ n.walk leaf into) :
    ∃ y ∈ n.walk leaf' into, P y := by
  induction n using induct_children with
  | step n ih =>
    rw [walk_eq, mem_append] at h
    rw [walk_eq]
    rcases h with h | h
    · obtain ⟨y, hy, hP⟩ := hleaf n h
      exact ⟨y, mem_append_left _ hy, hP⟩
    · split at h
      next hinto =>
        obtain ⟨c, hc, hx⟩ := mem_flatMap.mp h
        obtain ⟨y, hy, hP⟩ := ih c hc hx
        exact ⟨y, mem_append_right _ (by rw [if_pos hinto]; exact mem_flatMap.mpr ⟨c, hc, hy⟩), hP⟩
      next => cases h

theorem mem_walk_of_leaf {β : Type} {leaf : Node → List α} {leaf' : Node → List β} (into : Node → Bool)
    {x : α} {y : β} (hleaf : ∀ m, x ∈ leaf m → y ∈ leaf' m) (h : x ∈ n.walk leaf into) :
    y ∈ n.walk leaf' into := by
  obtain ⟨_, hy, rfl⟩ := exists_mem_walk into (P := (· = y)) (fun m hm => ⟨y, hleaf m hm, rfl⟩) h
  exact hy

theorem walk_congr (leaf : Node → List α) (into into' : Node → Bool) (n : Node)
    (h : ∀ m ∈ n.walk (fun m => [m]) fun _ => true, into m = into' m) :
    n.walk leaf into = n.walk leaf into' := by
  induction n using induct_children with
  | step n ih =>
    rw [walk_eq] at h
    simp only [singleton_append, mem_cons, if_true, mem_flatMap] at h
    rw [walk_eq leaf into, walk_eq leaf into', h n (Or.inl rfl)]
    congr 2
    refine flatMap_congr fun c hc => ih c hc fun m hm => h m (Or.inr ⟨c, hc, hm⟩)

def refLeaf : Node → List (String × String)
  | .colRef table column => [(table, column)]
  | _ => []

def refs (n : Node) : List (String × String) := n.walk refLeaf fun _ => true

def subqueryLeaf : Node → List String
  | .subquery sql _ => [sql]
  | .exists _ sql => [sql]
  | _ => []

def subqueryTexts (n : Node) : List String := n.walk subqueryLeaf fun _ => true

-- `ColumnRefs`: refused when the tree holds a node whose columns cannot be
-- seen from outside it.
def hasOpaque (n : Node) : Bool :=
  !(n.walk (fun m => match m with
    | .subquery .. | .exists .. | .window .. | .deferredError .. => [()]
    | _ => []) fun _ => true).isEmpty

def columnRefs (n : Node) : Option (List (String × String)) :=
  if n.hasOpaque then none else some n.refs

theorem mem_walk_of_child {leaf : Node → List α} {c : Node} (hc : c ∈ n.children) {x : α}
    (hx : x ∈ c.walk leaf fun _ => true) : x ∈ n.walk leaf fun _ => true := by
  rw [walk_eq]
  simp only [if_true, mem_append, mem_flatMap]
  exact Or.inr ⟨c, hc, hx⟩

theorem mem_walk_of_into {leaf : Node → List α} {into : Node → Bool} {x : α} (h : x ∈ n.walk leaf into) :
    x ∈ n.walk leaf fun _ => true := by
  induction n using induct_children with
  | step n ih =>
    rw [walk_eq, mem_append] at h
    rcases h with h | h
    · rw [walk_eq]
      exact mem_append_left _ h
    · split at h
      · obtain ⟨c, hc, hx⟩ := mem_flatMap.mp h
        exact mem_walk_of_child hc (ih c hc hx)
      · cases h

end Node

section Congruence

variable {V : Type} (I I' : Interp V)

-- Two rows, and two answers to the subqueries, that an expression cannot tell
-- apart.
structure AgreeUnder (n : Node) (ρ ρ' : Row V) : Prop where
  refs : ∀ r ∈ n.refs, ρ r.1 r.2 = ρ' r.1 r.2
  subqueries : ∀ s ∈ n.subqueryTexts, I.subqueryRows ρ s = I'.subqueryRows ρ' s

abbrev AgreeOn : Node → Row V → Row V → Prop := AgreeUnder I I

variable {I I'}

theorem AgreeUnder.child {n c : Node} {ρ ρ' : Row V} (h : AgreeUnder I I' n ρ ρ') (hc : c ∈ n.children) :
    AgreeUnder I I' c ρ ρ' :=
  ⟨fun r hr => h.refs r (Node.mem_walk_of_child hc hr),
    fun s hs => h.subqueries s (Node.mem_walk_of_child hc hs)⟩

end Congruence

variable {V : Type} {I I' : Interp V} {ρ ρ' : Row V}

-- Two expressions, each on its row, that no context can tell apart: by value,
-- as a row value, or as the right side of IN, ANY or ALL.
structure SameUnder (I I' : Interp V) (ρ ρ' : Row V) (n n' : Node) : Prop where
  eval : n.eval I ρ = n'.eval I' ρ'
  tuple : n.evalTuple I ρ = n'.evalTuple I' ρ'
  members : Node.members I ρ [n] = Node.members I' ρ' [n']
  candidates : Node.candidates I ρ [n] = Node.candidates I' ρ' [n']

-- Neither a row value nor one of the nodes IN, ANY and ALL look at.
def Node.isScalar : Node → Bool
  | .tuple _ | .paren _ | .subquery _ _ | .arrayLit _ => false
  | _ => true

def Node.isLeaf : Node → Bool
  | .colRef _ _ | .lit _ _ | .literalPlaceholder _ | .deferredError _ _ | .star _ | .interval _ _
  | .subquery _ _ | .exists _ _ => true
  | _ => false

theorem Node.children_of_isLeaf {n : Node} (h : n.isLeaf) : n.children = [] := by
  cases n <;> first | rfl | cases h

namespace SameUnder

theorem of_eval {n n' : Node} (hn : n.isScalar) (hn' : n'.isScalar)
    (h : n.eval I ρ = n'.eval I' ρ') : SameUnder I I' ρ ρ' n n' := by
  refine ⟨h, ?_, ?_, ?_⟩
  · cases n <;> cases hn <;> cases n' <;> cases hn' <;> rfl
  · have hm : ∀ (J : Interp V) (m : Node) (σ : Row V), m.isScalar →
        Node.members J σ [m] = .list [m.eval J σ] := by
      intro J m σ hs
      cases m <;> cases hs <;> rfl
    rw [hm I n ρ hn, hm I' n' ρ' hn', h]
  · have hc : ∀ (J : Interp V) (m : Node) (σ : Row V), m.isScalar →
        Node.candidates J σ [m] = .array (m.eval J σ) := by
      intro J m σ hs
      cases m <;> cases hs <;> rfl
    rw [hc I n ρ hn, hc I' n' ρ' hn', h]

section Lists

variable {g : Node → Node} {ns : List Node} (h : ∀ n ∈ ns, SameUnder I I' ρ ρ' n (g n))

include h

theorem evals : Node.evals I ρ ns = Node.evals I' ρ' (ns.map g) := by
  rw [Node.evals_eq_map, Node.evals_eq_map, map_map]
  exact map_congr_left fun n hn => (h n hn).eval

theorem evalRows (hI : I.Alike I') (probe : List (Option V)) :
    Node.evalRows I ρ probe ns = Node.evalRows I' ρ' probe (ns.map g) := by
  obtain ⟨rows, rfl⟩ := hI
  induction ns with
  | nil => rfl
  | cons n ns ih =>
    rw [map_cons, Node.evalRows, Node.evalRows, (h n mem_cons_self).tuple,
      ih fun m hm => h m (mem_cons_of_mem n hm)]
    simp only [Interp.withRows_rowCompare]

theorem membersList : Node.members I ρ ns = Node.members I' ρ' (ns.map g) := by
  rcases ns with _ | ⟨n, _ | ⟨m, rest⟩⟩
  · rfl
  · exact (h n mem_cons_self).members
  · rw [Node.members_of_length I ρ _ (by simp), Node.members_of_length I' ρ' _ (by simp),
      ← Node.evals_eq_map, ← Node.evals_eq_map, evals h]

theorem candidatesList : Node.candidates I ρ ns = Node.candidates I' ρ' (ns.map g) := by
  rcases ns with _ | ⟨n, _ | ⟨m, rest⟩⟩
  · rfl
  · exact (h n mem_cons_self).candidates
  · rw [Node.candidates_of_length I ρ _ (by simp), Node.candidates_of_length I' ρ' _ (by simp),
      ← Node.evals_eq_map, ← Node.evals_eq_map, evals h]

theorem arrayLit (hI : I.Alike I') : SameUnder I I' ρ ρ' (.arrayLit ns) (.arrayLit (ns.map g)) := by
  obtain ⟨rows, rfl⟩ := hI
  refine ⟨?_, rfl, ?_, ?_⟩
  · simp only [Node.eval, evals h]
  · simp [Node.members, Node.eval, evals h, Node.evals]
  · simp [Node.candidates, evals h]

theorem tupleNode : SameUnder I I' ρ ρ' (.tuple ns) (.tuple (ns.map g)) where
  eval := rfl
  tuple := by simp [Node.evalTuple, evals h]
  members := rfl
  candidates := rfl

end Lists

variable {g : Node → Node}

theorem evalWhens (hI : I.Alike I') {ws : List (Node × Node)} (subject : Option (Option V))
    (h : ∀ w ∈ ws, ∀ c ∈ [w.1, w.2], SameUnder I I' ρ ρ' c (g c)) : Node.evalWhens I ρ subject ws =
      Node.evalWhens I' ρ' subject (ws.map fun w => (g w.1, g w.2)) := by
  obtain ⟨rows, rfl⟩ := hI
  induction ws with
  | nil => rfl
  | cons w ws ih =>
    have hw := h w mem_cons_self
    simp only [map_cons, Node.evalWhens, (hw w.1 (by simp)).eval, (hw w.2 (by simp)).eval,
      ih fun v hv => h v (mem_cons_of_mem w hv)]
    rfl

theorem evalOpt {o : Option Node} (h : ∀ c ∈ o.toList, SameUnder I I' ρ ρ' c (g c)) :
    Node.evalOpt I ρ o = Node.evalOpt I' ρ' (o.map g) := by
  cases o with
  | none => rfl
  | some c => rw [Option.map_some, Node.evalOpt, Node.evalOpt, (h c (by simp)).eval]

theorem paren {e e' : Node} (h : SameUnder I I' ρ ρ' e e') : SameUnder I I' ρ ρ' (.paren e) (.paren e') where
  eval := by simp only [Node.eval, h.eval]
  tuple := by simp only [Node.evalTuple, h.tuple]
  members := by simp only [Node.members, Node.eval, h.eval, Node.evals]
  candidates := by simp only [Node.candidates, Node.eval, h.eval]

theorem subquery (hI : I.Alike I') (sql : String) (array : Bool)
    (h : I.subqueryRows ρ sql = I'.subqueryRows ρ' sql) :
    SameUnder I I' ρ ρ' (.subquery sql array) (.subquery sql array) := by
  obtain ⟨rows, rfl⟩ := hI
  refine ⟨?_, rfl, ?_, ?_⟩
  · simp only [Node.eval, h]
  · simp only [Node.members, h]
  · simp only [Node.candidates, h]

end SameUnder

theorem SameUnder.mapChildren (hI : I.Alike I') (g : Node → Node) (n : Node)
    (h : ∀ c ∈ n.children, SameUnder I I' ρ ρ' c (g c))
    (hleaf : n.isLeaf → SameUnder I I' ρ ρ' n n) : SameUnder I I' ρ ρ' n (n.mapChildren g) := by
  obtain ⟨rows, rfl⟩ := id hI
  cases n with
  | colRef | lit | literalPlaceholder | deferredError | star | interval | subquery | «exists» =>
    exact hleaf rfl
  | window => exact SameUnder.of_eval rfl rfl rfl
  | binaryOp l _ r | like l _ r | and l r | or l r =>
    refine SameUnder.of_eval rfl rfl ?_
    simp [Node.mapChildren, Node.eval, (h l (by simp)).eval, (h r (by simp)).eval]
  | unaryOp _ e | is e _ _ | not e | cast e _ _ =>
    refine SameUnder.of_eval rfl rfl ?_
    simp [Node.mapChildren, Node.eval, (h e (by simp)).eval]
  | cmp l op r =>
    have hl := h l (by simp)
    have hr := h r (by simp)
    refine SameUnder.of_eval rfl rfl ?_
    simp [Node.mapChildren, Node.eval, hl.eval, hr.eval, hl.tuple, hr.tuple]
  | inExpr e negated vs =>
    have he := h e mem_cons_self
    have hvs := fun v hv => h v (mem_cons_of_mem e hv)
    refine SameUnder.of_eval rfl rfl ?_
    simp [Node.mapChildren, Node.eval, he.eval, he.tuple, SameUnder.evalRows hvs hI,
      SameUnder.membersList hvs]
  | between e negated lo hi =>
    refine SameUnder.of_eval rfl rfl ?_
    simp [Node.mapChildren, Node.eval, (h e (by simp)).eval, (h lo (by simp)).eval,
      (h hi (by simp)).eval]
  | paren e => exact SameUnder.paren (h e (by simp))
  | funcCall name args =>
    refine SameUnder.of_eval rfl rfl ?_
    have hargs : ∀ c ∈ args, SameUnder I (I.withRows rows) ρ ρ' c (g c) := h
    simp [Node.mapChildren, Node.eval, SameUnder.evals hargs]
  | caseWhen s ws els =>
    have hwhens : ∀ w ∈ ws, ∀ c ∈ [w.1, w.2], SameUnder I (I.withRows rows) ρ ρ' c (g c) := fun w hw c hc =>
      h c (mem_append_right _ (mem_append_left _ (mem_flatMap.mpr ⟨w, hw, hc⟩)))
    refine SameUnder.of_eval rfl rfl ?_
    simp [Node.mapChildren, Node.eval, fun subject => SameUnder.evalWhens hI subject hwhens,
      SameUnder.evalOpt fun c hc => h c (mem_append_left _ hc),
      SameUnder.evalOpt fun c hc => h c (mem_append_right _ (mem_append_right _ hc))]
  | arrayLit es => exact SameUnder.arrayLit h hI
  | tuple es => exact SameUnder.tupleNode h
  | anyAll e op modifier vs =>
    refine SameUnder.of_eval rfl rfl ?_
    simp [Node.mapChildren, Node.eval, (h e mem_cons_self).eval,
      SameUnder.candidatesList fun v hv => h v (mem_cons_of_mem e hv)]

variable {n : Node}

section Under

variable (h : AgreeUnder I I' n ρ ρ') (hI : I.Alike I')

include h hI

theorem AgreeUnder.same_leaf (hn : n.isLeaf) : SameUnder I I' ρ ρ' n n := by
  cases n with
  | colRef table column =>
    have href := h.refs (table, column) (by simp [Node.refs, Node.walk, Node.refLeaf])
    exact SameUnder.of_eval rfl rfl (by simpa [Node.eval] using href)
  | subquery sql array =>
    exact SameUnder.subquery hI sql array
      (h.subqueries sql (by simp [Node.subqueryTexts, Node.walk, Node.subqueryLeaf]))
  | «exists» negated sql =>
    have hs := h.subqueries sql (by simp [Node.subqueryTexts, Node.walk, Node.subqueryLeaf])
    obtain ⟨rows, rfl⟩ := hI
    exact SameUnder.of_eval rfl rfl (by simp only [Node.eval, hs, Interp.withRows_box])
  | lit | literalPlaceholder | deferredError | star | interval =>
    obtain ⟨rows, rfl⟩ := hI
    exact SameUnder.of_eval rfl rfl rfl
  | _ => cases hn

theorem AgreeUnder.same : SameUnder I I' ρ ρ' n n := by
  induction n using Node.induct_children with
  | step n ih =>
    have hmap := SameUnder.mapChildren hI id n (fun c hc => ih c hc (h.child hc)) (h.same_leaf hI)
    rwa [Node.mapChildren_id] at hmap

theorem AgreeUnder.truth : n.truth I ρ = n.truth I' ρ' := by
  rw [Node.truth, Node.truth, (h.same hI).eval]
  obtain ⟨rows, rfl⟩ := hI
  rfl

end Under

abbrev Same (I : Interp V) : Row V → Row V → Node → Node → Prop := SameUnder I I

theorem AgreeOn.same (h : AgreeOn I n ρ ρ') : Same I ρ ρ' n n := AgreeUnder.same h (.refl I)

theorem AgreeOn.truth (h : AgreeOn I n ρ ρ') : n.truth I ρ = n.truth I ρ' := AgreeUnder.truth h (.refl I)

end Wadjet.Sql
