import Wadjet.Sql.Refs

namespace Wadjet.Sql

open List

namespace Node

section Rewrite

variable (f : Node → Option Node) (into : Node → Bool)

-- The node `f` replaces `n` by; else `n` rebuilt over its rewritten parts, if
-- the rewrite descends into it.
def pick (n rebuilt : Node) : Node := (f n).getD (if into n then rebuilt else n)

mutual

-- A top-down replacement. Each of the planner's tree rewrites is this one with
-- its own replacement and its own answer to where it descends.
def rewrite : Node → Node
  | n@(.binaryOp l op r) => pick f into n (.binaryOp l.rewrite op r.rewrite)
  | n@(.unaryOp op e) => pick f into n (.unaryOp op e.rewrite)
  | n@(.cmp l op r) => pick f into n (.cmp l.rewrite op r.rewrite)
  | n@(.inExpr e negated vs) => pick f into n (.inExpr e.rewrite negated (rewriteList vs))
  | n@(.between e negated l h) => pick f into n (.between e.rewrite negated l.rewrite h.rewrite)
  | n@(.like e negated p) => pick f into n (.like e.rewrite negated p.rewrite)
  | n@(.is e negated check) => pick f into n (.is e.rewrite negated check)
  | n@(.and l r) => pick f into n (.and l.rewrite r.rewrite)
  | n@(.or l r) => pick f into n (.or l.rewrite r.rewrite)
  | n@(.not e) => pick f into n (.not e.rewrite)
  | n@(.paren e) => pick f into n (.paren e.rewrite)
  | n@(.funcCall name args distinct starred label) =>
    pick f into n (.funcCall name (rewriteList args) distinct starred label)
  | n@(.caseWhen s ws e) => pick f into n (.caseWhen (rewriteOpt s) (rewriteWhens ws) (rewriteOpt e))
  | n@(.cast e typeName column) => pick f into n (.cast e.rewrite typeName column)
  | n@(.arrayLit es) => pick f into n (.arrayLit (rewriteList es))
  | n@(.tuple es) => pick f into n (.tuple (rewriteList es))
  | n@(.anyAll e op modifier vs) => pick f into n (.anyAll e.rewrite op modifier (rewriteList vs))
  | n@(.window g ps os) => pick f into n (.window g.rewrite (rewriteList ps) (rewriteList os))
  | n => (f n).getD n

def rewriteList : List Node → List Node
  | [] => []
  | n :: ns => n.rewrite :: rewriteList ns

def rewriteWhens : List (Node × Node) → List (Node × Node)
  | [] => []
  | (c, r) :: ws => (c.rewrite, r.rewrite) :: rewriteWhens ws

def rewriteOpt : Option Node → Option Node
  | none => none
  | some n => some n.rewrite

end

theorem rewriteList_eq_map (ns : List Node) : rewriteList f into ns = ns.map (rewrite f into) := by
  induction ns with
  | nil => rfl
  | cons n ns ih => rw [rewriteList, ih, map_cons]

theorem rewriteWhens_eq_map (ws : List (Node × Node)) :
    rewriteWhens f into ws = ws.map fun w => (w.1.rewrite f into, w.2.rewrite f into) := by
  induction ws with
  | nil => rfl
  | cons w ws ih =>
    rw [rewriteWhens, ih, map_cons]

theorem rewriteOpt_eq_map (o : Option Node) : rewriteOpt f into o = o.map (rewrite f into) := by
  cases o <;> rfl

theorem rewrite_eq (n : Node) :
    n.rewrite f into = (f n).getD (if into n then n.mapChildren (rewrite f into) else n) := by
  cases n <;>
    simp [rewrite, pick, mapChildren, rewriteList_eq_map, rewriteWhens_eq_map, rewriteOpt_eq_map]

-- The nodes the rewrite looks at: it goes below a node it neither replaces
-- nor leaves alone.
def visited (n : Node) : List Node := n.walk (fun m => [m]) fun m => (f m).isNone && into m

theorem mem_visited_self (n : Node) : n ∈ n.visited f into := by
  rw [visited, walk_eq]
  simp

theorem mem_visited_of_child {n c m : Node} (hf : f n = none) (hi : into n) (hc : c ∈ n.children)
    (hm : m ∈ c.visited f into) : m ∈ n.visited f into := by
  rw [visited, walk_eq]
  simp only [hf, hi, Option.isNone_none, Bool.and_self, if_true, mem_append, mem_flatMap]
  exact Or.inr ⟨c, hc, hm⟩

theorem mem_visited_cases {n m : Node} (h : m ∈ n.visited f into) :
    m = n ∨ ∃ c ∈ n.children, m ∈ c.visited f into := by
  rw [visited, walk_eq] at h
  simp only [singleton_append, mem_cons] at h
  rcases h with rfl | h
  · exact Or.inl rfl
  · split at h
    · exact Or.inr (mem_flatMap.mp h)
    · cases h

theorem children_mapChildren (g : Node → Node) (n : Node) :
    (n.mapChildren g).children = n.children.map g := by
  cases n <;> simp [children, mapChildren, flatMap_map, map_flatMap, Option.toList_map]

theorem mapChildren_of_children_nil (g : Node → Node) (n : Node) (h : n.children = []) :
    n.mapChildren g = n := by
  cases n with
  | caseWhen s ws e =>
    cases s <;> cases ws <;> cases e <;> simp_all [children, mapChildren]
  | _ => simp_all [children, mapChildren]

-- What a walk finds in a rewritten tree stands in a replacement, or in a node
-- that the rewrite left as it was. The walk finds nothing at an inner node.
theorem mem_walk_rewrite {α : Type} (leaf : Node → List α) (hleaf : ∀ m, m.children ≠ [] → leaf m = [])
    (n : Node) {x : α} (h : x ∈ (n.rewrite f into).walk leaf fun _ => true) :
    ∃ m ∈ n.visited f into, x ∈ ((f m).getD m).walk leaf (fun _ => true) ∧
      (f m = none → into m = false ∨ m.children = []) := by
  induction n using induct_children with
  | step n ih =>
    rw [rewrite_eq] at h
    rcases hf : f n with _ | r
    · rw [hf, Option.getD_none] at h
      rcases hi : into n with _ | _
      · rw [hi] at h
        exact ⟨n, mem_visited_self f into n, by simpa [hf] using h, fun _ => Or.inl hi⟩
      rw [hi, if_pos rfl] at h
      by_cases hc : n.children = []
      · rw [mapChildren_of_children_nil _ n hc] at h
        exact ⟨n, mem_visited_self f into n, by simpa [hf] using h, fun _ => Or.inr hc⟩
      · rw [walk_eq, children_mapChildren, hleaf _ (by rwa [children_mapChildren, Ne, map_eq_nil_iff])] at h
        simp only [nil_append, if_true, mem_flatMap, mem_map] at h
        obtain ⟨_, ⟨c, hmem, rfl⟩, hx⟩ := h
        obtain ⟨m, hm, hfound⟩ := ih c hmem hx
        exact ⟨m, mem_visited_of_child f into hf hi hmem hm, hfound⟩
    · exact ⟨n, mem_visited_self f into n, by simpa [hf] using h, fun hn => by simp [hf] at hn⟩

theorem mem_walk_of_visited {α : Type} (leaf : Node → List α) {n m : Node} (hm : m ∈ n.visited f into)
    {x : α} (hx : x ∈ m.walk leaf fun _ => true) : x ∈ n.walk leaf fun _ => true := by
  induction n using induct_children with
  | step n ih =>
    rcases mem_visited_cases f into hm with rfl | ⟨c, hc, hm⟩
    · exact hx
    · rw [walk_eq]
      simp only [if_true, mem_append, mem_flatMap]
      exact Or.inr ⟨c, hc, ih c hc hm⟩

end Rewrite

def nodes (n : Node) : List Node := n.walk (fun m => [m]) fun _ => true

theorem mem_nodes_of_visited {f : Node → Option Node} {into : Node → Bool} {n m : Node}
    (hm : m ∈ n.visited f into) : m ∈ n.nodes := by
  refine mem_walk_of_visited f into _ hm ?_
  rw [walk_eq]
  simp

theorem refLeaf_of_children (m : Node) (h : m.children ≠ []) : refLeaf m = [] := by
  cases m <;> simp_all [refLeaf]

theorem subqueryLeaf_of_children (m : Node) (h : m.children ≠ []) : subqueryLeaf m = [] := by
  cases m <;> simp_all [subqueryLeaf]

end Node

variable {V : Type} {I : Interp V} {ρ ρ' : Row V} {f : Node → Option Node} {into : Node → Bool}

theorem AgreeOn.visited {n m : Node} (h : AgreeOn I n ρ ρ') (hm : m ∈ n.visited f into) :
    AgreeOn I m ρ ρ' := by
  induction n using Node.induct_children with
  | step n ih =>
    rcases Node.mem_visited_cases f into hm with rfl | ⟨c, hc, hm⟩
    · exact h
    · exact ih c hc (h.child hc) hm

-- What each node the rewrite looks at has to satisfy for the value to survive:
-- a replacement stands for what it replaces, and what is kept as it is reads
-- the same on both rows.
def Keeps (I : Interp V) (ρ ρ' : Row V) (f : Node → Option Node) (into : Node → Bool) (m : Node) : Prop :=
  match f m with
  | some r => Same I ρ ρ' m r
  | none => (into m = false ∨ m.children = []) → AgreeOn I m ρ ρ'

theorem same_rewrite (n : Node) (h : ∀ m ∈ n.visited f into, Keeps I ρ ρ' f into m) :
    Same I ρ ρ' n (n.rewrite f into) := by
  induction n using Node.induct_children with
  | step n ih =>
    have hn := h n (Node.mem_visited_self f into n)
    unfold Keeps at hn
    rw [Node.rewrite_eq]
    rcases hf : f n with _ | r
    · simp only [hf] at hn
      rcases hi : into n with _ | _
      · exact (hn (Or.inl hi)).same
      · refine SameUnder.mapChildren (.refl I) _ n (fun c hc => ih c hc fun m hm => ?_) fun hc =>
          (hn (Or.inr (Node.children_of_isLeaf hc))).same
        exact h m (Node.mem_visited_of_child f into hf hi hc hm)
    · simp only [hf] at hn
      exact hn

end Wadjet.Sql
