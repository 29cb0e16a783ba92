import Wadjet.Auth.DmlPolicy.Model

namespace Wadjet.Auth.DmlPolicy

open Wadjet.Sql Wadjet.Logical List
open Wadjet.Logical.PlanPolicy (World Record Database Policies maskFor)

section Nodes

variable {n m : Node}

theorem not_window_of_plain (h : n.hasOpaque = false) (hm : m ∈ n.nodes) :
    ∀ f ps os, m ≠ .window f ps os := by
  rintro f ps os rfl
  unfold Node.hasOpaque at h
  rw [Bool.not_eq_false', List.isEmpty_iff] at h
  have hnil : () ∈ ([] : List Unit) := by
    rw [← h]
    refine Node.mem_walk_of_leaf _ (fun m hmem => ?_) hm
    obtain rfl := mem_singleton.mp hmem
    simp
  cases hnil

theorem mem_collectASTColumnRefs (U : Unicode) (h : n.hasOpaque = false)
    (hnodes : ∀ x ∈ m.nodes, x ∈ n.nodes) (ref : String × String) (href : ref ∈ m.refs) :
    U.lower ref.2 ∈ collectASTColumnRefs U m := by
  refine mem_map.mpr ⟨ref, ?_, rfl⟩
  rw [Node.walk_congr Node.refLeaf _ (fun _ => true) m]
  · exact href
  · intro x hx
    have := not_window_of_plain h (hnodes x hx)
    cases x <;> simp_all

theorem eq_colRef_of_leaf {ref : String × String} (hop : ¬ opaqueNode m)
    (hleaf : (!opaqueNode m) = false ∨ m.children = []) (href : ref ∈ m.refs) : m = .colRef ref.1 ref.2 := by
  rw [Node.refs, Node.walk_eq, hleaf.resolve_left (by simp [hop])] at href
  simp only [flatMap_nil, ite_self, append_nil] at href
  cases m <;> simp only [Node.refLeaf, not_mem_nil, mem_singleton] at href
  subst href
  rfl

theorem mem_refs_of_visited {f : Node → Option Node} {descend : Node → Bool} {table column : String}
    (h : .colRef table column ∈ n.visited f descend) : (table, column) ∈ n.refs :=
  Node.mem_walk_of_visited _ _ _ h (by simp [Node.walk, Node.refLeaf])

end Nodes

-- The references that an expression on the relation may make to the masked columns.
abbrev maskRefs (U : Unicode) (outs : List (String × Node)) (relation : String) : MaskRefs :=
  ⟨outs, if relation = "" then [] else [U.lower relation]⟩

theorem mem_names_of_lower {U : Unicode} {outs : List (String × Node)} {relation table : String}
    (htable : table ≠ "") (h : U.lower table = U.lower relation) :
    U.lower table ∈ (maskRefs U outs relation).names := by
  have hne : relation ≠ "" := by
    rintro rfl
    exact htable (U.eq_empty_of_lower table h)
  simp [hne, h]

section Expressions

variable {V : Type} {W : World V} (P : Policies W) (t : String)

-- What an expression may read for the rewrite to hide the restricted columns:
-- a qualifier names the relation or a ROW column; no field of a denied ROW
-- column is selected, and under ANY and ALL none of a masked one.
structure Readable (relation : String) (n : Node) : Prop where
  qualifier : ∀ ref ∈ n.refs, ref.1 = "" ∨ W.rowColumn (W.unicode.lower ref.1) ∨
    W.unicode.lower ref.1 = W.unicode.lower relation
  field : ∀ ref ∈ n.refs, W.rowColumn (W.unicode.lower ref.1) →
    isDenied W.unicode (P.columns t) ref.1 = false
  quantified : ∀ m ∈ n.nodes, opaqueNode m → ∀ ref ∈ m.refs,
    W.rowColumn (W.unicode.lower ref.1) → W.unicode.lower ref.1 ∉ P.restricted t

variable (outs : List (String × Node))
  (houts : maskOutputs W.unicode W.parse (P.columns t) [] = some outs)

include houts

theorem not_restricted_of_lookup (name : String) (hdenied : isDenied W.unicode (P.columns t) name = false)
    (hlookup : outs.lookup (W.unicode.lower name) = none) :
    W.unicode.lower name ∉ P.restricted t := by
  intro hmem
  obtain ⟨p, hp, hname⟩ := mem_map.mp hmem
  rcases Bool.or_eq_true_iff.mp (P.restricts t p hp) with hden | hmasks
  · rw [isDenied, any_eq_false] at hdenied
    exact hdenied p hp (by simp [hden, hname])
  · have hsome := (lookup_maskOutputs_ne W.unicode W.parse (P.columns t) [] outs houts).2 p hp hmasks
    simp [hname, hlookup] at hsome

theorem mask_readsVisible (name : String) (d : Node) (h : outs.lookup name = some d) :
    W.ReadsVisible (P.restricted t) d := by
  have hmem : (name, d) ∈ outs := by
    obtain ⟨l₁, l₂, rfl, -⟩ := lookup_eq_some_iff.mp h
    simp
  obtain hacc | ⟨p, hp, hmasks, ast, hparse, heq⟩ :=
    mem_maskOutputs W.unicode W.parse (P.columns t) [] outs houts _ hmem
  · cases hacc
  · obtain ⟨-, rfl⟩ := Prod.mk.inj heq
    have hread := P.masks_visible t p hp hmasks ast hparse
    refine ⟨?_, fun ref href => hread.refs ref ?_⟩
    · have := hread.subqueries
      unfold Node.subqueryTexts at this ⊢
      simp [Node.walk, Node.subqueryLeaf, this]
    · unfold Node.refs at href ⊢
      simpa [Node.walk, Node.refLeaf] using href

theorem keptRef_visible (relation table column : String)
    (hresolve : MaskRefs.resolve W.unicode (maskRefs W.unicode outs relation) table column = .keep)
    (hdenied : isDenied W.unicode (P.columns t) column = false)
    (hqualifier : table = "" ∨ W.rowColumn (W.unicode.lower table) ∨
      W.unicode.lower table = W.unicode.lower relation)
    (hfield : W.rowColumn (W.unicode.lower table) → isDenied W.unicode (P.columns t) table = false) :
    W.reads (table, column) ∉ P.restricted t := by
  obtain ⟨hbare, hqual⟩ := MaskRefs.resolve_keep W.unicode _ table column hresolve
  unfold World.reads
  split
  next hrow =>
    refine not_restricted_of_lookup P t outs houts table (hfield hrow) (hqual ?_)
    rintro rfl
    exact absurd hrow (by simp [W.rowColumn_empty])
  next hrow =>
    refine not_restricted_of_lookup P t outs houts column hdenied (hbare ?_)
    rcases hqualifier with hq | hq | hq
    · exact Or.inl hq
    · exact absurd hq hrow
    · by_cases htable : table = ""
      · exact Or.inl htable
      · exact Or.inr (mem_names_of_lower htable hq)

omit houts in
theorem resolve_of_kept (names : List String) (table column : String)
    (hkeep : MaskRefs.replacement W.unicode ⟨outs, names⟩ (.colRef table column) = none)
    (hdeclines : MaskRefs.declines W.unicode ⟨outs, names⟩ (.colRef table column) = false) :
    MaskRefs.resolve W.unicode ⟨outs, names⟩ table column = .keep := by
  simp only [MaskRefs.replacement, MaskRefs.declines] at hkeep hdeclines
  cases hr : MaskRefs.resolve W.unicode ⟨outs, names⟩ table column with
  | keep => rfl
  | replace d =>
    rw [hr] at hkeep
    cases hkeep
  | decline =>
    rw [hr] at hdeclines
    cases hdeclines

omit houts in
theorem lookup_of_undeclined (names : List String) (m : Node) (hop : opaqueNode m)
    (hdeclines : MaskRefs.declines W.unicode ⟨outs, names⟩ m = false) (name : String)
    (hname : name ∈ collectASTColumnRefs W.unicode m) : outs.lookup name = none := by
  have hany : (opaqueNode m && (collectASTColumnRefs W.unicode m).any fun name =>
      (outs.lookup name).isSome) = false := by
    cases m <;> first | exact hdeclines | cases hop
  rw [hop, Bool.true_and, any_eq_false] at hany
  exact Option.not_isSome_iff_eq_none.mp (hany name hname)

theorem kept_visible (relation : String) (n m : Node) (hplain : n.hasOpaque = false)
    (hdenied : ∀ ref ∈ n.refs, isDenied W.unicode (P.columns t) ref.2 = false)
    (hread : Readable P t relation n)
    (hm : m ∈ n.visited (MaskRefs.replacement W.unicode (maskRefs W.unicode outs relation)) fun m => !opaqueNode m)
    (hkeep : MaskRefs.replacement W.unicode (maskRefs W.unicode outs relation) m = none)
    (hdeclines : MaskRefs.declines W.unicode (maskRefs W.unicode outs relation) m = false)
    (hleaf : (!opaqueNode m) = false ∨ m.children = []) (ref : String × String) (href : ref ∈ m.refs) :
    W.reads ref ∉ P.restricted t := by
  have hin : ref ∈ n.refs := Node.mem_walk_of_visited _ _ _ hm href
  by_cases hop : opaqueNode m
  · -- Under ANY and ALL no name with a mask may stand, whatever its qualifier.
    have hcollect := mem_collectASTColumnRefs W.unicode hplain
      (fun x hx => Node.mem_walk_of_visited _ _ _ hm hx) ref href
    have hnone := lookup_of_undeclined outs _ m hop hdeclines _ hcollect
    unfold World.reads
    split
    next hrow => exact hread.quantified m (Node.mem_nodes_of_visited hm) hop ref href hrow
    next => exact not_restricted_of_lookup P t outs houts ref.2 (hdenied ref hin) hnone
  · obtain rfl := eq_colRef_of_leaf hop hleaf href
    exact keptRef_visible P t outs houts relation ref.1 ref.2 (resolve_of_kept outs _ ref.1 ref.2 hkeep hdeclines)
      (hdenied ref hin) (hread.qualifier ref hin) (hread.field ref hin)

theorem replaced_visible (names : List String) (table column : String) (d : Node)
    (hresolve : MaskRefs.resolve W.unicode ⟨outs, names⟩ table column = .replace d)
    (hdenied : isDenied W.unicode (P.columns t) column = false) :
    W.ReadsVisible (P.restricted t) d := by
  obtain ⟨name, hd⟩ | ⟨name, mask, base, hmask, hbase, rfl, hbare⟩ :=
    MaskRefs.resolve_replace W.unicode ⟨outs, names⟩ table column d hresolve
  · exact mask_readsVisible P t outs houts name d hd
  · have hread := mask_readsVisible P t outs houts name mask hmask
    have hbaseRead := hread.refs ("", base) (simpleColRef_refs mask _ hbase)
    refine ⟨by simp [Node.subqueryTexts, Node.walk, Node.subqueryLeaf], fun ref href => ?_⟩
    obtain rfl : ref = (base, column) := by simpa [Node.refs, Node.walk, Node.refLeaf] using href
    simp only [World.reads, W.rowColumn_empty] at hbaseRead
    unfold World.reads
    split
    next => exact hbaseRead
    next => exact not_restricted_of_lookup P t outs houts column hdenied hbare

theorem subqueryTexts_mask (names : List String) (m d : Node)
    (h : MaskRefs.replacement W.unicode ⟨outs, names⟩ m = some d) : d.subqueryTexts = [] := by
  cases m <;> simp only [MaskRefs.replacement, reduceCtorEq] at h
  next table column =>
    split at h
    next n hresolve =>
      obtain rfl := Option.some.inj h
      obtain ⟨name, hd⟩ | ⟨name, mask, base, -, -, rfl, -⟩ :=
        MaskRefs.resolve_replace W.unicode ⟨outs, names⟩ table column n hresolve
      · exact (mask_readsVisible P t outs houts name n hd).subqueries
      · rfl
    next => cases h

theorem substituteColRefs_visible (relation : String) (n out : Node) (hplain : n.hasOpaque = false)
    (hdenied : ∀ ref ∈ n.refs, isDenied W.unicode (P.columns t) ref.2 = false)
    (hread : Readable P t relation n)
    (h : substituteColRefs W.unicode (maskRefs W.unicode outs relation) n = some out) :
    W.ReadsVisible (P.restricted t) out := by
  obtain ⟨hany, rfl⟩ := substituteColRefs_eq_some W.unicode _ h
  refine ⟨?_, fun ref href => ?_⟩
  · rw [eq_nil_iff_forall_not_mem]
    intro s hs
    obtain ⟨m, hm, hs, -⟩ := Node.mem_walk_rewrite _ _ _ Node.subqueryLeaf_of_children n hs
    rcases hrep : MaskRefs.replacement W.unicode _ m with _ | d
    · rw [hrep] at hs
      have hin : s ∈ n.subqueryTexts := Node.mem_walk_of_visited _ _ _ hm hs
      rw [World.subqueryTexts_of_plain n hplain] at hin
      cases hin
    · rw [hrep, Option.getD_some] at hs
      have hnil := subqueryTexts_mask P t outs houts _ m d hrep
      unfold Node.subqueryTexts at hnil
      rw [hnil] at hs
      cases hs
  · obtain ⟨m, hm, href, hleaf⟩ := Node.mem_walk_rewrite _ _ _ Node.refLeaf_of_children n href
    rcases hrep : MaskRefs.replacement W.unicode _ m with _ | d
    · rw [hrep] at href
      exact kept_visible P t outs houts relation n m hplain hdenied hread hm hrep (hany m hm) (hleaf hrep) ref href
    rw [hrep] at href
    cases m <;> simp only [MaskRefs.replacement, reduceCtorEq] at hrep
    next table column =>
      split at hrep
      next e hresolve =>
        obtain rfl := Option.some.inj hrep
        exact (replaced_visible P t outs houts _ table column e hresolve
          (hdenied (table, column) (mem_refs_of_visited hm))).refs ref href
      next => cases hrep

end Expressions

section Rewritten

variable {V : Type} {W : World V} (P : Policies W) (t : String)

-- What an accepted expression went through: nothing hidden in it, no denied
-- column read, and then its masks put in, if there are any.
theorem rewriteExpr_cases (table relation : String) (n out : Node)
    (h : rewriteExpr W.unicode W.parse table relation (P.columns t) n = .ok out) :
    n.hasOpaque = false ∧ (∀ ref ∈ n.refs, isDenied W.unicode (P.columns t) ref.2 = false) ∧
    ∃ outs, maskOutputs W.unicode W.parse (P.columns t) [] = some outs ∧ (outs = [] ∧ out = n ∨
      substituteColRefs W.unicode (maskRefs W.unicode outs relation) n = some out) := by
  unfold rewriteExpr at h
  split at h
  · cases h
  next refs hrefs =>
    have hplain : n.hasOpaque = false := by
      by_contra hop
      simp [Node.columnRefs, hop] at hrefs
    have hall : n.refs = refs := by simpa [Node.columnRefs, hplain] using hrefs
    split at h
    · cases h
    next hfind =>
      rw [find?_eq_none] at hfind
      refine ⟨hplain, fun ref href => by simpa using hfind ref (hall ▸ href), ?_⟩
      split at h
      · cases h
      next hsub =>
        obtain rfl := Except.ok.inj h
        unfold substituteMaskedColumns at hsub
        split at hsub
        · cases hsub
        next outs houts =>
          split at hsub
          next hempty => exact ⟨outs, houts, Or.inl ⟨isEmpty_iff.mp hempty, (Option.some.inj hsub).symm⟩⟩
          next => exact ⟨outs, houts, Or.inr hsub⟩

theorem rewriteExpr_visible (table relation : String) (n out : Node) (hread : Readable P t relation n)
    (h : rewriteExpr W.unicode W.parse table relation (P.columns t) n = .ok out) :
    W.ReadsVisible (P.restricted t) out := by
  obtain ⟨hplain, hdenied, outs, houts, ⟨rfl, rfl⟩ | hsub⟩ := rewriteExpr_cases P t table relation n out h
  · -- No column is masked: what is restricted is denied.
    refine ⟨World.subqueryTexts_of_plain out hplain, fun ref href => ?_⟩
    unfold World.reads
    split
    next hrow => exact not_restricted_of_lookup P t [] houts ref.1 (hread.field ref href hrow) rfl
    next => exact not_restricted_of_lookup P t [] houts ref.2 (hdenied ref href) rfl
  · exact substituteColRefs_visible P t outs houts relation n _ hplain hdenied hread hsub

end Rewritten

section Shown

variable {V : Type} {W : World V} (P : Policies W) (t : String)

-- A record as SELECT shows it: a masked column holds its mask.
def shown (db : Database V) (r : Record V) : Record V := fun c =>
  match maskFor W.unicode (P.columns t) c with
  | some mask => ((W.parse mask).getD (.lit mask .string)).eval (W.engine db) (W.row r)
  | none => r c

theorem lookup_maskOutputs (U : Unicode) (parse : String → Option Node) (policies : List ColumnPolicy)
    (acc outs : List (String × Node)) (h : maskOutputs U parse policies acc = some outs) (name : String) :
    match maskFor U policies name with
    | some mask => ∃ ast, parse mask = some ast ∧ outs.lookup name = some (.paren ast)
    | none => outs.lookup name = acc.lookup name := by
  fun_induction maskOutputs U parse policies acc with
  | case1 acc =>
    obtain rfl := Option.some.inj h
    rfl
  | case2 => cases h
  | case3 p ps acc hmasks ast hparse ih =>
    have hps := ih h
    by_cases hname : U.lower p.column = name
    · have hlast : maskFor U (p :: ps) name = some ((maskFor U ps name).getD p.maskExpr) := by
        simp only [maskFor, filter_cons, hmasks, hname, beq_self_eq_true, Bool.and_self, if_true,
          getLast?_cons, Option.map_some]
        cases ((ps.filter fun p => p.masks && U.lower p.column == name).getLast?) <;> rfl
      rw [hlast]
      rcases hmask : maskFor U ps name with _ | mask
      · rw [hmask] at hps
        refine ⟨ast, hparse, ?_⟩
        rw [hps, hname, lookup_cons_self]
      · rw [hmask] at hps
        exact hps
    · have hskip : maskFor U (p :: ps) name = maskFor U ps name := by
        have hne : (U.lower p.column == name) = false := by simpa using hname
        simp only [maskFor, filter_cons, hne, Bool.and_false, Bool.false_eq_true, if_false]
      rw [hskip]
      rcases hmask : maskFor U ps name with _ | mask
      · rw [hmask] at hps
        have hne : (name == U.lower p.column) = false := by simpa using Ne.symm hname
        simpa only [lookup_cons, hne] using hps
      · rw [hmask] at hps
        exact hps
  | case4 p ps acc hmasks ih =>
    have hskip : maskFor U (p :: ps) name = maskFor U ps name := by
      have hno : p.masks = false := by simpa using hmasks
      simp only [maskFor, filter_cons, hno, Bool.false_and, Bool.false_eq_true, if_false]
    rw [hskip]
    exact ih h

-- References whose meaning no name can change: unqualified, or qualified by
-- the relation where no column bears its name; and masks that are no row
-- values.
structure Direct (relation : String) (n : Node) : Prop where
  refs : ∀ ref ∈ n.refs, ref.1 = "" ∨ W.unicode.lower ref.1 = W.unicode.lower relation ∧
    W.rowColumn (W.unicode.lower ref.1) = false ∧ W.unicode.lower ref.1 ∉ P.restricted t ∧
    W.unicode.lower (colRefText W.unicode ref.1 ref.2) ∉ P.restricted t
  masks : ∀ p ∈ P.columns t, p.masks → ∀ ast, W.parse p.maskExpr = some ast →
    ∀ db ρ, ast.evalTuple (W.engine db) ρ = none

variable (outs : List (String × Node))
  (houts : maskOutputs W.unicode W.parse (P.columns t) [] = some outs)

include houts

theorem lookup_of_not_restricted (name : String) (h : name ∉ P.restricted t) : outs.lookup name = none := by
  rcases hlookup : outs.lookup name with _ | d
  · rfl
  · obtain ⟨l₁, l₂, rfl, -⟩ := lookup_eq_some_iff.mp hlookup
    obtain hacc | ⟨p, hp, -, ast, -, heq⟩ :=
      mem_maskOutputs W.unicode W.parse (P.columns t) [] _ houts (name, d) (by simp)
    · cases hacc
    · obtain ⟨rfl, -⟩ := Prod.mk.inj heq
      exact absurd (mem_map_of_mem hp) h

theorem resolve_direct {relation : String} {n : Node} (hdirect : Direct P t relation n) {table column : String}
    (href : (table, column) ∈ n.refs) :
    MaskRefs.resolve W.unicode (maskRefs W.unicode outs relation) table column =
      match outs.lookup (W.unicode.lower column) with
      | none => .keep
      | some d => .replace d := by
  unfold MaskRefs.resolve
  rcases hdirect.refs _ href with hbare | ⟨hrel, -, hname, htext⟩
  · rw [if_pos hbare]
    rfl
  · by_cases hbare : table = ""
    · rw [if_pos hbare]
      rfl
    have hscope := @mem_names_of_lower W.unicode outs _ _ hbare hrel
    have hcontainer := lookup_of_not_restricted P t outs houts _ hname
    have hspelled := lookup_of_not_restricted P t outs houts _ htext
    simp only at hcontainer hspelled
    simp only [if_neg hbare, hspelled, hcontainer, if_pos hscope]
    rfl

omit houts in
theorem row_direct {relation : String} {n : Node} (hdirect : Direct P t relation n) {ref : String × String}
    (href : ref ∈ n.refs) (q : Record V) : W.row q ref.1 ref.2 = q (W.unicode.lower ref.2) := by
  unfold World.row
  rcases hdirect.refs ref href with hbare | ⟨-, hcolumn, -, -⟩
  · rw [hbare, W.rowColumn_empty]
    rfl
  · rw [hcolumn]
    rfl

variable (db : Database V) (r : Record V)

theorem shown_of_lookup {name : String} (h : outs.lookup name = none) : shown P t db r name = r name := by
  have hmasks := lookup_maskOutputs W.unicode W.parse (P.columns t) [] outs houts name
  unfold shown
  split
  next mask hmask =>
    rw [hmask] at hmasks
    obtain ⟨ast, -, hsome⟩ := hmasks
    simp [h] at hsome
  next => rfl

theorem same_mask {relation : String} {n d : Node} (hdirect : Direct P t relation n) {table column : String}
    (href : (table, column) ∈ n.refs) (h : outs.lookup (W.unicode.lower column) = some d) :
    Same (W.engine db) (W.row (shown P t db r)) (W.row r) (.colRef table column) d := by
  have hmasks := lookup_maskOutputs W.unicode W.parse (P.columns t) [] outs houts (W.unicode.lower column)
  rcases hmask : maskFor W.unicode (P.columns t) (W.unicode.lower column) with _ | mask
  · rw [hmask, h] at hmasks
    cases hmasks
  rw [hmask] at hmasks
  obtain ⟨ast, hparse, hd⟩ := hmasks
  obtain rfl : d = .paren ast := Option.some.inj (h.symm.trans hd)
  obtain ⟨p, hp, hp', rfl⟩ := P.mask_of_maskFor t _ mask hmask
  have heval : (Node.colRef table column).eval (W.engine db) (W.row (shown P t db r)) =
      (Node.paren ast).eval (W.engine db) (W.row r) := by
    rw [Node.eval, row_direct P t hdirect href, Node.eval]
    simp [shown, hmask, hparse]
  refine ⟨heval, ?_, ?_, ?_⟩
  · rw [Node.evalTuple, Node.evalTuple, hdirect.masks p hp hp' ast hparse]
    all_goals simp
  · exact congrArg (fun v => Interp.Candidates.list [v]) heval
  · exact congrArg Interp.Candidates.array heval

theorem keeps_direct {relation : String} {n m : Node} (hplain : n.hasOpaque = false)
    (hdirect : Direct P t relation n)
    (hm : m ∈ n.visited (MaskRefs.replacement W.unicode (maskRefs W.unicode outs relation)) fun m => !opaqueNode m)
    (hdeclines : MaskRefs.declines W.unicode (maskRefs W.unicode outs relation) m = false) :
    Keeps (W.engine db) (W.row (shown P t db r)) (W.row r)
      (MaskRefs.replacement W.unicode (maskRefs W.unicode outs relation)) (fun m => !opaqueNode m) m := by
  unfold Keeps
  rcases hrep : MaskRefs.replacement W.unicode _ m with _ | d
  · intro hleaf
    have hrow : ∀ ref ∈ m.refs, outs.lookup (W.unicode.lower ref.2) = none →
        W.row (shown P t db r) ref.1 ref.2 = W.row r ref.1 ref.2 := by
      intro ref href hnone
      have hin : ref ∈ n.refs := Node.mem_walk_of_visited _ _ _ hm href
      rw [row_direct P t hdirect hin, row_direct P t hdirect hin, shown_of_lookup P t outs houts db r hnone]
    refine ⟨fun ref href => hrow ref href ?_, fun sql hsql => ?_⟩
    · by_cases hop : opaqueNode m
      · exact lookup_of_undeclined outs _ m hop hdeclines _ (mem_collectASTColumnRefs W.unicode hplain
          (fun x hx => Node.mem_walk_of_visited _ _ _ hm hx) ref href)
      · obtain rfl := eq_colRef_of_leaf hop hleaf href
        have hkeep := resolve_of_kept outs _ ref.1 ref.2 hrep hdeclines
        rw [resolve_direct P t outs houts hdirect (mem_refs_of_visited hm)] at hkeep
        split at hkeep
        next hnone => exact hnone
        next => cases hkeep
    · have hin : sql ∈ n.subqueryTexts := Node.mem_walk_of_visited _ _ _ hm hsql
      rw [World.subqueryTexts_of_plain n hplain] at hin
      cases hin
  · cases m <;> simp only [MaskRefs.replacement, reduceCtorEq] at hrep
    next table column =>
      have hin := mem_refs_of_visited hm
      rw [resolve_direct P t outs houts hdirect hin] at hrep
      rcases hlookup : outs.lookup (W.unicode.lower column) with _ | e
      · simp [hlookup] at hrep
      · simp only [hlookup, Option.some.injEq] at hrep
        subst hrep
        exact same_mask P t outs houts db r hdirect hin hlookup

omit houts in
-- The rewritten expression on a stored record is the written one on the record
-- that SELECT shows.
theorem truth_rewriteExpr (table relation : String) (n out : Node) (hdirect : Direct P t relation n)
    (h : rewriteExpr W.unicode W.parse table relation (P.columns t) n = .ok out) :
    out.truth (W.engine db) (W.row r) = n.truth (W.engine db) (W.row (shown P t db r)) := by
  obtain ⟨hplain, -, outs, houts, ⟨rfl, rfl⟩ | hsub⟩ := rewriteExpr_cases P t table relation n out h
  · have hshown : shown P t db r = r := funext fun c => shown_of_lookup P t [] houts db r rfl
    rw [hshown]
  · obtain ⟨hany, rfl⟩ := substituteColRefs_eq_some W.unicode _ hsub
    have hsame := same_rewrite n fun m hm => keeps_direct P t outs houts db r hplain hdirect hm (hany m hm)
    rw [Node.truth, Node.truth, hsame.eval]

end Shown

end Wadjet.Auth.DmlPolicy
