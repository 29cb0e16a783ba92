import Wadjet.Sql.Rewrite
import Wadjet.Logical.ColumnPolicy

namespace Wadjet.Logical

open Wadjet.Sql List

-- `projRefs` as `SubstituteMaskedColumns` fills it: the definition of each
-- masked column, the last one written first, and the relation's folded name.
structure MaskRefs where
  outs : List (String × Node)
  names : List String

def simpleColRef : Node → Option (String × String)
  | .colRef table column => some (table, column)
  | .paren inner => simpleColRef inner
  | _ => none

-- What a reference becomes: it stays, it is replaced, or the whole rewrite is
-- declined.
inductive Resolution where
  | keep
  | replace (n : Node)
  | decline

def applyMask (definition : Node) (field : Option String) : Resolution :=
  match field with
  | none => .replace definition
  | some field =>
    match simpleColRef definition with
    | some ("", column) => .replace (.colRef column field)
    | _ => .decline

section Substitute

variable (U : Unicode) (p : MaskRefs)

def MaskRefs.resolve (table column : String) : Resolution :=
  if table = "" then
    match p.outs.lookup (U.lower column) with
    | none => .keep
    | some d => applyMask d none
  else
    match p.outs.lookup (U.lower (colRefText U table column)), p.outs.lookup (U.lower table),
      p.outs.lookup (U.lower column) with
    | some d, _, _ => applyMask d none
    | none, none, bare =>
      if U.lower table ∈ p.names then
        match bare with
        | none => .keep
        | some d => applyMask d none
      else .keep
    -- No field is declared here, so a bare column goes before the container.
    | none, some _, some d => applyMask d none
    | none, some container, none => applyMask container (some column)

def opaqueNode : Node → Bool
  | .anyAll .. | .window .. | .subquery .. | .exists .. | .star .. | .literalPlaceholder ..
  | .deferredError .. => true
  | _ => false

-- `collectASTColumnRefs` without the qualified spellings, which its reader
-- skips, and without the outer references of a subquery.
def collectASTColumnRefs (n : Node) : List String :=
  (n.walk Node.refLeaf fun m => match m with
    | .window .. => false
    | _ => true).map fun r => U.lower r.2

def MaskRefs.replacement : Node → Option Node
  | .colRef table column =>
    match p.resolve U table column with
    | .replace n => some n
    | _ => none
  | _ => none

def MaskRefs.declines (m : Node) : Bool :=
  match m with
  | .colRef table column =>
    match p.resolve U table column with
    | .decline => true
    | _ => false
  | m => opaqueNode m && (collectASTColumnRefs U m).any fun name => (p.outs.lookup name).isSome

-- `none` where the rewrite is declined.
def substituteColRefs (n : Node) : Option Node :=
  if (n.visited (p.replacement U) fun m => !opaqueNode m).any (p.declines U) then none
  else some (n.rewrite (p.replacement U) fun m => !opaqueNode m)

variable (parse : String → Option Node)

def maskOutputs : List ColumnPolicy → List (String × Node) → Option (List (String × Node))
  | [], outs => some outs
  | p :: ps, outs =>
    if p.masks then
      match parse p.maskExpr with
      | none => none
      | some ast => maskOutputs ps ((U.lower p.column, .paren ast) :: outs)
    else maskOutputs ps outs

def substituteMaskedColumns (expr : Node) (relation : String) (policies : List ColumnPolicy) :
    Option Node :=
  match maskOutputs U parse policies [] with
  | none => none
  | some outs =>
    if outs.isEmpty then some expr
    else substituteColRefs U ⟨outs, if relation = "" then [] else [U.lower relation]⟩ expr

end Substitute

section Outputs

variable (U : Unicode) (parse : String → Option Node) (policies : List ColumnPolicy)

theorem mem_maskOutputs (acc outs : List (String × Node))
    (h : maskOutputs U parse policies acc = some outs) (entry : String × Node) (hmem : entry ∈ outs) :
    entry ∈ acc ∨ ∃ p ∈ policies, p.masks ∧ ∃ ast, parse p.maskExpr = some ast ∧
      entry = (U.lower p.column, .paren ast) := by
  fun_induction maskOutputs U parse policies acc with
  | case1 acc =>
    obtain rfl := Option.some.inj h
    exact Or.inl hmem
  | case2 => cases h
  | case3 p ps acc hmasks ast hparse ih =>
    rcases ih h with hacc | ⟨q, hq, hfound⟩
    · rcases mem_cons.mp hacc with rfl | hacc
      · exact Or.inr ⟨p, mem_cons_self, hmasks, ast, hparse, rfl⟩
      · exact Or.inl hacc
    · exact Or.inr ⟨q, mem_cons_of_mem p hq, hfound⟩
  | case4 p ps acc hmasks ih =>
    exact (ih h).imp_right fun ⟨q, hq, hfound⟩ => ⟨q, mem_cons_of_mem p hq, hfound⟩

theorem lookup_maskOutputs_ne (acc outs : List (String × Node))
    (h : maskOutputs U parse policies acc = some outs) :
    (∀ name, (acc.lookup name).isSome → (outs.lookup name).isSome) ∧
    ∀ p ∈ policies, p.masks → (outs.lookup (U.lower p.column)).isSome := by
  fun_induction maskOutputs U parse policies acc with
  | case1 acc =>
    obtain rfl := Option.some.inj h
    exact ⟨fun _ hs => hs, fun p hp => nomatch hp⟩
  | case2 => cases h
  | case3 p ps acc hmasks ast hparse ih =>
    obtain ⟨hacc, hps⟩ := ih h
    refine ⟨fun name hs => hacc name ?_, fun q hq hm => ?_⟩
    · rw [lookup_cons]
      split <;> simp [hs]
    · rcases mem_cons.mp hq with rfl | hq
      · exact hacc _ (by simp)
      · exact hps q hq hm
  | case4 p ps acc hmasks ih =>
    obtain ⟨hacc, hps⟩ := ih h
    refine ⟨hacc, fun q hq hm => ?_⟩
    rcases mem_cons.mp hq with rfl | hq
    · exact absurd hm hmasks
    · exact hps q hq hm

end Outputs

variable (U : Unicode) (p : MaskRefs)

theorem substituteColRefs_eq_some {n out : Node} (h : substituteColRefs U p n = some out) :
    (∀ m ∈ n.visited (p.replacement U) fun m => !opaqueNode m, p.declines U m = false) ∧
      out = n.rewrite (p.replacement U) fun m => !opaqueNode m := by
  unfold substituteColRefs at h
  split at h
  · cases h
  next hany =>
    simp only [Bool.not_eq_true, any_eq_false] at hany
    exact ⟨fun m hm => by simpa using hany m hm, (Option.some.inj h).symm⟩

-- What is known of a reference that stays: its column has no mask, unless its
-- qualifier names neither the relation nor a masked column; and a masked
-- column never stays as its qualifier.
theorem MaskRefs.resolve_keep (table column : String) (h : p.resolve U table column = .keep) :
    ((table = "" ∨ U.lower table ∈ p.names) → p.outs.lookup (U.lower column) = none) ∧
      (table ≠ "" → p.outs.lookup (U.lower table) = none) := by
  unfold MaskRefs.resolve at h
  split at h
  next ht =>
    split at h
    next hnone => exact ⟨fun _ => hnone, fun hne => absurd ht hne⟩
    next => cases h
  next ht =>
    split at h
    · cases h
    next hfull hcontainer =>
      refine ⟨fun hscope => ?_, fun _ => hcontainer⟩
      rw [if_pos (hscope.resolve_left ht)] at h
      split at h
      next hbare => exact hbare
      next => cases h
    · cases h
    next container _ hcontainer _ =>
      unfold applyMask at h
      split at h
      · cases h
      · split at h <;> cases h

-- What a reference is replaced by: a mask, or a field of the column that a
-- mask names, where that field is not masked itself.
theorem MaskRefs.resolve_replace (table column : String) (n : Node)
    (h : p.resolve U table column = .replace n) :
    (∃ name, p.outs.lookup name = some n) ∨
    ∃ name d base, p.outs.lookup name = some d ∧ simpleColRef d = some ("", base) ∧
      n = .colRef base column ∧ p.outs.lookup (U.lower column) = none := by
  unfold MaskRefs.resolve at h
  split at h
  · split at h
    · cases h
    next d hd =>
      obtain rfl : d = n := by simpa [applyMask] using h
      exact Or.inl ⟨_, hd⟩
  · split at h
    next d hd =>
      obtain rfl : d = n := by simpa [applyMask] using h
      exact Or.inl ⟨_, by assumption⟩
    next =>
      split at h
      · split at h
        · cases h
        next d hd =>
          obtain rfl : d = n := by simpa [applyMask] using h
          exact Or.inl ⟨_, by assumption⟩
      · cases h
    next d _ _ _ =>
      obtain rfl : d = n := by simpa [applyMask] using h
      exact Or.inl ⟨_, by assumption⟩
    next container hfull hcontainer hbare =>
      simp only [applyMask] at h
      split at h
      next base hbase =>
        exact Or.inr ⟨_, container, base, hcontainer, hbase, (Resolution.replace.inj h).symm, hbare⟩
      next => cases h

theorem simpleColRef_refs (n : Node) (ref : String × String) (h : simpleColRef n = some ref) :
    ref ∈ n.refs := by
  fun_induction simpleColRef n with
  | case1 table column =>
    obtain rfl := Option.some.inj h
    simp [Node.refs, Node.walk, Node.refLeaf]
  | case2 inner ih => exact Node.mem_walk_of_child (c := inner) (by simp) (ih h)
  | case3 => cases h

end Wadjet.Logical
