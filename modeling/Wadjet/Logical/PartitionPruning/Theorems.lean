import Wadjet.Logical.PartitionPruning.Model

namespace Wadjet.Logical.PartitionPruning

open Wadjet.Sql Wadjet.Storage List

theorem mem_set (m : PartitionFilter) (key value : String) (entry : String × String)
    (h : entry ∈ m.set key value) : entry ∈ m ∨ entry = (key, value) := by
  rcases mem_cons.mp h with h | h
  · exact Or.inr h
  · exact Or.inl (mem_filter.mp h).1

section Extraction

variable (U : Unicode)

def equalities : Node → List Equality
  | .cmp left .eq right =>
    (equality? left right).toList.filter fun e => columnKey U e.column ∈ partitionKeys
  | .and left right => equalities left ++ equalities right
  | .paren inner => equalities inner
  | _ => []

def Chain.equalities : Chain → List Equality
  | .scan => []
  | .filter predicates child => predicates.flatMap (PartitionPruning.equalities U) ++ child.equalities
  | .project _ child => child.equalities

def Equality.entry (e : Equality) : String × String := (columnKey U e.column, e.text)

theorem extractColLiteral_cases (left right : Node) :
    extractColLiteral U left right = ("", "") ∨
      ∃ e, equality? left right = some e ∧ extractColLiteral U left right = e.entry U := by
  unfold extractColLiteral
  split
  · next h =>
    refine Or.inr ?_
    cases left <;> simp [exprColName] at h
    cases right <;> simp [exprLiteral] at h
    exact ⟨_, rfl, rfl⟩
  · split
    · next h =>
      refine Or.inr ?_
      cases right <;> simp [exprColName] at h
      cases left <;> simp [exprLiteral] at h
      exact ⟨_, rfl, rfl⟩
    · exact Or.inl rfl

theorem mem_extractFromAST (n : Node) (m : PartitionFilter) (entry : String × String)
    (h : entry ∈ extractFromAST U n m) :
    entry ∈ m ∨ entry ∈ (equalities U n).map (Equality.entry U) := by
  fun_induction extractFromAST U n m with
  | case1 left right result col val heq hkey =>
    refine (mem_set result col val entry h).imp_right fun hentry => ?_
    rcases extractColLiteral_cases U left right with hnone | ⟨e, he, hpair⟩
    · rw [heq] at hnone
      exact absurd (congrArg Prod.fst hnone) hkey.1
    · rw [heq] at hpair
      obtain ⟨rfl, rfl⟩ := Prod.mk.inj hpair
      simp [equalities, he, hkey.2, hentry, Equality.entry]
  | case2 => exact Or.inl h
  | case3 left right result ihl ihr =>
    rcases ihr h with h | h
    · exact (ihl h).imp_right fun h => by simp [equalities] at h ⊢; exact Or.inl h
    · exact Or.inr (by simp [equalities] at h ⊢; exact Or.inr h)
  | case4 inner result ih => exact ih h
  | case5 => exact Or.inl h

theorem mem_extractPartitionEqualities (predicates : List Node) (entry : String × String)
    (h : entry ∈ extractPartitionEqualities U predicates) :
    entry ∈ (predicates.flatMap (equalities U)).map (Equality.entry U) := by
  have hfold : ∀ (ps : List Node) (m : PartitionFilter),
      entry ∈ ps.foldl (fun result p => extractFromAST U p result) m →
        entry ∈ m ∨ entry ∈ (ps.flatMap (equalities U)).map (Equality.entry U) := by
    intro ps
    induction ps with
    | nil => exact fun m h => Or.inl h
    | cons p ps ih =>
      intro m h
      rw [flatMap_cons, map_append, mem_append]
      rcases ih _ h with h | h
      · exact (mem_extractFromAST U p m entry h).imp_right Or.inl
      · exact Or.inr (Or.inr h)
  exact (hfold predicates [] h).resolve_left (not_mem_nil)

theorem mem_foldl_set (extracted m : PartitionFilter) (entry : String × String)
    (h : entry ∈ extracted.foldl (fun m e => m.set e.1 e.2) m) : entry ∈ m ∨ entry ∈ extracted := by
  induction extracted generalizing m with
  | nil => exact Or.inl h
  | cons e extracted ih =>
    rcases ih _ h with h | h
    · exact (mem_set m e.1 e.2 entry h).imp_right fun h => by simp [h]
    · exact Or.inr (mem_cons_of_mem e h)

theorem mem_extractPartitionFilters (chain : Chain) (entry : String × String)
    (h : entry ∈ extractPartitionFilters U chain) :
    ∃ e ∈ chain.equalities U, e.entry U = entry := by
  induction chain with
  | scan => cases h
  | filter predicates child ih =>
    rcases mem_foldl_set _ _ entry h with h | h
    · obtain ⟨e, he, hentry⟩ := ih h
      exact ⟨e, mem_append_right _ he, hentry⟩
    · obtain ⟨e, he, hentry⟩ := mem_map.mp (mem_extractPartitionEqualities U predicates entry h)
      exact ⟨e, mem_append_left _ he, hentry⟩
  | project items child ih => exact ih h

theorem key_of_mem_equalities (n : Node) (e : Equality) (h : e ∈ equalities U n) :
    columnKey U e.column ∈ partitionKeys := by
  fun_induction equalities U n with
  | case1 left right => simpa using (mem_filter.mp h).2
  | case2 left right ihl ihr => exact (mem_append.mp h).elim ihl ihr
  | case3 inner ih => exact ih h
  | case4 => cases h

end Extraction

section Soundness

variable (U : Unicode) (E : Engine) (fields : Fields) (stored : String → Option Stored)

-- A projection hands a partition key up under its own name or not at all.
def Chain.KeepsKeys : Chain → Prop
  | .scan => True
  | .filter _ child => child.KeepsKeys
  | .project items child =>
    (∀ item ∈ items, U.lower item.1 ∈ partitionKeys →
      ∃ table column, item.2 = .colRef table column ∧ columnKey U column = U.lower item.1 ∧
        fields table = none) ∧ child.KeepsKeys

theorem holds_of_mem_equalities (ρ : Row Stored) (n : Node) (h : satisfies E ρ n) (e : Equality)
    (he : e ∈ equalities U n) : e.holds E ρ := by
  fun_induction equalities U n with
  | case1 left right =>
    have hsome : equality? left right = some e := by
      simpa using (mem_filter.mp he).1
    simpa [satisfies, hsome] using h
  | case2 left right ihl ihr =>
    rw [satisfies, Bool.and_eq_true] at h
    exact (mem_append.mp he).elim (ihl h.1) (ihr h.2)
  | case3 inner ih => exact ih (by simpa [satisfies] using h) he
  | case4 => cases he

theorem Chain.run_key (chain : Chain) (hkeeps : chain.KeepsKeys U fields) (ρ : Row Stored)
    (hrun : chain.run U E fields stored = some ρ) (table column : String)
    (hkey : columnKey U column ∈ partitionKeys) (hfield : fields table = none) (v : Stored)
    (hv : ρ table column = some v) : stored (columnKey U column) = some v := by
  induction chain generalizing ρ table column with
  | scan =>
    obtain rfl := Option.some.inj hrun
    simpa [resolve, hfield] using hv
  | filter predicates child ih =>
    exact ih hkeeps ρ (Option.filter_eq_some_iff.mp hrun).1 table column hkey hfield hv
  | project items child ih =>
    obtain ⟨inner, hinner, rfl⟩ := Option.map_eq_some_iff.mp hrun
    simp only [resolve, hfield] at hv
    obtain ⟨item, hfind, hitem⟩ := Option.bind_eq_some_iff.mp hv
    have hname : U.lower item.1 = columnKey U column := by simpa using find?_some hfind
    obtain ⟨t, c, hnode, hc, ht⟩ :=
      hkeeps.1 item (mem_of_find?_eq_some hfind) (hname ▸ hkey)
    rw [hnode] at hitem
    have hcol := hc.trans hname
    rw [← hcol] at hkey ⊢
    exact ih hkeeps.2 inner hinner t c hkey ht hitem

theorem Chain.holds_of_run (chain : Chain) (hkeeps : chain.KeepsKeys U fields)
    (hrun : (chain.run U E fields stored).isSome) (e : Equality) (he : e ∈ chain.equalities U)
    (hfield : fields e.table = none) :
    ∃ v, stored (columnKey U e.column) = some v ∧ E.literalEquals v e.text e.kind := by
  induction chain with
  | scan => cases he
  | filter predicates child ih =>
    obtain ⟨ρ, hρ⟩ := Option.isSome_iff_exists.mp hrun
    obtain ⟨hchild, hall⟩ := Option.filter_eq_some_iff.mp hρ
    rcases mem_append.mp he with he | he
    · obtain ⟨n, hn, he⟩ := mem_flatMap.mp he
      have hholds := holds_of_mem_equalities U E ρ n (all_eq_true.mp hall n hn) e he
      obtain ⟨v, hv, heq⟩ := (Option.any_eq_true _ _).mp hholds
      exact ⟨v, child.run_key U E fields stored hkeeps ρ hchild e.table e.column
        (key_of_mem_equalities U n e he) hfield v hv, heq⟩
    · exact ih hkeeps (by simp [hchild]) he
  | project items child ih => exact ih hkeeps.2 (by simpa [Chain.run] using hrun) he

end Soundness

section Rows

variable (U : Unicode) (E : Engine) (schema : List Column) (keys : List String)

-- A literal of the column's family that names the row's value is spelled as the
-- value came: an integer in plain digits, a date or timestamp with the row's own
-- text, and a value that came as days or milliseconds only where it is infinite.
def SpelledFor : ColType → Box → String → LiteralKind → Prop
  | .string, _, _, .string => True
  | .int32, .int _ n, text, .number | .int64, .int _ n, text, .number =>
    E.numeral text = some n → toString n = text
  | .int32, .float n, text, .number | .int64, .float n, text, .number =>
    E.numeral text = some n → E.spelling.floatText n = text
  | .date, .text s, text, .string => ∀ days, E.spelling.parseDateDays s = some days →
    E.spelling.parseDateDays text = some days → s = text
  | .date, .time t, text, .string => E.spelling.parseDateDays text = some t.days → t.dateText = text
  | .date, .int kind n, text, .string => E.spelling.parseDateDays text = some n →
    kind = .int32 ∧ (n = datePosInfinity ∧ text = "infinity" ∨ n = dateNegInfinity ∧ text = "-infinity")
  | .timestamp, .text s, text, .string => ∀ millis, E.spelling.parseTimestampMillis s = some millis →
    E.spelling.parseTimestampMillis text = some millis → s = text
  | .timestamp, .time t, text, .string =>
    E.spelling.parseTimestampMillis text = some t.millis → t.rfc3339 = text
  | .timestamp, .int _ n, text, .string => E.spelling.parseTimestampMillis text = some n →
    n = timestampPosInfinity ∧ text = "infinity" ∨ n = timestampNegInfinity ∧ text = "-infinity"
  | _, _, _, .null => True
  | _, _, _, _ => False

def Spelled (row : InputRow) (e : Equality) : Prop :=
  columnKey U e.column ∈ keys → ∀ type box, columnType schema (columnKey U e.column) = some type →
    row (columnKey U e.column) = some box → SpelledFor E type box e.text e.kind

def ofFamily : ColType → LiteralKind → Bool
  | .int32, .number | .int64, .number => true
  | .string, .string | .date, .string | .timestamp, .string => true
  | _, _ => false

-- Days and milliseconds are the carriers of infinite values.
def isCarrier : ColType → Box → Bool
  | .date, .int _ _ | .timestamp, .int _ _ => true
  | _, _ => false

section Written

variable {key : String} {type : ColType} {box : Box} {v : Stored} {text : String} {kind : LiteralKind}
  (htype : columnType schema key = some type) (hv : leafValue E.spelling type box = some v)

include htype hv

theorem spelledFor_iff (hfamily : ofFamily type kind) (hbox : isCarrier type box = false) :
    SpelledFor E type box text kind ↔
      (E.literalEquals v text kind → formatPartitionValue E.spelling schema key box = text) := by
  have hint : ∀ (kind : IntKind) (n : Int), type = .int32 ∨ type = .int64 →
      formatPartitionValue E.spelling schema key (.int kind n) = toString n := by
    rintro kind n (rfl | rfl) <;> simp [formatPartitionValue, htype]
  cases type <;> cases kind <;> simp only [ofFamily, Bool.false_eq_true] at hfamily <;>
    cases box <;> simp only [isCarrier, Bool.true_eq_false] at hbox <;>
    simp only [leafValue, keep, reduceCtorEq, Option.map_eq_some_iff, Option.ite_none_right_eq_some,
      Option.some.injEq] at hv
  case int32.number.int | int64.number.int =>
    obtain ⟨-, rfl⟩ := hv
    simp [SpelledFor, Engine.literalEquals, hint]
  case int32.number.float | int64.number.float =>
    obtain ⟨-, rfl⟩ := hv
    simp [SpelledFor, Engine.literalEquals, formatPartitionValue]
  case string.string.text =>
    obtain rfl := hv
    simp [SpelledFor, Engine.literalEquals, formatPartitionValue]
  case date.string.text | timestamp.string.text =>
    obtain ⟨days, hdays, rfl⟩ := hv
    simp [SpelledFor, Engine.literalEquals, formatPartitionValue, hdays]
  case date.string.time | timestamp.string.time =>
    obtain ⟨-, rfl⟩ := hv
    simp [SpelledFor, Engine.literalEquals, formatPartitionValue, htype]

theorem formatPartitionValue_carrier (hcarrier : isCarrier type box)
    (hspelled : SpelledFor E type box text .string) (heq : E.literalEquals v text .string) :
    formatPartitionValue E.spelling schema key box = text := by
  cases type <;> cases box <;> simp only [isCarrier, Bool.false_eq_true] at hcarrier
  case date.int kind n =>
    have hstored : v = .date n := by
      cases kind <;> simp_all [leafValue, keep]
    have hnames : E.spelling.parseDateDays text = some n := by
      simpa [hstored, Engine.literalEquals] using heq
    obtain ⟨rfl, ⟨rfl, rfl⟩ | ⟨rfl, rfl⟩⟩ := hspelled hnames <;>
      simp [formatPartitionValue, htype, isInfiniteDate, datePosInfinity, dateNegInfinity]
  case timestamp.int kind n =>
    obtain ⟨rfl, hstored⟩ : kind = .int64 ∧ v = .timestamp n := by
      cases kind <;> simp_all [leafValue, keep]
    have hnames : E.spelling.parseTimestampMillis text = some n := by
      simpa [hstored, Engine.literalEquals] using heq
    obtain ⟨rfl, rfl⟩ | ⟨rfl, rfl⟩ := hspelled hnames <;>
      simp [formatPartitionValue, htype, isInfiniteTimestamp, timestampPosInfinity, timestampNegInfinity]

theorem formatPartitionValue_spelled (hspelled : SpelledFor E type box text kind)
    (heq : E.literalEquals v text kind) : formatPartitionValue E.spelling schema key box = text := by
  by_cases hfamily : ofFamily type kind
  · cases hbox : isCarrier type box with
    | false => exact (spelledFor_iff E schema htype hv hfamily hbox).mp hspelled heq
    | true =>
      obtain rfl : kind = .string := by
        cases type <;> cases box <;> cases kind <;> simp_all [isCarrier, ofFamily]
      exact formatPartitionValue_carrier E schema htype hv hbox hspelled heq
  · -- a literal of another family is spelled as nothing, and NULL equals nothing
    cases type <;> cases kind <;> simp_all [ofFamily, SpelledFor, Engine.literalEquals]

end Written

theorem matchesPartitionFilter_iff (row : InputRow) (values : List (String × String))
    (hroute : route E.spelling schema keys row = some values) (filter : PartitionFilter) :
    matchesPartitionFilter values filter ↔ ∀ entry ∈ filter, entry.1 ∈ keys →
      ∀ box, row entry.1 = some box → formatPartitionValue E.spelling schema entry.1 box = entry.2 := by
  unfold matchesPartitionFilter
  rw [all_eq_true]
  refine forall₂_congr fun entry _ => ?_
  have hlookup := lookup_route E.spelling schema keys row values hroute entry.1
  cases hpv : values.lookup entry.1 with
  | none =>
    refine iff_of_true rfl fun hkey box hbox => ?_
    have := (hlookup (formatPartitionValue E.spelling schema entry.1 box)).mpr ⟨hkey, by simp [hbox]⟩
    simp [hpv] at this
  | some pv =>
    obtain ⟨hkey, hmap⟩ := (hlookup pv).mp hpv
    obtain ⟨box, hbox, rfl⟩ := Option.map_eq_some_iff.mp hmap
    simp [hkey, hbox]

theorem extractPartitionFilters_single (e : Equality) (hkey : columnKey U e.column ∈ partitionKeys)
    (htext : e.text ≠ "") :
    extractPartitionFilters U (.filter [e.node] .scan) = [e.entry U] := by
  have hne : columnKey U e.column ≠ "" := by
    intro h
    rw [h] at hkey
    exact absurd hkey (by decide)
  simp [extractPartitionFilters, extractPartitionEqualities, extractFromAST, extractColLiteral,
    exprColName, exprLiteral, Equality.node, hne, htext, hkey, PartitionFilter.set, Equality.entry]

theorem run_single (fields : Fields) (stored : String → Option Stored) (e : Equality)
    (hfield : fields e.table = none) :
    (Chain.run U E fields stored (.filter [e.node] .scan)).isSome ↔
      ∃ v, stored (columnKey U e.column) = some v ∧ E.literalEquals v e.text e.kind := by
  simp only [Chain.run, Option.isSome_filter, Option.any_some, all_cons, all_nil,
    Bool.and_true, Equality.node, satisfies, equality?, Equality.holds, resolve, hfield]
  exact Option.any_eq_true _ _

end Rows

-- A table partitioned by `month`, and an engine that knows no more than the
-- typed comparisons.
def plainEngine : Engine where
  spelling := ⟨fun _ => "", fun _ => none, fun _ => none⟩
  wholeNumber _ := none
  mixed _ _ _ := false
  other _ _ := false
  computed _ _ := none

def monthSchema : List Column := [⟨"month", .int32, false⟩, ⟨"m2", .int32, true⟩]

def january : InputRow := fun name =>
  if name = "month" then some (.int .int32 1) else if name = "m2" then some (.int .int32 7) else none

def noFields : Fields := fun _ => none

def periodFields : Fields := fun table =>
  if table = "period" then some fun _ => some (.int 7) else none

def monthIs (table text : String) : Node := Equality.node ⟨table, "month", text, .number⟩

end Wadjet.Logical.PartitionPruning
