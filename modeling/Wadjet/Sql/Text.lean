import Wadjet.Sql.Ast

namespace Wadjet.Sql

-- The tables of Go's `unicode` package that the planner reads. Outside ASCII
-- they are whatever the Unicode version says; inside, they are fixed.
structure Unicode where
  isLetter : Char → Bool
  toLower : Char → Char
  toUpper : Char → Char
  -- The representative of a rune's simple case folding orbit.
  fold : Char → Char
  isLetter_ascii : ∀ c, c.toNat < 128 → isLetter c = c.isAlpha
  toLower_ascii : ∀ c, c.toNat < 128 → toLower c = c.toLower
  toUpper_ascii : ∀ c, c.toNat < 128 → toUpper c = c.toUpper
  fold_ascii : ∀ c, c.toNat < 128 → fold c = c.toLower

-- The tables that know no letter outside ASCII.
def Unicode.ascii : Unicode where
  isLetter c := c.isAlpha
  toLower c := c.toLower
  toUpper c := c.toUpper
  fold c := c.toLower
  isLetter_ascii _ _ := rfl
  toLower_ascii _ _ := rfl
  toUpper_ascii _ _ := rfl
  fold_ascii _ _ := rfl

namespace Unicode

variable (U : Unicode)

-- `strings.ToLower`, `strings.ToUpper` and `strings.EqualFold`.
def lower (s : String) : String := String.ofList (s.toList.map U.toLower)

def upper (s : String) : String := String.ofList (s.toList.map U.toUpper)

def equalFold (s t : String) : Bool := s.toList.map U.fold == t.toList.map U.fold

theorem eq_empty_of_lower (s : String) (h : U.lower s = U.lower "") : s = "" := by
  have hlist : s.toList.map U.toLower = [] := by simpa [lower] using congrArg String.toList h
  exact String.toList_eq_nil_iff.mp (List.map_eq_nil_iff.mp hlist)

end Unicode

def keywords : List String :=
  ["CREATE", "OR", "REPLACE", "FUNCTION", "AS", "DROP", "IF", "EXISTS", "SHOW", "FUNCTIONS",
    "COLUMNS", "FROM", "EXPLAIN", "VERBOSE", "ANALYZE", "DESCRIBE", "DESC", "WITH", "LOCK",
    "TABLE", "TABLES", "NOT", "NULL", "PARTITION", "BY", "SELECT", "WHERE", "GROUP", "HAVING",
    "ORDER", "LIMIT", "OFFSET", "ASC", "DISTINCT", "ALL", "UNION", "INTERSECT", "EXCEPT", "AND",
    "IN", "BETWEEN", "LIKE", "ILIKE", "IS", "TRUE", "FALSE", "CASE", "WHEN", "THEN", "ELSE",
    "END", "CAST", "JOIN", "ON", "INNER", "LEFT", "RIGHT", "OUTER", "FULL", "CROSS", "NATURAL",
    "OVER", "NULLS", "FIRST", "LAST", "ROWS", "RANGE", "UNBOUNDED", "PRECEDING", "FOLLOWING",
    "CURRENT", "ROW", "CUBE", "ROLLUP", "GROUPING", "SETS", "FETCH", "VIEW", "ALTER", "ADD",
    "COLUMN", "RENAME", "TO", "UPDATE", "SET", "DELETE", "INSERT", "INTO", "VALUES", "MERGE",
    "USING", "MATCHED", "ALERT", "EVERY", "WEBHOOK", "HEADERS", "ENABLE", "DISABLE", "SECONDS",
    "MINUTES", "HOURS", "SNAPSHOT"]

-- `strings.ReplaceAll(s, q, qq)` for a one-character quote.
def doubled (quote : Char) (s : String) : String :=
  String.ofList (s.toList.flatMap fun c => if c = quote then [quote, quote] else [c])

section Render

variable (U : Unicode)

def runeNeedsQuoting (first : Bool) (c : Char) : Bool :=
  if c.isUpper then true
  else if c = '_' || U.isLetter c then false
  else if c.isDigit then first
  else true

variable (name : String)

def identNeedsQuoting : Bool :=
  match name.toList with
  | [] => true
  | c :: cs =>
    runeNeedsQuoting U true c || cs.any (runeNeedsQuoting U false) ||
      keywords.contains (U.upper name)

def quoteIdent : String :=
  if identNeedsQuoting U name then "\"" ++ doubled (Char.ofNat 34) name ++ "\"" else name

def colRefText (table column : String) : String :=
  if table = "" then quoteIdent U column else quoteIdent U table ++ "." ++ quoteIdent U column

def litText (value : String) : LiteralKind → String
  | .string => "'" ++ doubled (Char.ofNat 39) value ++ "'"
  | .null => "null"
  | .number | .bool => value

def BinOp.text : BinOp → String
  | .add => "+"
  | .sub => "-"
  | .mul => "*"
  | .div => "/"
  | .mod => "%"
  | .concat => "||"

def UnOp.text : UnOp → String
  | .neg => "-"
  | .pos => "+"

def CmpOp.text : CmpOp → String
  | .eq => "="
  | .ne => "!="
  | .lt => "<"
  | .le => "<="
  | .gt => ">"
  | .ge => ">="
  | .isDistinctFrom => "is distinct from"
  | .isNotDistinctFrom => "is not distinct from"

def IsCheck.text : IsCheck → String
  | .null => "null"
  | .true => "true"
  | .false => "false"

def Quantifier.text : Quantifier → String
  | .any => "ANY"
  | .all => "ALL"
  | .some => "SOME"

def notText (negated : Bool) : String := if negated then "not " else ""

def funcCallText (args : List String) (distinct star : Bool) (outputLabel : String) : String :=
  match outputLabel != "" && U.equalFold name "row_field", args with
  | true, [row, _] => "(" ++ row ++ ").\"" ++ doubled (Char.ofNat 34) outputLabel ++ "\""
  | _, _ =>
    if star then name ++ "(*)"
    else name ++ "(" ++ (if distinct then "distinct " else "") ++ ", ".intercalate args ++ ")"

mutual

def Node.text : Node → String
  | .colRef table column => colRefText U table column
  | .lit value kind => litText value kind
  | .literalPlaceholder name => ":" ++ name
  | .deferredError state message =>
    "__deferred_error(" ++ litText state .string ++ ", " ++ litText message .string ++ ")"
  | .star table => if table = "" then "*" else quoteIdent U table ++ ".*"
  | .binaryOp left op right => left.text ++ " " ++ op.text ++ " " ++ right.text
  | .unaryOp op inner => op.text ++ inner.text
  | .cmp left op right => left.text ++ " " ++ op.text ++ " " ++ right.text
  | .inExpr left negated values =>
    left.text ++ " " ++ notText negated ++ "in (" ++ ", ".intercalate (Node.texts values) ++ ")"
  | .between left negated low high =>
    left.text ++ " " ++ notText negated ++ "between " ++ low.text ++ " and " ++ high.text
  | .like left negated pattern => left.text ++ " " ++ notText negated ++ "like " ++ pattern.text
  | .is left negated check => left.text ++ " is " ++ notText negated ++ check.text
  | .and left right => left.text ++ " and " ++ right.text
  | .or left right => left.text ++ " or " ++ right.text
  | .not inner => "not " ++ inner.text
  | .paren inner => "(" ++ inner.text ++ ")"
  | .funcCall name args distinct starred label =>
    funcCallText U name (Node.texts args) distinct starred label
  | .caseWhen subject whens els =>
    "case" ++ Node.optText " " subject ++ Node.whenTexts whens ++ Node.optText " else " els ++ " end"
  | .cast inner typeName column =>
    let body := "cast(" ++ inner.text ++ " as " ++ typeName ++ ")"
    if column then "__column_value(" ++ body ++ ")" else body
  | .arrayLit elements => "ARRAY[" ++ ", ".intercalate (Node.texts elements) ++ "]"
  | .interval value unit => "INTERVAL '" ++ toString value ++ "' " ++ U.upper unit
  | .tuple elements => "(" ++ ", ".intercalate (Node.texts elements) ++ ")"
  | .anyAll left op modifier values =>
    left.text ++ " " ++ op.text ++ " " ++ modifier.text ++ " (" ++
      ", ".intercalate (Node.texts values) ++ ")"
  | .subquery sql array => (if array then "ARRAY(" else "(") ++ sql ++ ")"
  | .exists negated sql => notText negated ++ "exists (" ++ sql ++ ")"
  | .window func _ _ => func.text ++ " OVER (...)"

def Node.texts : List Node → List String
  | [] => []
  | n :: ns => n.text :: Node.texts ns

def Node.whenTexts : List (Node × Node) → String
  | [] => ""
  | (cond, result) :: ws => " when " ++ cond.text ++ " then " ++ result.text ++ Node.whenTexts ws

def Node.optText (lead : String) : Option Node → String
  | none => ""
  | some n => lead ++ n.text

end

end Render

example : Node.text Unicode.ascii (.cmp (.colRef "" "A") .eq (.lit "it's" .string)) =
    "\"A\" = 'it''s'" := by decide

end Wadjet.Sql
