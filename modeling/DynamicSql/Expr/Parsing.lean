import DynamicSql.Decimal.Reading
import DynamicSql.Expr.Basic
import DynamicSql.Expr.Grammar
import DynamicSql.Expr.Nesting

/-!
From texts to expressions: the tree of the grammar, and the expression that the tree stands for.
-/
namespace DynamicSql.Expr

abbrev Tree := Peg.Tree Rule

inductive ParseError where
  | tooDeep
  /-- The text goes wrong at that column, counted from one. -/
  | unexpected (column : Nat)
  /-- A whole number beyond 64 bits. -/
  | badNumber (text : Text)
  /-- A tree that no text has. -/
  | malformed
  deriving DecidableEq, Repr, Inhabited

def ParseError.message : ParseError → String
  | tooDeep =>
    let limit := maxNesting
    s!"parentheses nest deeper than {limit} levels"
  | unexpected column => s!"syntax error at column {column}"
  | badNumber text =>
    let text := String.ofList text
    s!"invalid number '{text}'"
  | malformed => "malformed expression"

/-- A backslash gives way to the character after it. -/
def unescape : Text → Text
  | [] => []
  | ['\\'] => []
  | '\\' :: c :: r => c :: unescape r
  | c :: r => c :: unescape r

/-- The text between the quotes. -/
def stringText : List Tree → Text
  | .leaf _ _ s :: _ => unescape s
  | _ => []

def pathTail : List Tree → Text
  | [] => []
  | .leaf .index _ s :: rest => '[' :: (s ++ ']' :: pathTail rest)
  | .leaf _ _ s :: rest => '.' :: (s ++ pathTail rest)
  | .node _ _ children :: rest => '.' :: (stringText children ++ pathTail rest)

/-- A path in its usual form: dotted names, bracketed indices. -/
def pathText : List Tree → Text
  | .leaf _ _ head :: rest => head ++ pathTail rest
  | trees => pathTail trees

def compareOp (s : Text) : CompareOp :=
  if s = "==".toList ∨ s = "eq".toList then .eq
  else if s = "!=".toList ∨ s = "neq".toList then .ne
  else if s = "<".toList ∨ s = "lt".toList then .lt
  else if s = "<=".toList ∨ s = "lte".toList then .le
  else if s = ">".toList ∨ s = "gt".toList then .gt
  else .ge

def addOp (s : Text) : AddOp := if s = ['+'] then .add else .sub

/-- A chain of one operand is the operand. -/
def chain (join : List Expr → Expr) : List Expr → Expr
  | [e] => e
  | es => join es

def counted (wrap : Nat → Expr → Expr) (count : Nat) (e : Expr) : Expr :=
  if count = 0 then e else wrap count e

mutual

/-- The expression that a tree stands for. -/
def ofTree : Tree → Except ParseError Expr
  | .leaf .null _ _ => .ok (.literal .null)
  | .leaf .bool _ s => .ok (.literal (.bool (s == "true".toList)))
  | .leaf .int _ s =>
    match Text.readInt? s with
    | some i => .ok (.literal (.int i))
    | none => .error (.badNumber s)
  | .leaf .float _ s =>
    match Decimal.readFloat? s with
    | some x => .ok (.literal (.float x))
    | none => .error (.badNumber s)
  | .node .string _ children => .ok (.literal (.text (stringText children)))
  | .node .path _ children => .ok (.path (pathText children))
  | .node .orExpr _ children => (ofOperands children).map (chain .or)
  | .node .andExpr _ children => (ofOperands children).map (chain .and)
  | .node .notExpr _ children => ofPrefixed .not 0 children
  | .node .unary _ children => ofPrefixed .neg 0 children
  | .node .comparison _ children => ofComparison children
  | .node .additive _ children => ofSum children
  | _ => .error .malformed

/-- The operands of a chain; the operators between them are all alike. -/
def ofOperands : List Tree → Except ParseError (List Expr)
  | [] => .ok []
  | .leaf _ _ _ :: rest => ofOperands rest
  | .node rule start children :: rest => do
    let e ← ofTree (.node rule start children)
    let es ← ofOperands rest
    return e :: es

/-- Counts the operators before an operand. -/
def ofPrefixed (wrap : Nat → Expr → Expr) (count : Nat) : List Tree → Except ParseError Expr
  | [] => .error .malformed
  | .leaf .notOp _ _ :: rest => ofPrefixed wrap (count + 1) rest
  | .leaf .negOp _ _ :: rest => ofPrefixed wrap (count + 1) rest
  | t :: _ => (ofTree t).map (counted wrap count)

def ofComparison : List Tree → Except ParseError Expr
  | [left, .leaf _ _ op, right] => do
    let l ← ofTree left
    let r ← ofTree right
    return .compare (compareOp op) l r
  | [left] => ofTree left
  | _ => .error .malformed

def ofSum : List Tree → Except ParseError Expr
  | [] => .error .malformed
  | [first] => ofTree first
  | first :: rest => do
    let e ← ofTree first
    let es ← ofAddends rest
    return .sum e es

def ofAddends : List Tree → Except ParseError (List (AddOp × Expr))
  | [] => .ok []
  | .leaf _ _ op :: t :: rest => do
    let e ← ofTree t
    let es ← ofAddends rest
    return (addOp op, e) :: es
  | _ => .error .malformed

end

/-- One more than the characters since the last line break before a place. -/
def column (s : Text) (place : Nat) : Nat :=
  ((s.take place).reverse.takeWhile (· != '\n')).length + 1

/-- The tree of a whole text that is an expression. -/
def parseTree (s : Text) : Except ParseError Tree :=
  if nestingOk s then
    match Peg.parse Grammar.expression Grammar.orExpr (maxNesting + 1) s with
    | ⟨_, some (_, [.node .expression _ (tree :: _)])⟩ => .ok tree
    | ⟨_, some _⟩ => .error .malformed
    | ⟨furthest, none⟩ => .error (.unexpected (column s furthest))
  else .error .tooDeep

def parse (s : Text) : Except ParseError Expr := (parseTree s).bind ofTree

/-- Where a parenthesis stays open, the text goes wrong at its end: an operator might have followed there. -/
example :
    (Peg.parse Grammar.expression Grammar.orExpr 2 "(x||a&&b<1-2".toList).furthest = 12 := by
  decide +kernel

end DynamicSql.Expr
