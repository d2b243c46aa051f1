import DynamicSql.Value.Path

/-!
Expressions of tests, collections, bindings and splices. Chains of one operator are flat, and repeated prefix
operators are counted, so only parentheses nest.
-/
namespace DynamicSql

inductive CompareOp where
  | eq | ne | lt | le | gt | ge
  deriving DecidableEq, Repr, Inhabited

inductive AddOp where
  | add | sub
  deriving DecidableEq, Repr, Inhabited

inductive Expr where
  | literal (v : Value)
  | path (p : Text)
  /-- So many negations of the truth of an expression. -/
  | not (count : Nat) (e : Expr)
  /-- So many changes of sign. -/
  | neg (count : Nat) (e : Expr)
  | and (operands : List Expr)
  | or (operands : List Expr)
  | compare (op : CompareOp) (left right : Expr)
  | sum (first : Expr) (rest : List (AddOp × Expr))
  deriving Inhabited

/-- Where paths are looked up. -/
abbrev Scope := Text → Option Value

def Value.scope (v : Value) : Scope := v.path?

end DynamicSql
