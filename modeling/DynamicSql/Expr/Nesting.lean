import DynamicSql.Text.Basic

/-!
How deep the parentheses of a text nest, told by one pass over its characters before any rule is tried.
Parentheses between quotes do not count, and a backslash between quotes takes the next character with it.
-/
namespace DynamicSql.Expr

inductive Quoting where
  | outside
  | inside (quote : Char)
  | escaped (quote : Char)
  deriving DecidableEq, Repr

def maxNesting : Nat := 32

/-- No parenthesis opens inside `limit` others; `depth` are open already. -/
def nestsWithin (limit depth : Nat) : Quoting → Text → Bool
  | _, [] => true
  | .escaped q, _ :: r => nestsWithin limit depth (.inside q) r
  | .inside q, c :: r =>
    nestsWithin limit depth
      (if c = '\\' then .escaped q else if c = q then .outside else .inside q) r
  | .outside, c :: r =>
    if c = '\x27' ∨ c = '\x22' then nestsWithin limit depth (.inside c) r
    else if c = '(' then
      if depth < limit then nestsWithin limit (depth + 1) .outside r else false
    else if c = ')' then nestsWithin limit (depth - 1) .outside r
    else nestsWithin limit depth .outside r

def nestingOk (s : Text) : Bool := nestsWithin maxNesting 0 .outside s

end DynamicSql.Expr
