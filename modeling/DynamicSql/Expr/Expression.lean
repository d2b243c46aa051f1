import DynamicSql.Expr.Evaluation
import DynamicSql.Expr.Parsing
import DynamicSql.Fault

/-!
Expressions with their source, and renaming of the names that their paths begin with.
-/
namespace DynamicSql

structure Expression where
  /-- The text without the blanks around it. -/
  source : Text
  expr : Expr
  deriving Inhabited

namespace Expression

def fault (source : Text) (message : String) : Fault :=
  Fault.invalidExpression (String.ofList source) message

def parse (s : Text) : Except Fault Expression :=
  match Expr.parse s with
  | .ok e => .ok ⟨Text.trim s, e⟩
  | .error e => .error (fault s e.message)

/-- The path that the expression is, if it is nothing else. -/
def asPath? (e : Expression) : Option Text :=
  match e.expr with
  | .path p => some p
  | _ => none

def evaluate (e : Expression) (scope : Scope) : Except Fault Value :=
  match e.expr.eval scope with
  | .ok v => .ok v
  | .error error => .error (fault e.source error.message)

def test (e : Expression) (scope : Scope) : Except Fault Bool :=
  (e.evaluate scope).map Value.truthy

end Expression

/-- Names with the aliases that stand for them. -/
abbrev Renames := List (Text × Text)

namespace Expr

/-- The first name of a path, with the place where it begins. -/
def headOf : List Tree → List (Nat × Text)
  | .leaf _ start head :: _ => [(start, head)]
  | _ => []

mutual

/-- The first names of all paths, from left to right. -/
def heads : Tree → List (Nat × Text)
  | .leaf _ _ _ => []
  | .node .path _ children => headOf children
  | .node _ _ children => headsOfAll children

def headsOfAll : List Tree → List (Nat × Text)
  | [] => []
  | t :: rest => heads t ++ headsOfAll rest

end

/-- A stretch of text with what takes its place. -/
structure Edit where
  start : Nat
  length : Nat
  replacement : Text
  deriving DecidableEq, Repr

def edits (renames : Renames) (heads : List (Nat × Text)) : List Edit :=
  heads.filterMap fun (start, head) =>
    (renames.lookup head).map fun replacement => ⟨start, head.length, replacement⟩

/-- Makes the edits, which come in order, in a text of which so many characters are done. -/
def applyEdits (done : Nat) (s : Text) : List Edit → Text
  | [] => s
  | e :: rest =>
    s.take (e.start - done) ++ e.replacement ++
      applyEdits (e.start + e.length) (s.drop (e.start - done + e.length)) rest

/--
The source with every path that begins with a name beginning with its alias; nothing when there is no
such path. Later segments and the texts of literals stay.
-/
def renameRoots (s : Text) (renames : Renames) : Except Fault (Option Text) :=
  match parseTree s with
  | .error e => .error (Expression.fault s e.message)
  | .ok tree =>
    match edits renames (heads tree) with
    | [] => .ok none
    | es => .ok (some (applyEdits 0 s es))

end Expr

end DynamicSql
