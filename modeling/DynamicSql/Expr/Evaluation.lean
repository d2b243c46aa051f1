import DynamicSql.Expr.Comparison
import DynamicSql.Value.Type

/-!
The value of an expression in a scope. A path that leads nowhere is null. Integers are added, subtracted and
negated exactly or not at all; a sum with a text joins texts.
-/
namespace DynamicSql

inductive EvalError where
  | overflow
  | cannotNegate (type : ValueType)
  | cannotAdd (left right : ValueType)
  | cannotSubtract (left right : ValueType)
  deriving DecidableEq, Repr, Inhabited

def EvalError.message : EvalError → String
  | overflow => "integer overflow"
  | cannotNegate t =>
    let t := t.name
    s!"cannot negate {t}"
  | cannotAdd l r =>
    let l := l.name
    let r := r.name
    s!"cannot add {l} and {r}"
  | cannotSubtract l r =>
    let l := l.name
    let r := r.name
    s!"cannot subtract {r} from {l}"

namespace Value

/-- The integer value, where it fits 64 bits. -/
def exact (i : Int) : Except EvalError Value :=
  match Integer.ofInt? i with
  | some n => .ok (int n)
  | none => .error .overflow

def negate : Value → Except EvalError Value
  | int i => exact (-i.toInt)
  | float x => .ok (float (-x))
  | v => .error (.cannotNegate v.type)

def negateTimes : Nat → Value → Except EvalError Value
  | 0, v => .ok v
  | count + 1, v =>
    match v.negate with
    | .ok w => negateTimes count w
    | .error e => .error e

def addFloats (v w : Value) : Except EvalError Value :=
  match v.asFloat?, w.asFloat? with
  | some x, some y => .ok (float (x + y))
  | _, _ => .error (.cannotAdd v.type w.type)

def add : Value → Value → Except EvalError Value
  | text s, w => .ok (text (s ++ w.spliced))
  | v, text t => .ok (text (v.spliced ++ t))
  | int i, int j => exact (i.toInt + j.toInt)
  | v, w => addFloats v w

def subtractFloats (v w : Value) : Except EvalError Value :=
  match v.asFloat?, w.asFloat? with
  | some x, some y => .ok (float (x - y))
  | _, _ => .error (.cannotSubtract v.type w.type)

def subtract : Value → Value → Except EvalError Value
  | int i, int j => exact (i.toInt - j.toInt)
  | v, w => subtractFloats v w

def combine : AddOp → Value → Value → Except EvalError Value
  | .add => add
  | .sub => subtract

end Value

namespace Expr

mutual

def eval (scope : Scope) : Expr → Except EvalError Value
  | literal v => .ok v
  | path p => .ok ((scope p).getD .null)
  | not count e =>
    match eval scope e with
    | .ok v => .ok (.bool (v.truthy ^^ count % 2 == 1))
    | .error error => .error error
  | neg count e =>
    match eval scope e with
    | .ok v => v.negateTimes count
    | .error error => .error error
  | and operands => evalAll scope operands
  | or operands => evalAny scope operands
  | compare op left right =>
    match eval scope left with
    | .error error => .error error
    | .ok v =>
      match eval scope right with
      | .error error => .error error
      | .ok w => .ok (.bool (v.compares op w))
  | sum first rest =>
    match eval scope first with
    | .ok v => evalSum scope v rest
    | .error error => .error error

/-- Stops at the first operand that is false. -/
def evalAll (scope : Scope) : List Expr → Except EvalError Value
  | [] => .ok (.bool true)
  | e :: rest =>
    match eval scope e with
    | .ok v => if v.truthy then evalAll scope rest else .ok (.bool false)
    | .error error => .error error

/-- Stops at the first operand that is true. -/
def evalAny (scope : Scope) : List Expr → Except EvalError Value
  | [] => .ok (.bool false)
  | e :: rest =>
    match eval scope e with
    | .ok v => if v.truthy then .ok (.bool true) else evalAny scope rest
    | .error error => .error error

/-- From left to right. -/
def evalSum (scope : Scope) (total : Value) : List (AddOp × Expr) → Except EvalError Value
  | [] => .ok total
  | (op, e) :: rest =>
    match eval scope e with
    | .error error => .error error
    | .ok v =>
      match total.combine op v with
      | .ok w => evalSum scope w rest
      | .error error => .error error

end

end Expr

end DynamicSql
