import DynamicSql.Decimal.Reading
import DynamicSql.Expr.Basic
import DynamicSql.Text.Blank

/-!
How tests compare values. Two texts, two truth values and two integers are compared as such; any other pair
by the numbers that its members are or, for a text, write. Null is only equal to null and in no order.
-/
namespace DynamicSql.Value

/-- The number that a value is or writes. -/
def numeric? : Value → Option Float
  | text s => Decimal.readFloat? (Text.trim s)
  | v => v.asFloat?

def compareFloats (x y : Float) : Option Ordering :=
  if x < y then some .lt else if y < x then some .gt else if x == y then some .eq else none

def compareTexts (s t : Text) : Ordering :=
  if s < t then .lt else if s = t then .eq else .gt

/-- False comes before true. -/
def compareBools : Bool → Bool → Ordering
  | false, true => .lt
  | true, false => .gt
  | _, _ => .eq

def compareInts (i j : Int64) : Ordering :=
  if i < j then .lt else if i = j then .eq else .gt

def order? : Value → Value → Option Ordering
  | null, _ => none
  | _, null => none
  | text s, text t => some (compareTexts s t)
  | bool a, bool b => some (compareBools a b)
  | int i, int j => some (compareInts i j)
  | v, w =>
    match v.numeric?, w.numeric? with
    | some x, some y => compareFloats x y
    | _, _ => none

def isNumber : Value → Bool
  | int _ | float _ => true
  | _ => false

/-- Where one side is a number, both are compared as floating-point numbers. -/
def equals : Value → Value → Bool
  | null, null => true
  | null, _ => false
  | _, null => false
  | text s, text t => s == t
  | v, w =>
    if v.isNumber || w.isNumber then
      match v.numeric?, w.numeric? with
      | some x, some y => x == y
      | _, _ => false
    else v.equal w

def compares (op : CompareOp) (v w : Value) : Bool :=
  match op with
  | .eq => v.equals w
  | .ne => !v.equals w
  | .lt => v.order? w == some .lt
  | .le => v.order? w == some .lt || v.order? w == some .eq
  | .gt => v.order? w == some .gt
  | .ge => v.order? w == some .gt || v.order? w == some .eq

end DynamicSql.Value
