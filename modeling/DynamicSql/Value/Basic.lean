import DynamicSql.Decimal.Layout
import DynamicSql.Entries

/-!
Dynamic values: what parameters, bindings and arguments hold. Maps keep the order of their keys, which
shows when they are written or iterated over but not when they are compared.
-/
namespace DynamicSql

inductive Value where
  | null
  | bool (b : Bool)
  | int (i : Int64)
  | float (x : Float)
  | text (s : Text)
  | list (items : List Value)
  | map (entries : List (Text × Value))
  deriving Inhabited

namespace Value

def isNull : Value → Bool
  | null => true
  | _ => false

/-- Null, false, zero, the empty text and empty collections are false in a test. -/
def truthy : Value → Bool
  | null => false
  | bool b => b
  | int i => i != 0
  | float x => x != 0.0
  | text s => !s.isEmpty
  | list items => !items.isEmpty
  | map entries => !entries.isEmpty

def isScalar : Value → Bool
  | list _ | map _ => false
  | _ => true

def asText? : Value → Option Text
  | text s => some s
  | _ => none

def asInt? : Value → Option Int64
  | int i => some i
  | _ => none

/-- The nearest floating-point number to an integer, or the number itself. -/
def asFloat? : Value → Option Float
  | int i => some (Float.ofInt i.toInt)
  | float x => some x
  | _ => none

def asBool? : Value → Option Bool
  | bool b => some b
  | _ => none

/-- Characters of a text, members of a collection. -/
def size? : Value → Option Nat
  | text s => some s.length
  | list items => some items.length
  | map entries => some entries.length
  | _ => none

mutual

/-- Equality as tests see it: a not-a-number differs from itself, and maps are equal in any order. -/
def equal : Value → Value → Bool
  | null, null => true
  | bool a, bool b => a == b
  | int a, int b => a == b
  | float a, float b => a == b
  | text a, text b => a == b
  | list a, list b => equalItems a b
  | map a, map b => a.length == b.length && contained a b
  | _, _ => false

def equalItems : List Value → List Value → Bool
  | [], [] => true
  | x :: a, y :: b => equal x y && equalItems a b
  | _, _ => false

/-- Every entry of the first map is in the second. -/
def contained : List (Text × Value) → List (Text × Value) → Bool
  | [], _ => true
  | (key, x) :: a, b =>
    (match Entries.get? b key with
      | some y => equal x y
      | none => false) && contained a b

end

mutual

/-- The written form: texts stand as they are, collections are bracketed. -/
def display : Value → Text
  | null => "null".toList
  | bool b => if b then "true".toList else "false".toList
  | int i => Text.ofInt i.toInt
  | float x => Decimal.Layout.display.write x
  | text s => s
  | list items => '[' :: (displayItems items ++ "]".toList)
  | map entries => '{' :: (displayEntries entries ++ "\x7d".toList)

def displayItems : List Value → Text
  | [] => []
  | [x] => display x
  | x :: y :: rest => display x ++ ", ".toList ++ displayItems (y :: rest)

def displayEntries : List (Text × Value) → Text
  | [] => []
  | [(key, x)] => key ++ ": ".toList ++ display x
  | (key, x) :: other :: rest =>
    key ++ ": ".toList ++ display x ++ ", ".toList ++ displayEntries (other :: rest)

end

/-- What splicing the value into query text puts there: nothing for null, else the written form. -/
def spliced : Value → Text
  | null => []
  | v => v.display

@[simp] theorem spliced_text (s : Text) : (text s).spliced = s := rfl

/-- The sizes of a collection are far below the bound of the integers. -/
def ofNat (n : Nat) : Value := int (Int64.ofNat n)

end Value

/-- Types whose members have a form as a value. -/
class ToValue (α : Type) where
  toValue : α → Value

export ToValue (toValue)

instance : ToValue Bool := ⟨.bool⟩
instance : ToValue Int32 := ⟨fun i => .int i.toInt64⟩
instance : ToValue Int64 := ⟨.int⟩
instance : ToValue UInt32 := ⟨fun n => .int (Int64.ofNat n.toNat)⟩

/-- The upper half of the unsigned range wraps to the negative integers. -/
instance : ToValue UInt64 := ⟨fun n => .int n.toInt64⟩

instance : ToValue Float := ⟨.float⟩
instance : ToValue String := ⟨fun s => .text s.toList⟩
instance {α : Type} [ToValue α] : ToValue (List α) := ⟨fun items => .list (items.map toValue)⟩

/-- Absence is null. -/
instance {α : Type} [ToValue α] : ToValue (Option α) := ⟨fun
  | some x => toValue x
  | none => .null⟩

end DynamicSql
