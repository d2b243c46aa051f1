import DynamicSql.Text.Ascii
import DynamicSql.Text.Blank
import DynamicSql.Value.Basic

/-!
The declared or inferred type of a bound parameter, and the names it is declared by.
-/
namespace DynamicSql

inductive ValueType where
  | any | null | bool | int | float | text | list | map
  deriving DecidableEq, Repr, Inhabited

namespace ValueType

def all : List ValueType := [any, null, bool, int, float, text, list, map]

def name : ValueType → String
  | any => "any"
  | null => "null"
  | bool => "bool"
  | int => "int"
  | float => "float"
  | text => "string"
  | list => "list"
  | map => "map"

/-- Every name that declares the type; the first is its own. -/
def names : ValueType → List String
  | any => ["any", "object"]
  | null => ["null"]
  | bool => ["bool", "boolean"]
  | int => ["int", "integer", "long", "i64"]
  | float => ["float", "double", "decimal", "f64"]
  | text => ["string", "text", "str"]
  | list => ["list", "array"]
  | map => ["map"]

/-- The type of that exact name. -/
def ofName? (s : Text) : Option ValueType := all.find? fun t => t.name.toList == s

/-- The type that a declaration names, in any case and with blanks around; else the message. -/
def read (s : Text) : Except String ValueType :=
  let lowered := Text.toLower (Text.trim s)
  match all.find? fun t => t.names.any fun n => n.toList == lowered with
  | some t => .ok t
  | none =>
    let word := String.ofList lowered
    .error s!"unknown value type '{word}'"

end ValueType

def Value.type : Value → ValueType
  | .null => .null
  | .bool _ => .bool
  | .int _ => .int
  | .float _ => .float
  | .text _ => .text
  | .list _ => .list
  | .map _ => .map

end DynamicSql
