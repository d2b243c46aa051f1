import DynamicSql.Json.Basic
import DynamicSql.Value.Document
import DynamicSql.Value.Path

/-!
The parameter of a statement is what can be seen of it: its fields, itself when it is one scalar, and itself
as a whole value. Values, documents, ordered maps, maps without an order and record types of the caller are
parameters.
-/
namespace DynamicSql

structure Parameter where
  field? : Text → Option Value
  /-- The parameter when it is a single scalar. -/
  scalar? : Option Value
  /-- The parameter as one value. -/
  whole? : Option Value

namespace Parameter

def scalarOf? (v : Value) : Option Value := if v.isScalar && !v.isNull then some v else none

def ofValue (v : Value) : Parameter := ⟨v.get?, scalarOf? v, some v⟩

def ofMap (entries : Entries Value) : Parameter := ⟨entries.get?, none, some (.map entries)⟩

/-- A map whose own order is arbitrary is seen as a whole in the order of its names. -/
def ofUnordered (entries : Entries Value) : Parameter :=
  ⟨entries.get?, none, some (.map entries.sorted)⟩

/-- A record type that only tells its fields. -/
def ofFields (field? : Text → Option Value) : Parameter := ⟨field?, none, none⟩

def documentField? : Json → Text → Option Value
  | .object members, name => (Entries.get? members name).map Value.ofJson
  | .list items, name =>
    match Text.readNat? Integer.bound64 name with
    | some i => items[i]?.map Value.ofJson
    | none => none
  | _, _ => none

def documentScalar? : Json → Option Value
  | .bool b => some (.bool b)
  | .number n => some n.toValue
  | .text s => some (.text s)
  | _ => none

def ofDocument (j : Json) : Parameter := ⟨documentField? j, documentScalar? j, some (Value.ofJson j)⟩

end Parameter

end DynamicSql
