import DynamicSql.Json.Record
import DynamicSql.Template.Query
import DynamicSql.Value.Document

/-!
Resolved queries as documents, written compactly and read back.
-/
namespace DynamicSql

namespace Descriptor

def fieldNames : List String :=
  ["expression", "value_type", "sql_type", "numeric_scale", "mode", "value"]

def member? (name : String) (j : Option Json) : List (Text × Json) :=
  match j with
  | some j => [(name.toList, j)]
  | none => []

/-- Declarations that are absent are left out. -/
def toJson (d : Descriptor) : Json :=
  .object <|
    [("expression".toList, .text d.expression), ("value_type".toList, .text d.type.name.toList)] ++
      member? "sql_type" (d.sqlType.map .text) ++
      member? "numeric_scale" (d.numericScale.map fun n => .number (.integer n)) ++
      [("mode".toList, .text d.mode.name.toList), ("value".toList, d.value.toJson)]

def optional {α : Type} (read : Json → Option (Option α)) : Option Json → Option (Option α)
  | some j => read j
  | none => some none

def ofJson? (limit : Nat) (j : Json) : Option Descriptor :=
  match j.record? fieldNames with
  | some [some expression?, some type?, sqlType?, scale?, mode?, some value?] => do
    let expression ← expression?.asText?
    let type ← type?.asChoice?.bind ValueType.ofName?
    let sqlType ← optional Json.asOptionalText? sqlType?
    let numericScale ← optional (Json.asOptionalNat? Integer.bound32) scale?
    let mode ← match mode? with
      | some j => j.asChoice?.bind ParameterMode.ofName?
      | none => some .input
    let value ← if value?.readable (limit - 1) then Value.ofContent? value? else none
    return { expression, type, sqlType, numericScale, mode, value }
  | _ => none

end Descriptor

namespace Query

def fieldNames : List String := ["text", "parameters", "extra_bindings"]

def toJson (q : Query) : Json :=
  .object
    [("text".toList, .text q.text),
      ("parameters".toList, .list (q.parameters.map Descriptor.toJson)),
      ("extra_bindings".toList, .object (Value.toJsonMembers q.bindings))]

def bindingsOf? (limit : Nat) : Option Json → Option (Entries Value)
  | none => some []
  | some (.object members) =>
    if (Json.object members).readable limit then
      (Value.ofContentMembers? members).map Entries.ofPairs
    else none
  | some _ => none

/-- Each record and list around a value takes one level of nesting. -/
def ofJson? (j : Json) : Option Query :=
  match j.record? fieldNames with
  | some [some text?, some (.list items), bindings?] => do
    let text ← text?.asText?
    let parameters ← items.mapM (Descriptor.ofJson? (Json.nestingLimit - 2))
    let bindings ← bindingsOf? (Json.nestingLimit - 1) bindings?
    return { text, parameters, bindings }
  | _ => none

def ofJsonText? (s : Text) : Option Query := (Json.parse? s).bind ofJson?

def toJsonText (q : Query) : Text := q.toJson.print

end Query

end DynamicSql
