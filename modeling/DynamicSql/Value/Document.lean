import DynamicSql.Json.Printing
import DynamicSql.Json.Reading
import DynamicSql.Value.Basic

/-!
Values and documents. A document becomes a value by its own shape, or by trying the shapes of values in order
on what was written; a value becomes a document that leaves its floating-point oddities out.
-/
namespace DynamicSql

namespace Json.Number

def toValue : Number → Value
  | .integer i =>
    match Integer.ofInt? i with
    | some n => .int n
    | none => .float (Float.ofInt i)
  | .float x => .float x

def asInt? : Number → Option Int64
  | .integer i => Integer.ofInt? i
  | .float _ => none

def asFloat : Number → Float
  | .integer i => Float.ofInt i
  | .float x => x

end Json.Number

namespace Value

mutual

/-- The value of a document, by its shape. -/
def ofJson : Json → Value
  | .null => null
  | .bool b => bool b
  | .number n => n.toValue
  | .text s => text s
  | .list items => list (ofJsonItems items)
  | .object members => map (Entries.ofPairs (ofJsonMembers members))
  | .unrepresentable => null

def ofJsonItems : List Json → List Value
  | [] => []
  | j :: rest => ofJson j :: ofJsonItems rest

def ofJsonMembers : List (Text × Json) → List (Text × Value)
  | [] => []
  | (name, j) :: rest => (name, ofJson j) :: ofJsonMembers rest

end

def nullOf? : Json → Option Value
  | .null => some null
  | _ => none

def boolOf? : Json → Option Value
  | .bool b => some (bool b)
  | _ => none

def intOf? : Json → Option Value
  | .number n => n.asInt?.map int
  | _ => none

def floatOf? : Json → Option Value
  | .number n => some (float n.asFloat)
  | _ => none

def textOf? : Json → Option Value
  | .text s => some (text s)
  | _ => none

mutual

/-- The first shape, in the order null, bool, integer, number, text, list, map, that takes the document. -/
def ofContent? (j : Json) : Option Value :=
  (nullOf? j).or <| (boolOf? j).or <| (intOf? j).or <| (floatOf? j).or <| (textOf? j).or <|
    match j with
    | .list items => (ofContentItems? items).map list
    | .object members => (ofContentMembers? members).map fun pairs => map (Entries.ofPairs pairs)
    | _ => none

def ofContentItems? : List Json → Option (List Value)
  | [] => some []
  | j :: rest =>
    match ofContent? j, ofContentItems? rest with
    | some v, some values => some (v :: values)
    | _, _ => none

def ofContentMembers? : List (Text × Json) → Option (List (Text × Value))
  | [] => some []
  | (name, j) :: rest =>
    match ofContent? j, ofContentMembers? rest with
    | some v, some values => some ((name, v) :: values)
    | _, _ => none

end

mutual

/-- Numbers that documents cannot write become null. -/
def toJson : Value → Json
  | null => .null
  | bool b => .bool b
  | int i => .number (.integer i.toInt)
  | float x => if x.isNaN || x.isInf then .null else .number (.float x)
  | text s => .text s
  | list items => .list (toJsonItems items)
  | map entries => .object (toJsonMembers entries)

def toJsonItems : List Value → List Json
  | [] => []
  | v :: rest => toJson v :: toJsonItems rest

def toJsonMembers : List (Text × Value) → List (Text × Json)
  | [] => []
  | (name, v) :: rest => (name, toJson v) :: toJsonMembers rest

end

/-- The value of a text through its canonical document. -/
def ofCanonicalText? (s : Text) : Option Value :=
  match Json.parse? s with
  | some j => if j.readable Json.nestingLimit then some (ofJson j.canonical) else none
  | none => none

/-- The value of a text, with its maps in the order of the text. -/
def ofJsonText? (s : Text) : Option Value :=
  match Json.parse? s with
  | some j => if j.readable Json.nestingLimit then ofContent? j else none
  | none => none

def toJsonText (v : Value) : Text := v.toJson.print

end Value

end DynamicSql
