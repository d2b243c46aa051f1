import DynamicSql.Value.Path
import DynamicSql.Value.Type

/-!
Resolved queries: text with positional markers, what each marker stands for, and the bindings made on the
way.
-/
namespace DynamicSql

/-- Direction of a parameter. -/
inductive ParameterMode where
  | input | output | both
  deriving DecidableEq, Repr, Inhabited

namespace ParameterMode

def name : ParameterMode → String
  | input => "IN"
  | output => "OUT"
  | both => "INOUT"

def names : ParameterMode → List String
  | input => ["IN"]
  | output => ["OUT"]
  | both => ["INOUT", "IN_OUT"]

def all : List ParameterMode := [input, output, both]

def ofName? (s : Text) : Option ParameterMode := all.find? fun m => m.name.toList == s

/-- The mode that a declaration names, in any case and with blanks around; else the message. -/
def read (s : Text) : Except String ParameterMode :=
  let raised := Text.toUpper (Text.trim s)
  match all.find? fun m => m.names.any fun n => n.toList == raised with
  | some m => .ok m
  | none =>
    let word := String.ofList raised
    .error s!"unknown parameter mode '{word}'"

/-- A value has to be there unless the parameter only delivers one. -/
def requiresValue : ParameterMode → Bool
  | output => false
  | _ => true

end ParameterMode

/-- What one marker stands for. -/
structure Descriptor where
  /-- The path or expression, under the aliases of iterations. -/
  expression : Text
  type : ValueType
  sqlType : Option Text := none
  numericScale : Option Nat := none
  mode : ParameterMode := .input
  value : Value
  deriving Inhabited

namespace Descriptor

/-- An input of the type that the value has. -/
def ofValue (expression : Text) (value : Value) : Descriptor :=
  { expression, type := value.type, value }

def equal (a b : Descriptor) : Bool :=
  a.expression == b.expression && a.type == b.type && a.sqlType == b.sqlType &&
    a.numericScale == b.numericScale && a.mode == b.mode && a.value.equal b.value

end Descriptor

structure Query where
  text : Text := []
  /-- In the order of the markers. -/
  parameters : List Descriptor := []
  /-- Bindings made during the resolution, aliases included. -/
  bindings : Entries Value := []
  deriving Inhabited

namespace Query

def binding? (q : Query) (name : Text) : Option Value := q.bindings.get? name

def values (q : Query) : List Value := q.parameters.map Descriptor.value

def expressions (q : Query) : List Text := q.parameters.map Descriptor.expression

def withText (q : Query) (text : Text) : Query := { q with text }

/-- Equal texts, parameters and bindings; the order of the bindings does not count. -/
def equal (a b : Query) : Bool :=
  a.text == b.text && a.parameters.length == b.parameters.length &&
    (a.parameters.zip b.parameters).all (fun (x, y) => x.equal y) &&
    (Value.map a.bindings).equal (.map b.bindings)

end Query

end DynamicSql
