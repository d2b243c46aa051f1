import DynamicSql.Decimal.Reading
import DynamicSql.Expr.Expression
import DynamicSql.Template.Context
import DynamicSql.Template.Query
import DynamicSql.Template.Token

/-!
Placeholders: a path, or an expression in parentheses, and attributes after commas. Commas between quotes or
parentheses do not separate.
-/
namespace DynamicSql.Placeholder

/-- The character outside quotes and so many parentheses, or inside a quote. -/
structure Level where
  depth : Nat
  quote : Option Char
  deriving DecidableEq, Repr

def Level.top : Level := ⟨0, none⟩

def Level.next (l : Level) (c : Char) : Level :=
  match l.quote with
  | some q => if c = q then { l with quote := none } else l
  | none =>
    if c = '\x27' ∨ c = '\x22' then { l with quote := some c }
    else if c = '(' then { l with depth := l.depth + 1 }
    else if c = ')' then { l with depth := l.depth - 1 }
    else l

def Level.separates (l : Level) (c : Char) : Bool := c = ',' && l.quote.isNone && l.depth == 0

/-- The parts between separating commas; there is always a first. -/
def splitFrom (l : Level) : Text → Text × List Text
  | [] => ([], [])
  | c :: r =>
    if l.separates c then
      let (first, others) := splitFrom l r
      ([], first :: others)
    else
      let (first, others) := splitFrom (l.next c) r
      (c :: first, others)

def split (content : Text) : Text × List Text := splitFrom .top content

inductive Target where
  | path (p : Text)
  | expr (e : Expression)
  deriving Inhabited

/-- What attributes declare. -/
structure Attributes where
  type : Option ValueType := none
  sqlType : Option Text := none
  numericScale : Option Nat := none
  mode : ParameterMode := .input
  default : Option Value := none
  deriving Inhabited

/-- A text between quotes of that kind, without them. -/
def unquoted? (quote : Char) : Text → Option Text
  | q :: r => if q = quote ∧ r.getLast? = some quote then some r.dropLast else none
  | [] => none

/-- A default is a quoted text, a word, a number, or else the text itself. -/
def literal (raw : Text) : Value :=
  match (unquoted? '\x27' raw).or (unquoted? '\x22' raw) with
  | some s => .text s
  | none =>
    if raw = "null".toList then .null
    else if raw = "true".toList then .bool true
    else if raw = "false".toList then .bool false
    else match Text.readInt? raw with
      | some i => .int i
      | none =>
        match Decimal.readFloat? raw with
        | some x => .float x
        | none => .text raw

/-- The text inside the parentheses that enclose a whole head. -/
def enclosed? : Text → Option Text
  | '(' :: r => if r.getLast? = some ')' then some r.dropLast else none
  | _ => none

inductive AttributeError where
  /-- Not of the form name and value. -/
  | malformed (part : Text)
  | badValue (message : String)
  | unknown (name : Text)
  deriving DecidableEq, Repr

/-- Whether a name is one of those. -/
def named (name : Text) (names : List String) : Bool := names.any fun n => n.toList == name

def setAttribute (a : Attributes) (name value : Text) : Except AttributeError Attributes :=
  if named name ["type", "javaType"] then
    match ValueType.read value with
    | .ok t => .ok { a with type := some t }
    | .error m => .error (.badValue m)
  else if named name ["sqlType", "jdbcType"] then .ok { a with sqlType := some value }
  else if named name ["numericScale"] then
    match Text.readNat? Integer.bound32 value with
    | some n => .ok { a with numericScale := some n }
    | none =>
      let value := String.ofList value
      .error (.badValue s!"invalid numericScale '{value}'")
  else if named name ["mode"] then
    match ParameterMode.read value with
    | .ok m => .ok { a with mode := m }
    | .error m => .error (.badValue m)
  else if named name ["default"] then .ok { a with default := some (literal value) }
  else .error (.unknown name)

/-- Reads the attributes from left to right; a later one takes the place of an earlier. -/
def readAttributes (a : Attributes) : List Text → Except AttributeError Attributes
  | [] => .ok a
  | part :: rest =>
    let trimmed := Text.trim part
    match Text.cutAt? (· == '=') trimmed with
    | none => .error (.malformed trimmed)
    | some (name, value) =>
      match setAttribute a (Text.trim name) (Text.trim value) with
      | .ok a => readAttributes a rest
      | .error e => .error e

/-- The faults of a placeholder point at the whole of it. -/
def AttributeError.fault (content span : Text) (offset : Nat) : AttributeError → Fault
  | malformed part =>
    let part := String.ofList part
    Fault.templateSyntax s!"expected 'name=value', found '{part}'" offset (String.ofList span)
  | badValue message => Fault.templateSyntax message offset (String.ofList span)
  | unknown name => Fault.unknownAttribute (String.ofList name) (String.ofList (Text.trim content))

def readTarget (head : Text) : Except Fault Target :=
  match enclosed? head with
  | some inside => (Expression.parse inside).map .expr
  | none => .ok (.path head)

end Placeholder

structure Placeholder where
  target : Placeholder.Target
  attributes : Placeholder.Attributes
  deriving Inhabited

namespace Placeholder

/-- Reads the content of a placeholder whose whole text begins at a byte offset. -/
def parse (content : Text) (offset : Nat) (span : Text) : Except Fault Placeholder :=
  let (head, parts) := split content
  let head := Text.trim head
  if head = [] then
    .error (Fault.templateSyntax "empty placeholder" offset (String.ofList span))
  else
    match readTarget head with
    | .error f => .error f
    | .ok target =>
      match readAttributes {} parts with
      | .ok attributes => .ok ⟨target, attributes⟩
      | .error e => .error (e.fault content span offset)

/-- A scalar parameter answers every path of at most one segment that nothing else answers. -/
def lookup? (bindings : Bindings) (parameter : Parameter) (path : Text) : Option Value :=
  match bindings.resolve? parameter path with
  | some v => some v
  | none => if (Path.segments path).length < 2 then parameter.scalar? else none

/-- The expression to record, and the value if there is one. -/
def Target.find (bindings : Bindings) (parameter : Parameter) :
    Target → Except Fault (Text × Option Value)
  | .path p => .ok (p, lookup? bindings parameter p)
  | .expr e => (e.evaluate (bindings.resolve? parameter)).map fun v => (e.source, some v)

/-- A default takes the place of null and of nothing; nothing is null where no value is required. -/
def Attributes.settle (a : Attributes) : Option Value → Option Value
  | some .null => some (a.default.getD .null)
  | some v => some v
  | none =>
    match a.default with
    | some v => some v
    | none => if a.mode.requiresValue then none else some .null

/-- Null says nothing about the type. -/
def inferredType (v : Value) : ValueType := if v.isNull then .any else v.type

def describe (p : Placeholder) (bindings : Bindings) (parameter : Parameter) :
    Except Fault Descriptor :=
  match p.target.find bindings parameter with
  | .error f => .error f
  | .ok (expression, found) =>
    match p.attributes.settle found with
    | none => .error (Fault.bindingResolution (String.ofList expression))
    | some value =>
      .ok
        { expression
          type := p.attributes.type.getD (inferredType value)
          sqlType := p.attributes.sqlType
          numericScale := p.attributes.numericScale
          mode := p.attributes.mode
          value }

end DynamicSql.Placeholder
