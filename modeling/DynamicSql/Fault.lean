import DynamicSql.Text.Basic

/-!
Faults: why a declaration was refused or a template could not be resolved. A fault has a code, a message and
the context in which it arose; the constructors below fix the wording of each kind once.
-/
namespace DynamicSql

inductive Fault.Code where
  | noSignatures
  | unknownOperation
  | invalidConfiguration
  | bindingResolution
  | notIterable
  | templateSyntax
  | invalidExpression
  | unknownAttribute
  | invocationMismatch
  | missingCapability
  deriving DecidableEq, Repr, Inhabited

namespace Fault.Code

def all : List Code :=
  [noSignatures, unknownOperation, invalidConfiguration, bindingResolution, notIterable,
    templateSyntax, invalidExpression, unknownAttribute, invocationMismatch, missingCapability]

def number : Code → Nat
  | noSignatures => 1001
  | unknownOperation => 1002
  | invalidConfiguration => 1003
  | bindingResolution => 2001
  | notIterable => 2002
  | templateSyntax => 3001
  | invalidExpression => 3002
  | unknownAttribute => 3003
  | invocationMismatch => 4001
  | missingCapability => 4002

def label (code : Code) : String :=
  let number := code.number
  s!"W{number}"

def name : Code → String
  | noSignatures => "NoSignatures"
  | unknownOperation => "UnknownOperation"
  | invalidConfiguration => "InvalidConfiguration"
  | bindingResolution => "BindingResolution"
  | notIterable => "NotIterable"
  | templateSyntax => "TemplateSyntax"
  | invalidExpression => "InvalidExpression"
  | unknownAttribute => "UnknownAttribute"
  | invocationMismatch => "InvocationMismatch"
  | missingCapability => "MissingCapability"

def description : Code → String
  | noSignatures => "Interceptor declares no signatures"
  | unknownOperation => "Unknown intercepted operation"
  | invalidConfiguration => "Invalid configuration"
  | bindingResolution => "Binding path could not be resolved"
  | notIterable => "Value is not iterable"
  | templateSyntax => "Template syntax error"
  | invalidExpression => "Invalid expression"
  | unknownAttribute => "Unknown placeholder attribute"
  | invocationMismatch => "Invocation shape mismatch"
  | missingCapability => "Missing component capability"

def isConfiguration : Code → Bool
  | noSignatures | unknownOperation | invalidConfiguration => true
  | _ => false

def isBinding : Code → Bool
  | bindingResolution | notIterable => true
  | _ => false

def isTemplate : Code → Bool
  | templateSyntax | invalidExpression | unknownAttribute => true
  | _ => false

end Fault.Code

/-- Advice on mending a fault, with an example or without. -/
structure Fault.Suggestion where
  text : String
  code : Option String := none
  deriving DecidableEq, Repr

structure Fault where
  code : Fault.Code
  message : String
  /-- The interceptor or operation involved. -/
  operation : Option String := none
  /-- The expression or path involved. -/
  expression : Option String := none
  /-- The text at fault. -/
  template : Option String := none
  /-- Byte offset of the text at fault. -/
  offset : Option Nat := none
  suggestions : List Fault.Suggestion := []
  help : Option String := none
  /-- The text of the failure behind this one. -/
  cause : Option String := none
  deriving DecidableEq, Repr, Inhabited

namespace Fault

def withOperation (f : Fault) (operation : String) : Fault := { f with operation := some operation }

def withExpression (f : Fault) (expression : String) : Fault := { f with expression := some expression }

def withSpan (f : Fault) (offset : Nat) (template : String) : Fault :=
  { f with offset := some offset, template := some template }

def withTemplate (f : Fault) (template : String) : Fault := { f with template := some template }

def withSuggestion (f : Fault) (text : String) : Fault :=
  { f with suggestions := f.suggestions ++ [⟨text, none⟩] }

def withExample (f : Fault) (text code : String) : Fault :=
  { f with suggestions := f.suggestions ++ [⟨text, some code⟩] }

def withHelp (f : Fault) (help : String) : Fault := { f with help := some help }

def withCause (f : Fault) (cause : String) : Fault := { f with cause := some cause }

def ofMessage (code : Code) (message : String) : Fault := { code, message }

def noSignatures (interceptor : String) : Fault :=
  (ofMessage .noSignatures s!"No signatures were declared by interceptor {interceptor}").withOperation
    interceptor |>.withExample "Return at least one signature from Interceptor::signatures()"
      "vec![Signature::new(ComponentKind::Executor, \x22query\x22)]"

def unknownOperation (kind method : String) : Fault :=
  (ofMessage .unknownOperation s!"Could not find operation on {kind} named {method}").withOperation
    s!"{kind}.{method}" |>.withSuggestion
      "Check the operation name against ComponentKind::operations()"

def invalidConfiguration (message : String) : Fault := ofMessage .invalidConfiguration message

def bindingResolution (path : String) : Fault :=
  (ofMessage .bindingResolution
    s!"There is no binding or parameter property named '{path}'").withExpression path
    |>.withSuggestion "Check the name against the parameter object and bindings"
    |>.withExample "Supply a default for optional values" ("\x7b\x7b" ++ path ++ ",default=0\x7d\x7d")

def notIterable (expression found : String) : Fault :=
  (ofMessage .notIterable
    s!"The expression '{expression}' evaluated to {found} which is not iterable").withExpression
      expression |>.withHelp "Iterations accept lists, maps and non-negative integers"

def templateSyntax (message : String) (offset : Nat) (template : String) : Fault :=
  (ofMessage .templateSyntax s!"Template syntax error: {message}").withSpan offset template
    |>.withSuggestion "Escape literal delimiters with a backslash"

def invalidExpression (expression message : String) : Fault :=
  (ofMessage .invalidExpression s!"Error parsing expression '{expression}': {message}").withExpression
    expression

def unknownAttribute (name expression : String) : Fault :=
  (ofMessage .unknownAttribute <|
    s!"An invalid property '{name}' was found in placeholder; " ++
      "valid properties are type, sqlType, numericScale, mode, default").withExpression expression

def invocationMismatch (operation expected found : String) : Fault :=
  (ofMessage .invocationMismatch
    s!"{operation} expected {expected} but received {found}").withOperation operation
    |>.withHelp "An interceptor must reply with the shape of the operation it intercepts"

def missingCapability (kind : String) : Fault :=
  ofMessage .missingCapability s!"Target does not expose the {kind} capability"

end Fault

/-- Why a computation ends without a result. -/
inductive Halt where
  /-- It reports a fault. -/
  | fault (f : Fault)
  /-- It panics, because a range of bytes that it asks for is no slice of a text; it reports nothing. -/
  | panic
  deriving DecidableEq, Repr, Inhabited

namespace Halt

variable {α : Type}

/-- A result that a fault may be in the way of, but no panic. -/
def raise (x : Except Fault α) : Except Halt α := x.mapError fault

@[simp] theorem raise_ok (a : α) : raise (.ok a) = .ok a := rfl

@[simp] theorem raise_error (f : Fault) : raise (.error f : Except Fault α) = .error (.fault f) := rfl

theorem raise_eq_ok_iff {x : Except Fault α} {a : α} : raise x = .ok a ↔ x = .ok a := by
  cases x <;> simp

theorem raise_eq_error_iff {x : Except Fault α} {h : Halt} :
    raise x = .error h ↔ ∃ f, x = .error f ∧ .fault f = h := by
  cases x <;> simp

end Halt

end DynamicSql
