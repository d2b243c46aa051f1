import DynamicSql.Template.Inline
import DynamicSql.Template.Trim

/-!
Templates as trees: text, splices, conditions, iterations, trimmed clauses and bindings.
-/
namespace DynamicSql

/-- What an iteration goes over, the names it gives, and the texts around and between its bodies. -/
structure Iteration where
  collection : Expression
  item : Option Text := none
  index : Option Text := none
  opening : Text := []
  closing : Text := []
  separator : Text := []
  /-- A missing collection counts as an empty one. -/
  nullable : Bool := false
  deriving Inhabited

inductive Node where
  | text (s : Text)
  | inlined (t : InlineText)
  /-- The body, where the test holds. -/
  | when (test : Expression) (body : Node)
  /-- The first branch whose test holds. -/
  | choose (branches : List (Expression × Node)) (otherwise : Option Node)
  | forEach (iteration : Iteration) (body : Node)
  | trim (rule : TrimRule) (body : Node)
  | bind (name : Text) (value : Expression)
  | mixed (children : List Node)
  deriving Inhabited

namespace Node

def kind : Node → String
  | text _ => "text"
  | inlined _ => "inline"
  | when _ _ => "if"
  | choose _ _ => "choose"
  | forEach _ _ => "foreach"
  | trim _ _ => "trim"
  | bind _ _ => "bind"
  | mixed _ => "mixed"

mutual

/-- The text may depend on the parameter. -/
def isDynamic : Node → Bool
  | text _ => false
  | mixed children => anyDynamic children
  | _ => true

def anyDynamic : List Node → Bool
  | [] => false
  | n :: rest => isDynamic n || anyDynamic rest

end

/-- A text with splices becomes a node of its own kind; any other text stands as it is. -/
def parseText (config : Config) (s : Text) : Except Halt Node :=
  if Token.hasExpressions config.inlined s then (InlineText.parse config s).map inlined
  else .ok (text s)

end Node

end DynamicSql
