import DynamicSql.Text.Ascii
import DynamicSql.Text.Blank

/-!
Trimming of clauses: of a body without the blanks around it, one leading and one trailing connector are
dropped, and what is left, unless it is empty, stands between an opening and a closing text.
-/
namespace DynamicSql

structure TrimRule where
  opening : Option Text := none
  closing : Option Text := none
  /-- Connectors dropped at the start; the first that matches. -/
  leading : List Text := []
  /-- Connectors dropped at the end; the first that matches. -/
  trailing : List Text := []
  deriving DecidableEq, Repr, Inhabited

namespace TrimRule

/-- The connectors of a list written with bars between them. -/
def connectors (s : Text) : List Text := (Text.pieces (· == '|') s).filter fun c => !c.isEmpty

/-- A `WHERE` clause drops a leading `AND` or `OR`. -/
def whereClause : TrimRule where
  opening := some "WHERE".toList
  leading := ["AND ", "OR ", "AND\n", "OR\n", "AND\r", "OR\r", "AND\t", "OR\t"].map String.toList

/-- A `SET` clause drops a comma at either end. -/
def setClause : TrimRule where
  opening := some "SET".toList
  leading := [[',']]
  trailing := [[',']]

/-- The text begins with the connector, up to ASCII case. -/
def beginsWith (connector s : Text) : Bool :=
  Text.toLower (s.take connector.length) == Text.toLower connector

/-- The text ends with the connector, up to ASCII case. -/
def endsWith (connector s : Text) : Bool :=
  decide (connector.length ≤ s.length) &&
    Text.toLower (s.drop (s.length - connector.length)) == Text.toLower connector

def dropLeading (rule : TrimRule) (s : Text) : Text :=
  match rule.leading.find? fun c => beginsWith c s with
  | some c => Text.trimStart (s.drop c.length)
  | none => s

def dropTrailing (rule : TrimRule) (s : Text) : Text :=
  match rule.trailing.find? fun c => endsWith c s with
  | some c => Text.trimEnd (s.take (s.length - c.length))
  | none => s

/-- What is left of a body. -/
def core (rule : TrimRule) (body : Text) : Text :=
  rule.dropTrailing (rule.dropLeading (Text.trim body))

def apply (rule : TrimRule) (body : Text) : Text :=
  match rule.core body with
  | [] => []
  | core =>
    (match rule.opening with
      | some s => s ++ [' ']
      | none => []) ++ core ++
    (match rule.closing with
      | some s => ' ' :: s
      | none => [])

end TrimRule

end DynamicSql
