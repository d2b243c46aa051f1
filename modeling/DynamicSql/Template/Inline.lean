import DynamicSql.Expr.Expression
import DynamicSql.Template.Token

/-!
Text with inline splices: literal parts, and expressions whose values become part of the query text as they
are. Neighbouring literals are one part.
-/
namespace DynamicSql

inductive InlinePart where
  | literal (s : Text)
  | splice (e : Expression)
  deriving Inhabited

structure InlineText where
  source : Text
  parts : List InlinePart
  deriving Inhabited

namespace InlineText

/-- A literal before parts; it joins a literal that comes first. -/
def pushLiteral (s : Text) : List InlinePart → List InlinePart
  | .literal t :: rest => .literal (s ++ t) :: rest
  | parts => .literal s :: parts

def partsOf (d : Delimiters) (source : Text) : List Token → Except Fault (List InlinePart)
  | [] => .ok []
  | .text s :: rest => (partsOf d source rest).map (pushLiteral s)
  | .escaped :: rest => (partsOf d source rest).map (pushLiteral d.opening)
  | .expr content offset :: rest =>
    match Expression.parse content with
    | .error f => .error (f.withSpan offset (String.ofList source))
    | .ok e => (partsOf d source rest).map fun parts => .splice e :: parts

def parse (config : Config) (s : Text) : Except Halt InlineText := do
  let tokens ← Token.ofText config.inlined s
  let parts ← Halt.raise (partsOf config.inlined s tokens)
  return ⟨s, parts⟩

/-- The text with the values of the splices. -/
def render (scope : Scope) : List InlinePart → Except Fault Text
  | [] => .ok []
  | .literal s :: rest => (render scope rest).map fun out => s ++ out
  | .splice e :: rest => do
    let v ← e.evaluate scope
    let out ← render scope rest
    return v.spliced ++ out

end InlineText

end DynamicSql
