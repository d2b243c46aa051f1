import DynamicSql.Peg

/-!
The grammar of expressions. Blanks may stand between the parts of every rule that is not a token; operators,
numbers and names are tokens, and a word is one only where no further letter follows.
-/
namespace DynamicSql.Expr

inductive Rule where
  | expression | orExpr | andExpr | notExpr | comparison | additive | unary
  | orOp | andOp | notOp | compareOp | addOp | negOp
  | null | bool | float | int | string | inner
  | path | ident | index | keyword | ending
  deriving DecidableEq, Repr, Inhabited

abbrev Grammar := Peg Rule

namespace Grammar

open Peg

def isSpace (c : Char) : Bool := c = ' ' || c = '\t' || c = '\r' || c = '\n'

def isLetter (c : Char) : Bool := c.isAlpha || c = '_' || c = '$'

def isNameChar (c : Char) : Bool := isLetter c || c.isDigit

def spaces : Grammar := .star (.one isSpace)

/-- One part after the other, with blanks between. -/
def next (first second : Grammar) : Grammar := .seq first (.seq spaces second)

/-- As often as possible, with blanks between. -/
def many (body : Grammar) : Grammar := optional (.seq body (.star (.seq spaces body)))

def char (c : Char) : Grammar := .one (· = c)

def wordEnd : Grammar := .unless (.one isNameChar)

/-- One of the words, with no further letter. -/
def wholeWord (ws : List String) : Grammar := .seq (words ws) wordEnd

def digits : Grammar := atLeastOnce (.one Char.isDigit)

def orOp : Grammar := .token .orOp (.alt (.word "||".toList) (wholeWord ["or"]))

def andOp : Grammar := .token .andOp (.alt (.word "&&".toList) (wholeWord ["and"]))

def notOp : Grammar :=
  .token .notOp (.alt (.seq (char '!') (.unless (char '='))) (wholeWord ["not"]))

def compareOp : Grammar :=
  .token .compareOp (.alt (words ["==", "!=", "<=", ">=", "<", ">"])
    (wholeWord ["neq", "eq", "lte", "lt", "gte", "gt"]))

def addOp : Grammar := .token .addOp (words ["+", "-"])

def negOp : Grammar := .token .negOp (char '-')

def nullLiteral : Grammar := .token .null (wholeWord ["null"])

def boolLiteral : Grammar := .token .bool (wholeWord ["true", "false"])

def float : Grammar := .token .float (.seq digits (.seq (char '.') digits))

def int : Grammar := .token .int digits

/-- Anything but the quote; a backslash takes the next character with it. -/
def inner (quote : Char) : Grammar :=
  .token .inner (.star (.alt (.seq (char '\\') (.one fun _ => true))
    (.seq (.unless (.alt (char quote) (char '\\'))) (.one fun _ => true))))

def quoted (quote : Char) : Grammar := .seq (char quote) (.seq (inner quote) (char quote))

def string : Grammar := .node .string (.alt (quoted '\x27') (quoted '\x22'))

def keyword : Grammar :=
  .token .keyword (wholeWord ["and", "or", "not", "neq", "eq", "lte", "lt", "gte", "gt"])

def ident : Grammar := .token .ident (.seq (.one isLetter) (.star (.one isNameChar)))

def index : Grammar := .token .index digits

def pathSegment : Grammar :=
  .alt (next (char '.') (.alt ident index))
    (next (char '[') (next (.alt index string) (char ']')))

def path : Grammar := .node .path (next (.unless keyword) (next ident (many pathSegment)))

def primary : Grammar :=
  choice [nullLiteral, boolLiteral, float, int, string,
    next (char '(') (next .again (char ')')), path]

def unary : Grammar := .node .unary (next (many negOp) primary)

def additive : Grammar := .node .additive (next unary (many (next addOp unary)))

def comparison : Grammar :=
  .node .comparison (next additive (optional (next compareOp additive)))

def notExpr : Grammar := .node .notExpr (next (many notOp) comparison)

def andExpr : Grammar := .node .andExpr (next notExpr (many (next andOp notExpr)))

/-- The rule that parentheses lead back to. -/
def orExpr : Grammar := .node .orExpr (next andExpr (many (next orOp andExpr)))

def expression : Grammar :=
  .node .expression (.seq spaces (next .again (.token .ending .ended)))

end Grammar

end DynamicSql.Expr
