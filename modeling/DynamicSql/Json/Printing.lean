import DynamicSql.Decimal.Layout
import DynamicSql.Json.Basic
import DynamicSql.Json.Quoted

/-!
The compact form of documents: no blanks, members in their order.
-/
namespace DynamicSql.Json

def Number.print : Number → Text
  | .integer i => Text.ofInt i
  | .float x => Decimal.Layout.document.write x

mutual

def print : Json → Text
  | null => "null".toList
  | bool b => if b then "true".toList else "false".toList
  | number n => n.print
  | text s => quote s
  | list items => '[' :: (printItems items ++ "]".toList)
  | object members => '{' :: (printMembers members ++ "\x7d".toList)
  | unrepresentable => "null".toList

def printItems : List Json → Text
  | [] => []
  | [j] => print j
  | j :: other :: rest => print j ++ ',' :: printItems (other :: rest)

def printMembers : List (Text × Json) → Text
  | [] => []
  | [(name, j)] => quote name ++ ':' :: print j
  | (name, j) :: other :: rest => quote name ++ ':' :: (print j ++ ',' :: printMembers (other :: rest))

end

end DynamicSql.Json
