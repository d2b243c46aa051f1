import DynamicSql.Json.Basic

/-!
Records in documents. A record is written as an object, whose unknown members are passed over and whose known
ones come at most once, or as a list of its fields in their order.
-/
namespace DynamicSql.Json

/-- The member of that name; a name that comes twice is refused. -/
def uniqueMember? (members : List (Text × Json)) (name : Text) : Option (Option Json) :=
  match members.filter fun entry => entry.1 == name with
  | [] => some none
  | [entry] => some (some entry.2)
  | _ => none

/-- The fields of a record with these names, as far as they are there. -/
def record? (names : List String) : Json → Option (List (Option Json))
  | object members => names.mapM fun name => uniqueMember? members name.toList
  | list items =>
    if items.length ≤ names.length then
      some (items.map some ++ List.replicate (names.length - items.length) none)
    else none
  | _ => none

def asText? : Json → Option Text
  | text s => some s
  | _ => none

/-- A text, or null for none. -/
def asOptionalText? : Json → Option (Option Text)
  | null => some none
  | text s => some (some s)
  | _ => none

/-- A whole number below the bound, or null for none. -/
def asOptionalNat? (limit : Nat) : Json → Option (Option Nat)
  | null => some none
  | number (.integer i) => if 0 ≤ i ∧ i < limit then some (some i.toNat) else none
  | _ => none

/-- The name of a choice without content: the text, or an object with that one name and null. -/
def asChoice? : Json → Option Text
  | text s => some s
  | object [(name, null)] => some name
  | _ => none

end DynamicSql.Json
