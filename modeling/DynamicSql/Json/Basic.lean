import DynamicSql.Entries

/-!
Documents. An object keeps its members as they were written, repeated names included; the canonical form of
a document has each name once, with its last value, in the order of the names.
-/
namespace DynamicSql

inductive Json.Number where
  | integer (i : Int)
  | float (x : Float)
  deriving Inhabited

inductive Json where
  | null
  | bool (b : Bool)
  | number (n : Json.Number)
  | text (s : Text)
  | list (items : List Json)
  | object (members : List (Text × Json))
  /-- Well formed, but without a value: a number beyond the range, an unpaired surrogate. -/
  | unrepresentable
  deriving Inhabited

namespace Json

/-- Collections may stand inside each other this deep. -/
def nestingLimit : Nat := 127

mutual

/-- The document has a value and nests no deeper than `limit`. -/
def readable (limit : Nat) : Json → Bool
  | unrepresentable => false
  | list items => decide (0 < limit) && readableItems (limit - 1) items
  | object members => decide (0 < limit) && readableMembers (limit - 1) members
  | _ => true

def readableItems (limit : Nat) : List Json → Bool
  | [] => true
  | j :: rest => readable limit j && readableItems limit rest

def readableMembers (limit : Nat) : List (Text × Json) → Bool
  | [] => true
  | (_, j) :: rest => readable limit j && readableMembers limit rest

end

mutual

def canonical : Json → Json
  | list items => list (canonicalItems items)
  | object members => object (Entries.sorted (Entries.ofPairs (canonicalMembers members)))
  | j => j

def canonicalItems : List Json → List Json
  | [] => []
  | j :: rest => canonical j :: canonicalItems rest

def canonicalMembers : List (Text × Json) → List (Text × Json)
  | [] => []
  | (name, j) :: rest => (name, canonical j) :: canonicalMembers rest

end

end Json

end DynamicSql
