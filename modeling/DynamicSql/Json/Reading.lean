import DynamicSql.Json.Number
import DynamicSql.Json.Quoted

/-!
The reader of documents. Each step passes at least one character before it goes on, so as many steps as there
are characters suffice.
-/
namespace DynamicSql.Json

def isSpace (c : Char) : Bool := c = ' ' || c = '\n' || c = '\t' || c = '\r'

def skipSpaces (s : Text) : Text := s.dropWhile isSpace

/-- A document whose text or name could not be decoded has no value. -/
def ofPieces (ps : List Piece) : Json :=
  match decode? ps with
  | some s => text s
  | none => unrepresentable

def member (ps : List Piece) (j : Json) : Option (List (Text × Json)) → Option (List (Text × Json)) :=
  fun rest => match decode? ps, rest with
    | some name, some members => some ((name, j) :: members)
    | _, _ => none

mutual

/-- Reads a value after blanks. -/
def readValue (fuel : Nat) (s : Text) : Option (Json × Text) :=
  match fuel with
  | 0 => none
  | fuel + 1 =>
    match skipSpaces s with
    | 'n' :: 'u' :: 'l' :: 'l' :: r => some (null, r)
    | 't' :: 'r' :: 'u' :: 'e' :: r => some (bool true, r)
    | 'f' :: 'a' :: 'l' :: 's' :: 'e' :: r => some (bool false, r)
    | '\x22' :: r => (pieces? r).map fun (ps, rest) => (ofPieces ps, rest)
    | '[' :: r =>
      match skipSpaces r with
      | ']' :: r => some (list [], r)
      | r => (readItems fuel r).map fun (items, rest) => (list items, rest)
    | '{' :: r =>
      match skipSpaces r with
      | '}' :: r => some (object [], r)
      | r => (readMembers fuel r).map fun (members, rest) =>
          (match members with
            | some members => object members
            | none => unrepresentable, rest)
    | r => (Numeral.read? r).map fun (n, rest) =>
        (match n.value? with
          | some v => number v
          | none => unrepresentable, rest)

/-- Reads the members of a list up to its closing bracket. -/
def readItems (fuel : Nat) (s : Text) : Option (List Json × Text) :=
  match fuel with
  | 0 => none
  | fuel + 1 =>
    match readValue fuel s with
    | none => none
    | some (j, r) =>
      match skipSpaces r with
      | ',' :: r => (readItems fuel r).map fun (items, rest) => (j :: items, rest)
      | ']' :: r => some ([j], r)
      | _ => none

/-- Reads the members of an object up to its closing brace; there are none when a name has no value. -/
def readMembers (fuel : Nat) (s : Text) : Option (Option (List (Text × Json)) × Text) :=
  match fuel with
  | 0 => none
  | fuel + 1 =>
    match skipSpaces s with
    | '\x22' :: r =>
      match pieces? r with
      | none => none
      | some (ps, r) =>
        match skipSpaces r with
        | ':' :: r =>
          match readValue fuel r with
          | none => none
          | some (j, r) =>
            match skipSpaces r with
            | ',' :: r => (readMembers fuel r).map fun (members, rest) => (member ps j members, rest)
            | '}' :: r => some (member ps j (some []), r)
            | _ => none
        | _ => none
    | _ => none

end

/-- The document that a whole text writes. -/
def parse? (s : Text) : Option Json :=
  match readValue (2 * s.length + 2) s with
  | some (j, rest) => if skipSpaces rest = [] then some j else none
  | none => none

end DynamicSql.Json
