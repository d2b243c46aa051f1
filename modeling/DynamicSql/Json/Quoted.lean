import DynamicSql.Text.Basic

/-!
Quoted texts of documents: reading with every escape, writing with the shortest one for each character that
needs it.
-/
namespace DynamicSql.Json

/-- What stands between the quotes: a character, or a unit of sixteen bits given in hexadecimal. -/
inductive Piece where
  | char (c : Char)
  | unit (n : Nat)
  deriving DecidableEq, Repr

def hexDigit? (c : Char) : Option Nat :=
  if c.isDigit then some (c.toNat - '0'.toNat)
  else if 'a' ≤ c ∧ c ≤ 'f' then some (c.toNat - 'a'.toNat + 10)
  else if 'A' ≤ c ∧ c ≤ 'F' then some (c.toNat - 'A'.toNat + 10)
  else none

/-- The character that a one-letter escape stands for. -/
def escaped? (c : Char) : Option Char :=
  match c with
  | '\x22' => some '\x22'
  | '\\' => some '\\'
  | '/' => some '/'
  | 'b' => some '\x08'
  | 'f' => some '\x0c'
  | 'n' => some '\n'
  | 'r' => some '\r'
  | 't' => some '\t'
  | _ => none

/-- Reads up to the closing quote: the pieces, and what follows the quote. -/
def pieces? : Text → Option (List Piece × Text)
  | [] => none
  | '\\' :: 'u' :: a :: b :: c :: d :: r =>
    match hexDigit? a, hexDigit? b, hexDigit? c, hexDigit? d with
    | some a, some b, some c, some d =>
      (pieces? r).map fun (ps, rest) => (.unit (a * 4096 + b * 256 + c * 16 + d) :: ps, rest)
    | _, _, _, _ => none
  | '\\' :: c :: r =>
    match escaped? c with
    | some e => (pieces? r).map fun (ps, rest) => (.char e :: ps, rest)
    | none => none
  | '\x22' :: r => some ([], r)
  | c :: r =>
    if c.toNat < 0x20 ∨ c = '\\' then none
    else (pieces? r).map fun (ps, rest) => (.char c :: ps, rest)

/-- The text of the pieces; a pair of surrogates is one character, and a single one is none. -/
def decode? : List Piece → Option Text
  | [] => some []
  | .char c :: r => (decode? r).map (c :: ·)
  | .unit n :: r =>
    if n < 0xD800 ∨ 0xDFFF < n then (decode? r).map (Char.ofNat n :: ·)
    else if n < 0xDC00 then
      match r with
      | .unit m :: r =>
        if 0xDC00 ≤ m ∧ m ≤ 0xDFFF then
          (decode? r).map (Char.ofNat (0x10000 + (n - 0xD800) * 0x400 + (m - 0xDC00)) :: ·)
        else none
      | _ => none
    else none

def escape (c : Char) : Text :=
  match c with
  | '\x22' => ['\\', '\x22']
  | '\\' => ['\\', '\\']
  | '\x08' => ['\\', 'b']
  | '\x0c' => ['\\', 'f']
  | '\n' => ['\\', 'n']
  | '\r' => ['\\', 'r']
  | '\t' => ['\\', 't']
  | c =>
    if c.toNat < 0x20 then
      ['\\', 'u', '0', '0', Nat.digitChar (c.toNat / 16), Nat.digitChar (c.toNat % 16)]
    else [c]

def encode : Text → Text
  | [] => []
  | c :: r => escape c ++ encode r

def quote (s : Text) : Text := '\x22' :: (encode s ++ ['\x22'])

end DynamicSql.Json
