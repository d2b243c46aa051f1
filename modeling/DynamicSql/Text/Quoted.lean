import DynamicSql.Text.Hidden
import DynamicSql.Text.Basic

/-!
Texts between double quotes, as lists of names are logged: quotes, backslashes and hidden characters are
escaped.
-/
namespace DynamicSql.Text

/-- The code point in hexadecimal digits, in braces. -/
def codePoint (c : Char) : Text :=
  '\\' :: 'u' :: '{' :: (Nat.toDigits 16 c.toNat ++ ['}'])

def escapeQuoted (c : Char) : Text :=
  match c with
  | '\x00' => ['\\', '0']
  | '\t' => ['\\', 't']
  | '\r' => ['\\', 'r']
  | '\n' => ['\\', 'n']
  | '\x22' => ['\\', '\x22']
  | '\\' => ['\\', '\\']
  | c => if isHidden c then codePoint c else [c]

def quoted (s : Text) : Text := '\x22' :: (s.flatMap escapeQuoted ++ ['\x22'])

/-- Quoted texts in brackets, with a comma and a space between. -/
def quotedList (texts : List Text) : Text :=
  '[' :: (join [',', ' '] (texts.map quoted) ++ [']'])

example : quotedList [['a'], ['\x22']] = "[\x22a\x22, \x22\\\x22\x22]".toList := by decide

end DynamicSql.Text
