import DynamicSql.Text.Basic

/-!
The characters with the Unicode property `White_Space`, and removal of them at the ends of a text.
-/
namespace DynamicSql.Text

/-- First and last code points of the ranges that have the property. -/
def blankRanges : List (Nat × Nat) :=
  [(0x9, 0xD), (0x20, 0x20), (0x85, 0x85), (0xA0, 0xA0), (0x1680, 0x1680), (0x2000, 0x200A),
    (0x2028, 0x2029), (0x202F, 0x202F), (0x205F, 0x205F), (0x3000, 0x3000)]

def isBlank (c : Char) : Bool :=
  blankRanges.any fun (first, last) => decide (first ≤ c.toNat) && decide (c.toNat ≤ last)

example : (blankRanges.map fun (first, last) => last + 1 - first).sum = 25 := by decide

def trimStart (s : Text) : Text := s.dropWhile isBlank

def trimEnd (s : Text) : Text := (s.reverse.dropWhile isBlank).reverse

def trim (s : Text) : Text := trimEnd (trimStart s)

def allBlank (s : Text) : Bool := s.all isBlank

end DynamicSql.Text
