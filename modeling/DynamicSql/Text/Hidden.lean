import DynamicSql.Text.Formless
import DynamicSql.Text.Marks

/-!
The characters that a quoted text does not show as they are: those without a form of their own, and the marks
that join the character before them.
-/
namespace DynamicSql.Text

def within (ranges : List (Nat × Nat)) (n : Nat) : Bool :=
  ranges.any fun (first, last) => decide (first ≤ n) && decide (n ≤ last)

/-- The character is written by its code point. Printed ASCII is settled without the tables. -/
def isHidden (c : Char) : Bool :=
  let n := c.toNat
  if 0x20 ≤ n ∧ n < 0x7F then false else within formlessRanges n || within markRanges n

example : isHidden '\n' = true ∧ isHidden 'a' = false ∧ isHidden 'é' = false := by decide +kernel

/-- The soft hyphen, the acute accent on its own, and the halfwidth voiced sound mark. -/
example : isHidden '\u00AD' = true ∧ isHidden '\u0301' = true ∧ isHidden '\uFF9E' = false := by
  decide +kernel

end DynamicSql.Text
