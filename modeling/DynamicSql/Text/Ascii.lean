import DynamicSql.Text.Basic

/-!
ASCII letter case. Letters outside ASCII have no case here: names of settings, modes and connectors are
compared by their ASCII letters alone.
-/
namespace DynamicSql.Text

def toLower (s : Text) : Text := s.map Char.toLower

def toUpper (s : Text) : Text := s.map Char.toUpper

def equalIgnoringCase (s t : Text) : Bool := toLower s == toLower t

@[simp] theorem equalIgnoringCase_self (s : Text) : equalIgnoringCase s s = true := by
  simp [equalIgnoringCase]

end DynamicSql.Text
