import DynamicSql.Text.Ascii

/-!
Reading a floating-point number: an optional sign, then digits with at most one point and at least one
digit, an optional power of ten, or one of the words for infinity and not-a-number. The result is the
nearest representable number.
-/
namespace DynamicSql.Decimal

/-- The nearest number to `mantissa · 10 ^ exponent`; magnitudes far outside the range are settled at once. -/
def nearest (mantissa : Nat) (exponent : Int) : Float :=
  if mantissa = 0 then 0
  else
    let magnitude := exponent + (Text.ofNat mantissa).length
    if magnitude > 310 then 1 / 0
    else if magnitude < -330 then 0
    else Float.ofScientific mantissa (exponent < 0) exponent.natAbs

/-- The power of ten after its mark: an optional sign and at least one digit. -/
def readPower? : Text → Option Int
  | '-' :: r => (Text.natOfDigits? r).map fun n => -(n : Int)
  | '+' :: r => (Text.natOfDigits? r).map fun n => (n : Int)
  | r => (Text.natOfDigits? r).map fun n => (n : Int)

/-- Digits with at most one point, and an optional power of ten. -/
def readMagnitude? (s : Text) : Option Float :=
  let whole := s.takeWhile Char.isDigit
  let afterWhole := s.dropWhile Char.isDigit
  let (fraction, afterFraction) := match afterWhole with
    | '.' :: r => (r.takeWhile Char.isDigit, r.dropWhile Char.isDigit)
    | r => ([], r)
  let digits := whole ++ fraction
  if digits = [] then none
  else
    let power? : Option Int := match afterFraction with
      | [] => some 0
      | c :: r => if c = 'e' ∨ c = 'E' then readPower? r else none
    power?.map fun power => nearest (Nat.ofDigitChars 10 digits 0) (power - fraction.length)

def readUnsigned? (s : Text) : Option Float :=
  let word := Text.toLower s
  if word = "nan".toList then some (0 / 0)
  else if word = "inf".toList ∨ word = "infinity".toList then some (1 / 0)
  else readMagnitude? s

def readFloat? : Text → Option Float
  | '-' :: r => (readUnsigned? r).map fun x => -x
  | '+' :: r => readUnsigned? r
  | s => readUnsigned? s

end DynamicSql.Decimal
