import DynamicSql.Decimal.Shortest
import DynamicSql.Text.Basic

/-!
How a floating-point number is written. The digits are always the shortest that read back; a layout says
where positional notation ends, whether a whole number keeps a fraction, and how infinities are spelled.
-/
namespace DynamicSql.Decimal

structure Layout where
  tie : Tie
  /-- Positions of the decimal point, counted from before the first digit, that are written positionally. -/
  positional : Int → Bool
  /-- Written after a whole number in positional notation. -/
  whole : Text
  nan : Text
  infinity : Text

/-- Spliced and displayed numbers are always positional, and whole ones have no fraction. -/
def Layout.display : Layout where
  tie := .up
  positional _ := true
  whole := []
  nan := "NaN".toList
  infinity := "inf".toList

/-- Documents keep a fraction, use an exponent outside `1e-5 ≤ x < 1e16`, and know no infinities. -/
def Layout.document : Layout where
  tie := .toEven
  positional point := decide (-5 < point ∧ point ≤ 16)
  whole := ".0".toList
  nan := "null".toList
  infinity := "null".toList

/-- The digits with the decimal point after the first `point` of them. -/
def Layout.placed (layout : Layout) (digits : Text) (point : Int) : Text :=
  if point ≤ 0 then '0' :: '.' :: (List.replicate (-point).toNat '0' ++ digits)
  else if digits.length ≤ point.toNat then
    digits ++ List.replicate (point.toNat - digits.length) '0' ++ layout.whole
  else digits.take point.toNat ++ '.' :: digits.drop point.toNat

/-- The power of ten with its sign. -/
def power (exponent : Int) : Text :=
  'e' :: (if exponent < 0 then '-' else '+') :: Text.ofNat exponent.natAbs

/-- One digit, the others after the point, and the power of ten. -/
def scientific (digits : Text) (point : Int) : Text :=
  let power := power (point - 1)
  match digits with
  | [] => power
  | [d] => d :: power
  | d :: others => d :: '.' :: (others ++ power)

def Layout.magnitude (layout : Layout) (d : Digits) : Text :=
  if d.digits = 0 then '0' :: layout.whole
  else
    let digits := Text.ofNat d.digits
    let point := d.exponent + digits.length
    if layout.positional point then layout.placed digits point else scientific digits point

/-- The number whose encoding is `bits`. -/
def Layout.writeBits (layout : Layout) (bits : Nat) : Text :=
  let negative := decide (signBound ≤ bits)
  let low := bits % signBound
  if low / significandBound + 1 = exponentBound then
    if low % significandBound ≠ 0 then layout.nan
    else if negative && layout.nan != layout.infinity then '-' :: layout.infinity
    else layout.infinity
  else
    let text := layout.magnitude ((Binary.ofBits low).shortest layout.tie)
    if negative then '-' :: text else text

def Layout.write (layout : Layout) (x : Float) : Text := layout.writeBits x.toBits.toNat

example : Layout.display.writeBits 0x444B1AE4D6E2EF50 = "1000000000000000000000".toList := by
  decide +kernel
example : Layout.document.writeBits 0x444B1AE4D6E2EF50 = "1e+21".toList := by decide +kernel
example : Layout.document.writeBits 0x430C6BF526340000 = "1000000000000000.0".toList := by
  decide +kernel
example : Layout.document.writeBits 0x3EE4F8B588E368F1 = "0.00001".toList := by decide +kernel
example : Layout.document.writeBits 0x3EB0C6F7A0B5ED8D = "1e-6".toList := by decide +kernel
example : Layout.display.writeBits 0x8000000000000000 = "-0".toList := by decide +kernel

end DynamicSql.Decimal
