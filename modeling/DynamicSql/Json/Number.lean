import DynamicSql.Json.Basic

/-!
Numbers of documents. A whole number of 64 bits is exact. Any other number is read from the first digits that
fit an unsigned word, scaled by one correctly rounded multiplication or division, so the result can be
off by the last place.
-/
namespace DynamicSql.Json

/-- A number as it is written. -/
structure Numeral where
  negative : Bool
  whole : Text
  fraction : Text
  /-- Sign and digits of the power of ten. -/
  power : Option (Bool × Text)
  deriving DecidableEq, Repr

namespace Numeral

/-- Appends digits as long as the number fits a word: the number, how many were taken, how many are left. -/
def gather (significand taken : Nat) : Text → Nat × Nat × Nat
  | [] => (significand, taken, 0)
  | c :: rest =>
    let next := significand * 10 + (c.toNat - '0'.toNat)
    if next < Integer.bound64 then gather next (taken + 1) rest else (significand, taken, rest.length + 1)

/-- Powers of ten up to this one are numbers of their own. -/
def greatestPower : Nat := 308

def powerOfTen (n : Nat) : Float := Float.ofScientific 1 false n

/-- Scales by a power of ten; nothing when the result is beyond the range. -/
def scale : Nat → Float → Int → Option Float
  | 0, x, _ => some x
  | fuel + 1, x, exponent =>
    if exponent.natAbs ≤ greatestPower then
      if 0 ≤ exponent then
        let y := x * powerOfTen exponent.toNat
        if y.isInf then none else some y
      else some (x / powerOfTen exponent.natAbs)
    else if x == 0 then some x
    else if 0 ≤ exponent then none
    else scale fuel (x / powerOfTen greatestPower) (exponent + greatestPower)

/-- A power of ten beyond 32 bits is as good as the last one within them. -/
def clampPower (i : Int) : Int :=
  let bound : Int := Integer.bound31
  if i < -bound then -bound else if bound ≤ i then bound - 1 else i

def signed (negative : Bool) (x : Float) : Float := if negative then -x else x

/-- Six divisions bring every number below the range to zero. -/
def scaleFuel : Nat := 8

/-- The number, or nothing when it is beyond the range. -/
def value? (n : Numeral) : Option Number :=
  let (whole, _, dropped) := gather 0 0 n.whole
  if n.fraction = [] ∧ n.power = none ∧ dropped = 0 then
    let i : Int := if n.negative then -(whole : Int) else whole
    if n.negative ∧ (i = 0 ∨ i < Integer.least) then some (.float (-Float.ofNat whole)) else some (.integer i)
  else
    let (significand, taken, _) := gather whole 0 n.fraction
    let exponent : Int := dropped - taken
    let scaled := match n.power with
      | none => scale scaleFuel (Float.ofNat significand) exponent
      | some (down, digits) =>
        let power := Nat.ofDigitChars 10 digits 0
        if Integer.bound31 ≤ power then
          if significand ≠ 0 ∧ !down then none else some 0
        else
          let power : Int := if down then -(power : Int) else power
          scale scaleFuel (Float.ofNat significand) (clampPower (exponent + power))
    scaled.map fun x => .float (signed n.negative x)

/-- Reads a number at the start of a text. -/
def read? (s : Text) : Option (Numeral × Text) :=
  let (negative, s) := match s with
    | '-' :: r => (true, r)
    | r => (false, r)
  let whole := s.takeWhile Char.isDigit
  let s := s.dropWhile Char.isDigit
  if whole = [] ∨ (whole.head? = some '0' ∧ whole.length ≠ 1) then none
  else
    let fraction? : Option (Text × Text) := match s with
      | '.' :: r =>
        let digits := r.takeWhile Char.isDigit
        if digits = [] then none else some (digits, r.dropWhile Char.isDigit)
      | r => some ([], r)
    match fraction? with
    | none => none
    | some (fraction, s) =>
      let power (down : Bool) (r : Text) : Option (Numeral × Text) :=
        let digits := r.takeWhile Char.isDigit
        if digits = [] then none
        else some (⟨negative, whole, fraction, some (down, digits)⟩, r.dropWhile Char.isDigit)
      match s with
      | c :: r =>
        if c = 'e' ∨ c = 'E' then
          match r with
          | '+' :: t => power false t
          | '-' :: t => power true t
          | t => power false t
        else some (⟨negative, whole, fraction, none⟩, s)
      | [] => some (⟨negative, whole, fraction, none⟩, [])

end Numeral

end DynamicSql.Json
