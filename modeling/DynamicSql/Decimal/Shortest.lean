/-!
The decimal of fewest digits that reads back as a given floating-point number. A finite number is `m · 2 ^ q`;
the reals that round to it form an interval around it, with its ends exactly when `m` is even. On each
decimal grid only the two neighbours of the number have to be tried, and all comparisons are between natural
numbers.
-/
namespace DynamicSql.Decimal

/-- Which of two equally near neighbours is taken. -/
inductive Tie where
  | up | toEven
  deriving DecidableEq, Repr

/-- The magnitude `significand · 2 ^ exponent` of a finite number. -/
structure Binary where
  significand : Nat
  exponent : Int
  /-- The number below lies half as far away as the number above. -/
  lowerIsNear : Bool
  deriving DecidableEq, Repr

/-- The number `digits · 10 ^ exponent`. -/
structure Digits where
  digits : Nat
  exponent : Int
  deriving DecidableEq, Repr

/-- Two to the number of bits that the significand is stored in. -/
def significandBound : Nat := 4503599627370496

/-- Two to the number of bits that the exponent is stored in. -/
def exponentBound : Nat := 2048

/-- Two to the number of the sign's bit. -/
def signBound : Nat := 9223372036854775808

/-- The magnitude that the 63 low bits of a finite number encode. -/
def Binary.ofBits (bits : Nat) : Binary :=
  let fraction : Nat := bits % significandBound
  let biased : Nat := bits / significandBound % exponentBound
  if biased = 0 then ⟨fraction, -1074, false⟩
  else ⟨significandBound + fraction, (biased : Int) - 1075, fraction == 0 && biased != 1⟩

namespace Binary

/-- The number `a · 10 ^ k · 2 ^ q`, without the powers that are negative. -/
def scaled (a : Nat) (k q : Int) : Nat := (a * Nat.pow 10 k.toNat) <<< q.toNat

/-- Compares `a · 10 ^ k` with `b · 2 ^ q`. -/
def compareScaled (a : Nat) (k : Int) (b : Nat) (q : Int) : Ordering :=
  compare (scaled a k (-q)) (scaled b (-k) q)

/-- The decimal `c · 10 ^ k` reads back as the number. -/
def holds (x : Binary) (c : Nat) (k : Int) : Bool :=
  let q := x.exponent - 2
  let middle := 4 * x.significand
  let low := middle - (if x.lowerIsNear then 1 else 2)
  let closed := x.significand % 2 == 0
  (match compareScaled c k low q with
    | .gt => true
    | .eq => closed
    | .lt => false) &&
  (match compareScaled c k (middle + 2) q with
    | .lt => true
    | .eq => closed
    | .gt => false)

/-- The exponent `e` with `10 ^ (e - 1) ≤ x < 10 ^ e`. -/
def magnitude (x : Binary) : Int :=
  let num := scaled x.significand 0 x.exponent
  let den := scaled 1 0 (-x.exponent)
  if den ≤ num then ((Nat.toDigits 10 (num / den)).length : Int)
  else 1 - ((Nat.toDigits 10 (den / num)).length : Int)

/-- The nearest point of the grid of `10 ^ k` that reads back, if one does. -/
def onGrid? (tie : Tie) (x : Binary) (k : Int) : Option Nat :=
  let num := scaled x.significand (-k) x.exponent
  let den := scaled 1 k (-x.exponent)
  let below := num / den
  let rest := num % den
  if rest = 0 then some below
  else
    match x.holds below k, x.holds (below + 1) k with
    | false, false => none
    | true, false => some below
    | false, true => some (below + 1)
    | true, true =>
      match compare (2 * rest) den with
      | .lt => some below
      | .gt => some (below + 1)
      | .eq =>
        match tie with
        | .up => some (below + 1)
        | .toEven => some (if below % 2 = 0 then below else below + 1)

end Binary

/-- The same number with a last digit that is not zero. -/
def Digits.stripZeros : Nat → Digits → Digits
  | 0, d => d
  | fuel + 1, d =>
    if d.digits ≠ 0 ∧ d.digits % 10 = 0 then stripZeros fuel ⟨d.digits / 10, d.exponent + 1⟩ else d

/-- Tries the grids of `n`, `n + 1`, … digits; seventeen always suffice. -/
def Binary.search (tie : Tie) (x : Binary) (magnitude : Int) : Nat → Nat → Digits
  | 0, _ => ⟨x.significand, 0⟩
  | fuel + 1, n =>
    let k := magnitude - n
    match x.onGrid? tie k with
    | some c => Digits.stripZeros 20 ⟨c, k⟩
    | none => search tie x magnitude fuel (n + 1)

def Binary.shortest (tie : Tie) (x : Binary) : Digits :=
  if x.significand = 0 then ⟨0, 0⟩ else x.search tie x.magnitude 17 1

example : (Binary.ofBits 1).shortest .up = ⟨5, -324⟩ := by decide +kernel
example : (Binary.ofBits 0x3FB999999999999A).shortest .up = ⟨1, -1⟩ := by decide +kernel
example : (Binary.ofBits 0x44B52D02C7E14AF6).shortest .up = ⟨1, 23⟩ := by decide +kernel

end DynamicSql.Decimal
