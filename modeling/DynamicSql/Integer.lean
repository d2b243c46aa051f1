/-!
Integers of limited width. An exact integer is kept when it fits and refused otherwise, so nothing wraps.
Main statement: what is kept is the integer itself.
-/
namespace DynamicSql.Integer

/-- Numbers of 31, 32 and 64 bits lie below these bounds. -/
def bound31 : Nat := 2147483648
def bound32 : Nat := 4294967296
def bound64 : Nat := 18446744073709551616

def least : Int := -9223372036854775808

def greatest : Int := 9223372036854775807

/-- The integer as one of 64 bits, where it fits. -/
def ofInt? (i : Int) : Option Int64 :=
  if least ≤ i ∧ i ≤ greatest then some (Int64.ofInt i) else none

theorem least_le_toInt (n : Int64) : least ≤ n.toInt := by
  have h := Int64.le_toInt n
  simp only [least]
  omega

theorem toInt_le_greatest (n : Int64) : n.toInt ≤ greatest := by
  have h := Int64.toInt_lt n
  simp only [greatest]
  omega

theorem ofInt?_eq_some_iff {i : Int} {n : Int64} : ofInt? i = some n ↔ n.toInt = i := by
  constructor
  · intro h
    by_cases hi : least ≤ i ∧ i ≤ greatest
    · have hn : Int64.ofInt i = n := by simpa [ofInt?, hi] using h
      obtain ⟨low, high⟩ := hi
      simp only [least] at low
      simp only [greatest] at high
      rw [← hn]
      exact Int64.toInt_ofInt_of_le (by omega) (by omega)
    · simp [ofInt?, hi] at h
  · intro h
    have hi : least ≤ i ∧ i ≤ greatest := h ▸ ⟨least_le_toInt n, toInt_le_greatest n⟩
    rw [ofInt?, ite_cond_eq_true _ _ (eq_true hi), ← h, Int64.ofInt_toInt]

theorem ofInt?_eq_none_iff {i : Int} : ofInt? i = none ↔ i < least ∨ greatest < i := by
  simp only [ofInt?, ite_eq_right_iff, reduceCtorEq, imp_false]
  omega

end DynamicSql.Integer
