import DynamicSql.Expr.Comparison
import DynamicSql.Proofs.Value.Binary64

/-!
The comparison operators beside each other. Equality and order tell pairs of values apart by cases of their
own. Main statements: two values that are in an order compare consistently unless they are two different integers
that have the same floating-point number, and no integers below `2 ^ 53` are.
-/
namespace DynamicSql.Value

open Float.Model (UnpackedFloat)

/-! Floating-point numbers. -/

/-- Comparing the other way round gives the other order. -/
theorem swap_compare (x y : UnpackedFloat) : (x.compare y).map Ordering.swap = y.compare x := by
  have hsign : ∀ s t : UnpackedFloat.Sign, (compare s t).swap = compare t s := by
    intro s t
    cases s <;> cases t <;> rfl
  cases x with
  | notANumber => cases y <;> rfl
  | infinity s =>
    cases y with
    | infinity t => simp [UnpackedFloat.compare, hsign]
    | notANumber | zero _ | finite _ _ _ _ => cases s <;> rfl
  | zero s =>
    cases y with
    | infinity t => cases t <;> rfl
    | finite t _ _ _ => cases t <;> rfl
    | notANumber | zero _ => rfl
  | finite s m e _ =>
    have hparts : ∀ n f, ((compare e f).then (compare m n)).swap = (compare f e).then (compare n m) := by
      intro n f
      rw [Ordering.swap_then, Int.compare_swap, Nat.compare_swap]
    cases y with
    | infinity t => cases t <;> rfl
    | notANumber => cases s <;> rfl
    | zero _ => cases s <;> rfl
    | finite t n f _ => cases s <;> cases t <;> simp [UnpackedFloat.compare, hparts]

/-- The three tests of two numbers are one comparison. -/
theorem compareFloats_eq (x y : Float) : compareFloats x y = x.toModel.unpack.compare y.toModel.unpack := by
  have hlt : ∀ a b : Float, a < b ↔ a.toModel.unpack.compare b.toModel.unpack = some .lt := by
    intro a b
    change decide (a.toModel.unpack.lt b.toModel.unpack = true) = true ↔ _
    simp [UnpackedFloat.lt]
  have heq : x == y ↔ x.toModel.unpack.compare y.toModel.unpack = some .eq := by
    change (x.toModel.unpack.beq y.toModel.unpack) = true ↔ _
    simp [UnpackedFloat.beq]
  have hswap := swap_compare x.toModel.unpack y.toModel.unpack
  rw [compareFloats]
  simp only [hlt, heq, ← hswap]
  cases x.toModel.unpack.compare y.toModel.unpack with
  | none => rfl
  | some o => cases o <;> rfl

theorem beq_floats_eq (x y : Float) : (x == y) = (compareFloats x y == some .eq) := by
  rw [compareFloats_eq]
  rfl

/-- Two different integers that have the same floating-point number. -/
def Conflated (v w : Value) : Prop :=
  ∃ i j, v = .int i ∧ w = .int j ∧ i ≠ j ∧ Float.ofInt i.toInt == Float.ofInt j.toInt

/-- The six operators tell one story about two values. -/
structure Consistent (v w : Value) : Prop where
  one : [CompareOp.lt, .eq, .gt].countP (compares · v w) = 1
  le : compares .le v w = (compares .lt v w || compares .eq v w)
  ge : compares .ge v w = (compares .gt v w || compares .eq v w)
  ne : compares .ne v w = !compares .eq v w
  same : ∀ i j, v = .int i → w = .int j → (compares .eq v w = true ↔ i = j)

theorem beq_texts_eq (s t : Text) : (s == t) = (compareTexts s t == .eq) := by
  unfold compareTexts
  by_cases hlt : s < t
  · have hne : s ≠ t := fun h => List.lt_irrefl t (h ▸ hlt)
    simp [hlt, hne]
  · by_cases heq : s = t <;> simp [hlt, heq]

theorem beq_bools_eq (a b : Bool) : (a == b) = (compareBools a b == .eq) := by
  cases a <;> cases b <;> rfl

theorem compareInts_eq_iff (i j : Int64) : compareInts i j = .eq ↔ i = j := by
  unfold compareInts
  by_cases hlt : i < j
  · have hne : i ≠ j := fun h => Int64.lt_irrefl (h ▸ hlt)
    simp [hlt, hne]
  · by_cases heq : i = j <;> simp [hlt, heq]

/-- But for two texts, numbers are equal when their floats are. -/
theorem equals_of_numeric {v w : Value} {x y : Float} (hv : v.numeric? = some x) (hw : w.numeric? = some y)
    (htexts : ∀ s t, v = .text s → w ≠ .text t) : v.equals w = (x == y) := by
  have number : ∀ {u : Value} {z : Float}, u.numeric? = some z → u.isNumber ∨ ∃ s, u = .text s := by
    intro u z hu
    cases u with
    | int _ | float _ => exact .inl rfl
    | text s => exact .inr ⟨s, rfl⟩
    | null | bool _ | list _ | map _ => cases hu
  have hnumber : v.isNumber || w.isNumber := by
    rcases number hv with h | ⟨s, rfl⟩
    · simp [h]
    rcases number hw with h | ⟨t, rfl⟩
    · simp [h]
    · exact absurd rfl (htexts s t rfl)
  fun_cases equals v w with
  | case1 => cases hv
  | case2 => cases hv
  | case3 => cases hw
  | case4 s t => exact absurd rfl (htexts s t rfl)
  | case5 v w _ _ _ _ _ a b hb ha =>
    rw [Option.some.inj (ha.symm.trans hv), Option.some.inj (hb.symm.trans hw)]
  | case6 v w _ _ _ _ _ hnone => exact (hnone x y hv hw).elim
  | case7 v w _ _ _ _ hnone => exact absurd hnumber hnone

/-- Two values that are in an order: two texts, two truth values, two integers, or two that are or write
numbers, of which one is a number. -/
theorem order?_cases {v w : Value} {o : Ordering} (h : v.order? w = some o) :
    (∃ s t, v = .text s ∧ w = .text t ∧ compareTexts s t = o) ∨
    (∃ a b, v = .bool a ∧ w = .bool b ∧ compareBools a b = o) ∨
    (∃ i j, v = .int i ∧ w = .int j ∧ compareInts i j = o) ∨
    (∃ x y, v.numeric? = some x ∧ w.numeric? = some y ∧ v.equals w = (x == y) ∧ compareFloats x y = some o) := by
  fun_cases order? v w with
  | case1 => simp [order?] at h
  | case2 => simp [order?] at h
  | case3 s t => exact .inl ⟨s, t, rfl, rfl, by simpa [order?] using h⟩
  | case4 a b => exact .inr (.inl ⟨a, b, rfl, rfl, by simpa [order?] using h⟩)
  | case5 i j => exact .inr (.inr (.inl ⟨i, j, rfl, rfl, by simpa [order?] using h⟩))
  | case6 v w hn hn' ht _ _ x y hy hx =>
    refine .inr (.inr (.inr ⟨x, y, hx, hy, equals_of_numeric hx hy ht, ?_⟩))
    rw [order?, hx, hy] at h <;> assumption
  | case7 v w _ _ _ _ _ hnone =>
    rw [order?] at h <;> try assumption
    split at h
    · next x y hx hy => exact (hnone x y hx hy).elim
    · cases h

/-- Equality is that of the order, but for two integers that of their floating-point numbers. -/
theorem equals_eq {v w : Value} {o : Ordering} (h : v.order? w = some o) :
    v.equals w = (o == .eq) ∨
      ∃ i j, v = .int i ∧ w = .int j ∧ v.equals w = (Float.ofInt i.toInt == Float.ofInt j.toInt) := by
  rcases order?_cases h with ⟨s, t, rfl, rfl, rfl⟩ | ⟨a, b, rfl, rfl, rfl⟩ | ⟨i, j, rfl, rfl, -⟩ |
    ⟨x, y, -, -, heq, hxy⟩
  · exact .inl (beq_texts_eq s t)
  · exact .inl (beq_bools_eq a b)
  · exact .inr ⟨i, j, rfl, rfl, rfl⟩
  · left
    rw [heq, beq_floats_eq, hxy]
    cases o <;> rfl

/-- Equality follows the order where no two integers share a float. -/
theorem equals_eq_of_not_conflated {v w : Value} {o : Ordering} (h : v.order? w = some o) (hc : ¬ Conflated v w) :
    v.equals w = (o == .eq) := by
  rcases equals_eq h with heq | ⟨i, j, rfl, rfl, heq⟩
  · exact heq
  obtain rfl : compareInts i j = o := by simpa [order?] using h
  by_cases hij : i = j
  · subst hij
    rw [heq, Binary64.beq_self (Binary64.isNaN_ofInt i.toInt), (compareInts_eq_iff i i).2 rfl]
    rfl
  · have hne : ¬ Float.ofInt i.toInt == Float.ofInt j.toInt := fun hf => hc ⟨i, j, rfl, rfl, hij, hf⟩
    rw [heq, Bool.eq_false_iff.2 hne, eq_comm, beq_eq_false_iff_ne]
    exact mt (compareInts_eq_iff i j).1 hij

theorem consistent_of_not_conflated {v w : Value} {o : Ordering} (h : v.order? w = some o) (hc : ¬ Conflated v w) :
    Consistent v w := by
  have heq := equals_eq_of_not_conflated h hc
  refine ⟨?_, ?_, ?_, rfl, ?_⟩
  · cases o <;> simp [compares, heq, h]
  · simp [compares, heq, h]
  · simp [compares, heq, h]
  · rintro i j rfl rfl
    obtain rfl : compareInts i j = o := by simpa [order?] using h
    rw [compares, heq, beq_iff_eq, compareInts_eq_iff]

/-- Equality and order disagree on conflated values, and on no others. -/
theorem compares_consistent_iff {v w : Value} {o : Ordering} (h : v.order? w = some o) :
    Consistent v w ↔ ¬ Conflated v w := by
  constructor
  · rintro hcons ⟨i, j, rfl, rfl, hij, hf⟩
    exact hij ((hcons.same i j rfl rfl).1 hf)
  · exact consistent_of_not_conflated h

/-- A written number against an integer. -/
theorem compares_price_consistent :
    order? (.text " 7.50".toList) (.int 8) = some .lt ∧ Consistent (.text " 7.50".toList) (.int 8) := by
  have h : order? (.text " 7.50".toList) (.int 8) = some .lt := by decide +kernel
  refine ⟨h, (compares_consistent_iff h).mpr ?_⟩
  rintro ⟨i, j, hi, -⟩
  cases hi

/-- The least integers that are conflated: the greater is equal to the less, and is greater. -/
theorem neighbours_inconsistent :
    order? (.int 9007199254740993) (.int 9007199254740992) = some .gt ∧
      compares .eq (.int 9007199254740993) (.int 9007199254740992) = true ∧
      ¬ Consistent (.int 9007199254740993) (.int 9007199254740992) :=
  ⟨by decide +kernel, by decide +kernel, fun h => absurd h.one (by decide +kernel)⟩

theorem consistent_of_small {i j : Int64} (hi : i.toInt.natAbs < 2 ^ 53) (hj : j.toInt.natAbs < 2 ^ 53) :
    Consistent (.int i) (.int j) := by
  refine consistent_of_not_conflated rfl ?_
  rintro ⟨_, _, ⟨⟩, ⟨⟩, hij, hf⟩
  exact hij (Int64.toInt.inj (Binary64.ofInt_injective hi hj hf))

end DynamicSql.Value
