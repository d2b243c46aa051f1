import Mathlib

/-!
Floating-point numbers of integers. None is a not-a-number, so that each is equal to itself, and integers below
`2 ^ 53` in magnitude have numbers of their own.
-/
namespace DynamicSql.Binary64

open Float.Model Float.Model.UnpackedFloat

theorem beq_self {x : Float} (h : x.toModel.unpack.isNaN = false) : (x == x) = true := by
  have hsign : ∀ s : Sign, compare s s = .eq := by
    intro s
    cases s <;> rfl
  change x.toModel.unpack.beq x.toModel.unpack = true
  cases hu : x.toModel.unpack with
  | notANumber => simp [hu, UnpackedFloat.isNaN] at h
  | infinity s => simp [UnpackedFloat.beq, UnpackedFloat.compare, hsign]
  | zero s => rfl
  | finite s m e _ => cases s <;> simp [UnpackedFloat.beq, UnpackedFloat.compare]

/-! Packing and rounding make no not-a-number. -/

theorem isNaN_unpack {spec : Format} {b : BitVec spec.numBits}
    (h : unpackExponent b ≠ -1#_ ∨ unpackMantissa b = 0#_) : (UnpackedFloat.unpack spec b).isNaN = false := by
  unfold UnpackedFloat.unpack
  by_cases he : unpackExponent b = -1#_
  · simp [he, h.resolve_left (not_not_intro he), UnpackedFloat.isNaN]
  · simp only [he, if_false]
    split
    · split <;> rfl
    · rfl

/-- Packing and unpacking makes no NaN. -/
theorem isNaN_unpack_pack {u : UnpackedFloat} (h : u.isNaN = false) : (Float.Model.pack u).unpack.isNaN = false := by
  apply isNaN_unpack
  change unpackExponent (UnpackedFloat.pack Format.binary64 u) ≠ _ ∨
    unpackMantissa (UnpackedFloat.pack Format.binary64 u) = _
  fun_cases UnpackedFloat.pack with
  | case1 => cases h
  | case2 => simp [packedInfinity]
  | case3 => simp [packedZero]
  | case4 => simp [packedInfinity]
  | case5 s m e _ bits biased hsmall _ =>
    left
    have hlt : biased < 2 ^ 11 - 1 := by simpa using hsmall
    simp [← BitVec.toNat_inj]
    omega
  | case6 => simp

theorem isNaN_roundWithAccuracy (s : Sign) (m : Nat) (e : Int) (a : Accuracy) :
    (roundWithAccuracy Format.binary64 s m e a).isNaN = false := by
  unfold roundWithAccuracy
  simp only
  split <;> rfl

theorem isNaN_normalize (m e : Int) : (normalize Format.binary64 m e .positive).isNaN = false := by
  unfold UnpackedFloat.normalize
  split
  · exact isNaN_roundWithAccuracy _ _ _ _
  · rfl
  · exact isNaN_roundWithAccuracy _ _ _ _

theorem isNaN_mul_finite {u : UnpackedFloat} (h : u.isNaN = false) (s : Sign) (m : Nat) (e : Int) (hm : 0 < m) :
    (UnpackedFloat.mul Format.binary64 u (.finite s m e hm)).isNaN = false := by
  cases u with
  | notANumber => cases h
  | infinity _ => rfl
  | zero _ => rfl
  | finite _ _ _ _ => exact isNaN_roundWithAccuracy _ _ _ _

theorem isNaN_div_finite {u : UnpackedFloat} (h : u.isNaN = false) (s : Sign) (m : Nat) (e : Int) (hm : 0 < m) :
    (UnpackedFloat.div Format.binary64 u (.finite s m e hm)).isNaN = false := by
  cases u with
  | notANumber => cases h
  | infinity _ => rfl
  | zero _ => rfl
  | finite _ _ _ _ => exact isNaN_roundWithAccuracy _ _ _ _

theorem isNaN_neg {u : UnpackedFloat} (h : u.isNaN = false) : u.neg.isNaN = false := by
  cases u with
  | notANumber => cases h
  | infinity _ => rfl
  | zero _ => rfl
  | finite _ _ _ _ => rfl

theorem isNaN_ofScientific (n k : Nat) : (UnpackedFloat.ofScientific Format.binary64 n k).isNaN = false := by
  unfold UnpackedFloat.ofScientific
  split
  · rfl
  split
  · rfl
  split
  · rfl
  rw [if_pos (Int.natCast_nonneg k)]
  exact isNaN_mul_finite rfl _ _ _ _

/-- One, by which the number of an integer below `2 ^ 53` is multiplied. -/
def one : Float := Float.exactlyRepresentablePowersOfTen[0]

theorem unpack_one : one.toModel.unpack = .finite .positive (1 <<< 52) (-52) (by decide) := rfl

/-- A small number is converted as a machine word. -/
theorem ofNat_small {n : Nat} (hlt : n < 2 ^ 53) : Float.ofNat n = n.toUInt64.toFloat * one := by
  change Float.ofScientific n false 0 = _
  rw [Float.ofScientific, dif_pos ⟨hlt, by decide⟩]
  rfl

/-- No natural number is converted to NaN. -/
theorem isNaN_ofNat (n : Nat) : (Float.ofNat n).toModel.unpack.isNaN = false := by
  by_cases hlt : n < 2 ^ 53
  · rw [ofNat_small hlt]
    apply isNaN_unpack_pack
    rw [unpack_one]
    exact isNaN_mul_finite (isNaN_unpack_pack (isNaN_normalize n.toUInt64.toNat 0)) _ _ _ _
  · change (Float.ofScientific n false 0).toModel.unpack.isNaN = false
    rw [Float.ofScientific, dif_neg (fun h => hlt h.1)]
    exact isNaN_unpack_pack (isNaN_ofScientific n 0)

theorem isNaN_ofInt (i : Int) : (Float.ofInt i).toModel.unpack.isNaN = false := by
  cases i with
  | ofNat n => exact isNaN_ofNat n
  | negSucc n => exact isNaN_unpack_pack (isNaN_neg (isNaN_ofNat (n + 1)))

def isProper (x : Float) : Bool :=
  match x.toModel.unpack with
  | .finite _ _ _ _ => true
  | _ => false

theorem exists_finite {x : Float} (h : isProper x = true) : ∃ s m e hm, x.toModel.unpack = .finite s m e hm := by
  unfold isProper at h
  split at h
  · next hx => exact ⟨_, _, _, _, hx⟩
  · cases h

/-- Scaling by a proper number makes no not-a-number. -/
theorem isNaN_scaled {x y : Float} (hx : x.isNaN = false) (hy : isProper y = true) :
    (x * y).isNaN = false ∧ (x / y).isNaN = false := by
  obtain ⟨s, m, e, hm, he⟩ := exists_finite hy
  constructor
  · apply isNaN_unpack_pack
    rw [he]
    exact isNaN_mul_finite hx s m e hm
  · apply isNaN_unpack_pack
    rw [he]
    exact isNaN_div_finite hx s m e hm

/-! Numbers in normal form, which packing and rounding leave as they are. -/

structure Normal (m : Nat) (e : Int) : Prop where
  mantissa : m.log2 = 52
  least : -1074 ≤ e
  most : e ≤ 971

theorem Normal.pos {m : Nat} {e : Int} (h : Normal m e) : 0 < m := by
  rcases Nat.eq_zero_or_pos m with rfl | hm
  · exact absurd h.mantissa (by decide)
  · exact hm

theorem unpackSign_packComponents {spec : Format} (s : Sign) (e : BitVec spec.exponentBits)
    (m : BitVec spec.mantissaBitsWithoutImplicit) : unpackSign (packComponents spec s e m) = s.toBitVec := by
  ext i hi
  obtain rfl : i = 0 := by omega
  have hlast : ¬ spec.mantissaBitsWithoutImplicit + spec.exponentBits < spec.mantissaBitsWithoutImplicit := by omega
  simp [unpackSign, packComponents, BitVec.getLsbD_append, hlast, BitVec.getElem_append]

theorem pack_normal (s : Sign) {m : Nat} {e : Int} (h : Normal m e) {b : Nat} (hb : e + 1075 = b) :
    UnpackedFloat.pack Format.binary64 (.finite s m e h.pos) =
      packComponents Format.binary64 s (BitVec.ofNat 11 b) (BitVec.ofNat 52 m) := by
  have hmost := h.most
  have hbiased :
      (e + (Format.binary64.exponentBias : Int) + (Format.binary64.mantissaBitsWithoutImplicit : Int)).toNat = b := by
    change (e + 1023 + 52).toNat = b
    omega
  have hsmall : ¬ 2 ^ Format.binary64.exponentBits ≤ b + 1 := by
    rw [show 2 ^ Format.binary64.exponentBits = 2048 from rfl]
    omega
  have hbits : m.log2 + 1 = Format.binary64.mantissaBits := by
    rw [h.mantissa]
    rfl
  unfold UnpackedFloat.pack
  simp only [hbiased, hsmall, hbits, if_true, if_false]

theorem unpack_normal (s : Sign) {m : Nat} {e : Int} (h : Normal m e) {b : Nat} (hb : e + 1075 = b) :
    UnpackedFloat.unpack Format.binary64
      (packComponents Format.binary64 s (BitVec.ofNat 11 b) (BitVec.ofNat 52 m)) = .finite s m e h.pos := by
  have hleast := h.least
  have hmost := h.most
  have hexp : (BitVec.ofNat 11 b).toNat = b := by
    rw [BitVec.toNat_ofNat]
    omega
  have htop : BitVec.ofNat 11 b ≠ -1#11 := by
    rw [Ne, ← BitVec.toNat_inj, hexp]
    change ¬ b = 2047
    omega
  have hbottom : BitVec.ofNat 11 b ≠ 0#11 := by
    rw [Ne, ← BitVec.toNat_inj, hexp]
    change ¬ b = 0
    omega
  have hm : (1#1 ++ BitVec.ofNat 52 m).toNat = m := by
    obtain ⟨hlow, hhigh⟩ := (Nat.log2_eq_iff (Nat.ne_of_gt h.pos)).1 h.mantissa
    have hrest : m % 2 ^ 52 < 2 ^ 52 := Nat.mod_lt _ (by decide)
    rw [BitVec.toNat_append, BitVec.toNat_ofNat m 52, ← Nat.shiftLeft_add_eq_or_of_lt hrest]
    change 2 ^ 52 + m % 2 ^ 52 = m
    omega
  have hs : Sign.ofBitVec s.toBitVec = s := by cases s <;> rfl
  have he : ((BitVec.ofNat 11 b).toNat : Int) - (Format.binary64.exponentBias + (52 : Nat)) = e := by
    rw [hexp]
    change (b : Int) - (1023 + 52) = e
    omega
  unfold UnpackedFloat.unpack
  simp only [unpackMantissa_packComponents, unpackExponent_packComponents, unpackSign_packComponents]
  rw [if_neg htop, if_neg hbottom]
  simp only [hs, hm, he]

/-- A normal number comes back from its bits. -/
theorem unpack_pack_normal (s : Sign) {m : Nat} {e : Int} (h : Normal m e) :
    (Float.Model.pack (.finite s m e h.pos)).unpack = .finite s m e h.pos := by
  have hleast := h.least
  obtain ⟨b, hb⟩ : ∃ b : Nat, e + 1075 = b := ⟨(e + 1075).toNat, by omega⟩
  rw [Float.Model.unpack, Float.Model.pack]
  simp only [pack_normal s h hb, unpack_normal s h hb]

theorem shiftRight_shiftLeft (m k : Nat) : ExtendedMantissa.mk (m <<< k) false false >>> k = ⟨m, false, false⟩ := by
  change k.repeat ExtendedMantissa.shiftRightOne _ = _
  induction k generalizing m with
  | zero => rfl
  | succ k ih =>
    rw [Nat.repeat, Nat.add_comm k 1, Nat.shiftLeft_add, ih (m <<< 1)]
    simp [ExtendedMantissa.shiftRightOne, Nat.shiftLeft_eq]

theorem log2_shiftLeft {m : Nat} (hm : m ≠ 0) (k : Nat) : (m <<< k).log2 = m.log2 + k := by
  induction k with
  | zero => rfl
  | succ k ih =>
    have hk : m <<< k ≠ 0 := by
      rw [Nat.shiftLeft_eq]
      exact Nat.mul_ne_zero hm (Nat.ne_of_gt (Nat.two_pow_pos k))
    rw [Nat.shiftLeft_add, Nat.shiftLeft_eq _ 1, Nat.pow_one, Nat.mul_comm, Nat.log2_two_mul hk, ih, Nat.add_assoc]

/-- Rounding takes zeros from the end and nothing else. -/
theorem roundWithAccuracy_normal (s : Sign) {m : Nat} {e : Int} (h : Normal m e) (k : Nat) :
    roundWithAccuracy Format.binary64 s (m <<< k) (e - k) .exact = .finite s m e h.pos := by
  have hleast := h.least
  have hm : m ≠ 0 := Nat.ne_of_gt h.pos
  have hshift : ∀ j : Nat, shiftToTargetExponent Format.binary64 (m <<< j) (e - j) .exact = (⟨m, false, false⟩, e) := by
    intro j
    have htotal : totalExponent (m <<< j) (e - j) = e + 53 := by
      rw [totalExponent, log2_shiftLeft hm, h.mantissa]
      omega
    have htarget : Format.binary64.targetExponent (e + 53) = e := by
      change max (e + 53 - 53) (-1074) = e
      omega
    have hcount : (e - (e - (j : Int))).toNat = j := by omega
    simp only [shiftToTargetExponent, htotal, htarget, shiftToExponent, hcount, ExtendedMantissa.ofMantissaAndAccuracy]
    rw [shiftRight_shiftLeft, Int.sub_add_cancel]
  have hagain : shiftToTargetExponent Format.binary64 m e .exact = (⟨m, false, false⟩, e) := by simpa using hshift 0
  simp [roundWithAccuracy, hshift k, ExtendedMantissa.roundedMantissa, ExtendedMantissa.accuracy,
    Accuracy.roundToNearestEven, hagain, hm]

/-! Integers below `2 ^ 53`. -/

/-- With its leading bit moved to the front, a small number is normal. -/
theorem normal_shiftLeft {n : Nat} (hn : 0 < n) (hlt : n < 2 ^ 53) : Normal (n <<< (52 - n.log2)) (n.log2 - 52) := by
  have hlog : n.log2 < 53 := (Nat.log2_lt (Nat.ne_of_gt hn)).2 hlt
  refine ⟨?_, by omega, by omega⟩
  rw [log2_shiftLeft (Nat.ne_of_gt hn)]
  omega

/-- A small number is normalized without rounding. -/
theorem normalize_small {n : Nat} (hn : 0 < n) (hlt : n < 2 ^ 53) :
    normalize Format.binary64 n 0 .positive =
      .finite .positive (n <<< (52 - n.log2)) (n.log2 - 52) (normal_shiftLeft hn hlt).pos := by
  have hlog : n.log2 < 53 := (Nat.log2_lt (Nat.ne_of_gt hn)).2 hlt
  have hround := roundWithAccuracy_normal .positive (normal_shiftLeft hn hlt) 0
  have htarget : Format.binary64.targetExponent (totalExponent n 0) = n.log2 - 52 := by
    change max ((n.log2 : Int) + 1 + 0 - 53) (-1074) = _
    omega
  have hgt : compare (n : Int) 0 = .gt := by
    rw [Int.compare_eq_gt]
    omega
  have hcount : ((0 : Int) - (n.log2 - 52)).toNat = 52 - n.log2 := by omega
  have hexp : (0 : Int) - (52 - n.log2 : Nat) = n.log2 - 52 - (0 : Nat) := by omega
  unfold UnpackedFloat.normalize
  simp only [hgt]
  unfold UnpackedFloat.round
  simp only [Int.toNat_natCast, htarget, decreaseExponent, hcount, hexp]
  exact hround

theorem unpack_ofNat {n : Nat} (hn : 0 < n) (hlt : n < 2 ^ 53) :
    (Float.ofNat n).toModel.unpack =
      .finite .positive (n <<< (52 - n.log2)) (n.log2 - 52) (normal_shiftLeft hn hlt).pos := by
  have hnormal := normal_shiftLeft hn hlt
  have hword : n.toUInt64.toFloat.toModel.unpack =
      .finite .positive (n <<< (52 - n.log2)) (n.log2 - 52) hnormal.pos := by
    change (Float.Model.pack (normalize Format.binary64 n.toUInt64.toNat 0 .positive)).unpack = _
    have hsame : n.toUInt64.toNat = n := by
      rw [Nat.toUInt64_eq, UInt64.toNat_ofNat']
      omega
    rw [hsame, normalize_small hn hlt, unpack_pack_normal .positive hnormal]
  have hproduct : n <<< (52 - n.log2) * 1 <<< 52 = n <<< (52 - n.log2) <<< 52 := by
    rw [Nat.shiftLeft_eq 1, Nat.shiftLeft_eq _ 52, Nat.one_mul]
  have hround := roundWithAccuracy_normal .positive hnormal 52
  rw [ofNat_small hlt]
  change (Float.Model.pack (UnpackedFloat.mul Format.binary64 n.toUInt64.toFloat.toModel.unpack
    one.toModel.unpack)).unpack = _
  rw [hword, unpack_one]
  change (Float.Model.pack (roundWithAccuracy Format.binary64 .positive (n <<< (52 - n.log2) * 1 <<< 52)
    ((n.log2 - 52) + -52) .exact)).unpack = _
  rw [hproduct]
  exact (congrArg (fun u => (Float.Model.pack u).unpack) hround).trans (unpack_pack_normal .positive hnormal)

/-- The bits of a small integer hold all of it. -/
theorem unpack_ofInt {i : Int} (hi : i ≠ 0) (hlt : i.natAbs < 2 ^ 53) :
    (Float.ofInt i).toModel.unpack =
      .finite (if i < 0 then .negative else .positive) (i.natAbs <<< (52 - i.natAbs.log2)) (i.natAbs.log2 - 52)
        (normal_shiftLeft (Int.natAbs_pos.2 hi) hlt).pos := by
  cases i with
  | ofNat n => exact unpack_ofNat (Int.natAbs_pos.2 hi) hlt
  | negSucc n =>
    have hnormal := normal_shiftLeft n.succ_pos hlt
    change (Float.Model.pack (Float.ofNat (n + 1)).toModel.unpack.neg).unpack = _
    rw [unpack_ofNat n.succ_pos hlt, if_pos (Int.negSucc_lt_zero n)]
    exact unpack_pack_normal .negative hnormal

theorem ofInt_injective {i j : Int} (hi : i.natAbs < 2 ^ 53) (hj : j.natAbs < 2 ^ 53)
    (h : Float.ofInt i == Float.ofInt j) : i = j := by
  have hzero : (Float.ofInt 0).toModel.unpack = .zero .positive := rfl
  have hmagnitude : ∀ {m n : Nat}, m.log2 = n.log2 ∧ m <<< (52 - m.log2) = n <<< (52 - n.log2) → m = n := by
    rintro m n ⟨hlog, hshift⟩
    rw [hlog, Nat.shiftLeft_eq, Nat.shiftLeft_eq] at hshift
    exact Nat.eq_of_mul_eq_mul_right (Nat.two_pow_pos _) hshift
  change UnpackedFloat.beq _ _ = true at h
  by_cases hi0 : i = 0 <;> by_cases hj0 : j = 0
  · rw [hi0, hj0]
  · rw [hi0, hzero, unpack_ofInt hj0 hj] at h
    by_cases hneg : j < 0 <;> simp [UnpackedFloat.beq, UnpackedFloat.compare, hneg] at h
  · rw [hj0, hzero, unpack_ofInt hi0 hi] at h
    by_cases hneg : i < 0 <;> simp [UnpackedFloat.beq, UnpackedFloat.compare, hneg] at h
  · rw [unpack_ofInt hi0 hi, unpack_ofInt hj0 hj] at h
    by_cases hneg : i < 0 <;> by_cases hneg' : j < 0 <;>
      simp [UnpackedFloat.beq, UnpackedFloat.compare, hneg, hneg', Ordering.then_eq_eq] at h
    · have := hmagnitude h
      omega
    · have := hmagnitude h
      omega

end DynamicSql.Binary64
