import DynamicSql.Json.Number
import DynamicSql.Json.Quoted
import DynamicSql.Proofs.Text

/-!
Texts and whole numbers of documents, read back from what is written. Main statements: the reader of quoted
texts ends at the closing quote with the text that was quoted, and the reader of numbers ends behind the digits
with the integer, as long as no further digit, point or exponent follows.
-/
namespace DynamicSql.Json

variable {c : Char} {s r rest : Text} {ps : List Piece} {n k : Nat}

/-! Quoted texts. -/

/-- Control characters without an escape of their own are written in hexadecimal. -/
def Spelled (c : Char) (p : Piece) : Prop := p = .char c ∨ p = .unit c.toNat ∧ c.toNat < 0x20

theorem hexDigit?_digitChar (h : n < 16) : hexDigit? (Nat.digitChar n) = some n := by
  have hall : ∀ n < 16, hexDigit? (Nat.digitChar n) = some n := by decide
  exact hall n h

/-- Any other character is a piece by itself. -/
theorem pieces?_plain (hq : c ≠ '\x22') (hb : c ≠ '\\') (hc : ¬ c.toNat < 0x20) (r : Text) :
    pieces? (c :: r) = (pieces? r).map fun (ps, rest) => (.char c :: ps, rest) := by
  rw [pieces?.eq_def]
  split
  · next heq => cases heq
  · next heq => exact absurd (List.cons.inj heq).1 hb
  · next heq => exact absurd (List.cons.inj heq).1 hb
  · next heq => exact absurd (List.cons.inj heq).1 hq
  · next heq =>
    obtain ⟨rfl, rfl⟩ := List.cons.inj heq
    rw [if_neg (not_or.mpr ⟨hc, hb⟩)]

/-- Each character is read as one piece. -/
theorem pieces?_escape (c : Char) : ∃ p, Spelled c p ∧
    ∀ r, pieces? (escape c ++ r) = (pieces? r).map fun (ps, rest) => (p :: ps, rest) := by
  unfold escape
  split
  case h_8 hquote hslash _ _ _ _ _ =>
    split
    · next hc =>
      refine ⟨.unit c.toNat, .inr ⟨rfl, hc⟩, fun r => ?_⟩
      have hhigh := hexDigit?_digitChar (show c.toNat / 16 < 16 by omega)
      have hlow := hexDigit?_digitChar (show c.toNat % 16 < 16 by omega)
      have hzero : hexDigit? '0' = some 0 := by decide
      have hsum : 0 * 4096 + 0 * 256 + c.toNat / 16 * 16 + c.toNat % 16 = c.toNat := by omega
      simp only [List.cons_append, List.nil_append, pieces?, hzero, hhigh, hlow, hsum]
    · next hc => exact ⟨.char c, .inl rfl, pieces?_plain hquote hslash hc⟩
  all_goals exact ⟨.char _, .inl rfl, fun r => rfl⟩

/-- A piece that spells a character is decoded to it. -/
theorem decode?_spelled {p : Piece} (h : Spelled c p) (ps : List Piece) :
    decode? (p :: ps) = (decode? ps).map (c :: ·) := by
  obtain rfl | ⟨rfl, hc⟩ := h
  · rw [decode?]
  · rw [decode?.eq_def]
    simp only [show c.toNat < 0xD800 by omega, true_or, if_true, Char.ofNat_toNat]

/-- The reader of quoted texts ends behind the closing quote, with pieces that are the text. -/
theorem pieces?_encode (s rest : Text) : ∃ ps, pieces? (encode s ++ '\x22' :: rest) = some (ps, rest) ∧
    decode? ps = some s := by
  induction s with
  | nil => exact ⟨[], rfl, rfl⟩
  | cons c s ih =>
    obtain ⟨ps, hread, hdecode⟩ := ih
    obtain ⟨p, hp, hpiece⟩ := pieces?_escape c
    refine ⟨p :: ps, ?_, ?_⟩
    · rw [encode, List.append_assoc, hpiece, hread]
      rfl
    · rw [decode?_spelled hp, hdecode]
      rfl

/-! Whole numbers. -/

def EndsNumber (rest : Text) : Prop := ∀ c ∈ rest.head?, c.isDigit = false ∧ c ≠ '.' ∧ c ≠ 'e' ∧ c ≠ 'E'

theorem isDigit_ofNat : ∀ c ∈ Text.ofNat n, c.isDigit = true :=
  fun _ hc => Nat.isDigit_of_mem_toDigits (by decide) (by decide) hc

/-- No number but zero begins with a zero. -/
theorem head?_ofNat (h : (Text.ofNat n).head? = some '0') : n = 0 := by
  induction n using Nat.strongRecOn with
  | _ n ih =>
    rw [Text.ofNat, Nat.toDigits_eq_if (by decide)] at h
    split at h
    · next hn =>
      have hall : ∀ n < 10, [Nat.digitChar n].head? = some '0' → n = 0 := by decide
      exact hall n hn h
    · next hn =>
      rw [List.head?_append_of_ne_nil _ Nat.toDigits_ne_nil] at h
      have := ih (n / 10) (by omega) h
      omega

theorem le_ofDigitChars (w : Text) (n : Nat) : n ≤ Nat.ofDigitChars 10 w n := by
  induction w generalizing n with
  | nil => exact Nat.le_refl n
  | cons c w ih =>
    rw [Nat.ofDigitChars_cons]
    have := ih (10 * n + (c.toNat - '0'.toNat))
    omega

/-- Digits of a number that fits a word are all taken. -/
theorem gather_eq (w : Text) (h : Nat.ofDigitChars 10 w n < Integer.bound64) :
    Numeral.gather n k w = (Nat.ofDigitChars 10 w n, k + w.length, 0) := by
  induction w generalizing n k with
  | nil => rfl
  | cons c w ih =>
    rw [Nat.ofDigitChars_cons] at h
    have hnext : n * 10 + (c.toNat - '0'.toNat) < Integer.bound64 := by
      have := le_ofDigitChars w (10 * n + (c.toNat - '0'.toNat))
      omega
    rw [Numeral.gather]
    simp only [hnext, if_true]
    rw [Nat.mul_comm, ih h, Nat.ofDigitChars_cons, List.length_cons]
    simp only [Prod.mk.injEq, true_and, and_true]
    omega

/-- A numeral of digits alone ends where the number does; a sign may come before it. -/
theorem read?_digits {w : Text} (hw : ∀ c ∈ w, c.isDigit = true) (hne : w ≠ [])
    (hzero : w.head? = some '0' → w.length = 1) (hr : EndsNumber rest) :
    Numeral.read? (w ++ rest) = some (⟨false, w, [], none⟩, rest) ∧
      Numeral.read? ('-' :: (w ++ rest)) = some (⟨true, w, [], none⟩, rest) := by
  have hstop : ∀ c ∈ rest.head?, c.isDigit = false := fun c hc => (hr c hc).1
  have htake := Text.takeWhile_append_eq hw hstop
  have hdrop := Text.dropWhile_append_eq hw hstop
  have hwhole : ¬ (w = [] ∨ w.head? = some '0' ∧ w.length ≠ 1) := by
    rintro (h | ⟨h, hl⟩)
    · exact hne h
    · exact hl (hzero h)
  have hsign : ∀ r, w ++ rest ≠ '-' :: r := by
    obtain ⟨c, v, rfl⟩ := List.exists_cons_of_ne_nil hne
    intro r heq
    have hc := hw c List.mem_cons_self
    rw [(List.cons.inj heq).1] at hc
    exact absurd hc (by decide)
  rw [Numeral.read?, Numeral.read?]
  · simp only [htake, hdrop, hwhole, if_false]
    cases rest with
    | nil => exact ⟨rfl, rfl⟩
    | cons c r =>
      obtain ⟨-, hpoint, he, hE⟩ := hr c rfl
      simp [hpoint, he, hE]
  · exact hsign

def numeral (i : Int) : Numeral := ⟨decide (i < 0), Text.ofNat i.natAbs, [], none⟩

/-- An integer is read back from its digits, as long as no more of a number follows. -/
theorem read?_ofInt (i : Int) (hr : EndsNumber rest) :
    Numeral.read? (Text.ofInt i ++ rest) = some (numeral i, rest) := by
  have hlength : ∀ n, (Text.ofNat n).head? = some '0' → (Text.ofNat n).length = 1 := by
    intro n h
    rw [head?_ofNat h]
    rfl
  have hdigits := fun n => read?_digits (isDigit_ofNat (n := n)) Nat.toDigits_ne_nil (hlength n) hr
  cases i with
  | ofNat n =>
    have hsign : ¬ (n : Int) < 0 := by omega
    simpa [Text.ofInt, numeral, hsign] using (hdigits n).1
  | negSucc n => simpa [Text.ofInt, numeral] using (hdigits (n + 1)).2

/-- Every integer that fits a word, with a sign or without, is exact. -/
theorem value?_numeral {i : Int} (hlow : Integer.least ≤ i) (hhigh : i < Integer.bound64) :
    (numeral i).value? = some (.integer i) := by
  have hof : Nat.ofDigitChars 10 (Text.ofNat i.natAbs) 0 = i.natAbs :=
    Nat.ofDigitChars_toDigits (by decide) (by decide)
  have hbound : i.natAbs < Integer.bound64 := by
    simp only [Integer.least, Integer.bound64] at hlow hhigh ⊢
    omega
  have hgather := gather_eq (k := 0) (Text.ofNat i.natAbs) (hof.symm ▸ hbound)
  rw [hof] at hgather
  rw [Numeral.value?]
  simp only [numeral, hgather, true_and, if_true]
  by_cases hi : i < 0
  · have habs : -(i.natAbs : Int) = i := by omega
    have hrange : ¬ (i = 0 ∨ i < Integer.least) := by omega
    simp only [hi, decide_true, if_true, habs, hrange, and_false, if_false]
  · have habs : (i.natAbs : Int) = i := by omega
    simp [hi, habs]

end DynamicSql.Json
