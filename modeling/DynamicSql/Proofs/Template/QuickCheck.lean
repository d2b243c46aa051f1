import DynamicSql.Proofs.Template.OutOfRange

/-!
The quick check beside the scanner. Main statement: for all delimiters that are not empty, the quick check finds
an expression in just the texts in which the scan fails or has an expression among its tokens, and these are the
texts in which the scan comes to an opener that no backslash escapes.
-/
namespace DynamicSql.Token

variable {d : Delimiters} {u s t : Text} {tokens : List Token}

theorem exprs_eq_nil_iff : exprs tokens = [] ↔ ∀ t ∈ tokens, t = .escaped ∨ ∃ u, t = .text u := by
  rw [exprs, List.filterMap_eq_nil_iff]
  refine forall₂_congr fun t _ => ?_
  cases t <;> simp [expr?]

theorem exprs_ne_nil_iff : exprs tokens ≠ [] ↔ ∃ content offset, .expr content offset ∈ tokens := by
  simp only [Ne, exprs, List.filterMap_eq_nil_iff, not_forall]
  constructor
  · rintro ⟨t, ht, hexpr⟩
    cases t with
    | text | escaped => exact absurd rfl hexpr
    | expr content offset => exact ⟨content, offset, ht⟩
  · rintro ⟨content, offset, ht⟩
    exact ⟨_, ht, Option.some_ne_none _⟩

/-! The quick check by the openers that the scan comes to. -/

theorem reaches_of_hasExpressionsFrom (ho : d.opening ≠ [])
    (h : hasExpressionsFrom d.opening 0 (endsInEscape u) s = true) : ∃ r, Reaches d r u s := by
  induction u, s using scan_induction ho with
  | clear u s hclear =>
    rw [hasExpressionsFrom_end ho hclear] at h
    cases h
  | escaped u w r hclear hend ih =>
    rw [hasExpressionsFrom_found ho hclear, if_pos hend, ← endsInEscape_passed u w ho] at h
    obtain ⟨t, hreach⟩ := ih h
    exact ⟨t, .escaped hclear hend hreach⟩
  | opened u w r hclear hend => exact ⟨r, .here hclear hend⟩

/-- The check finds the opener that is reached. -/
theorem Reaches.hasExpressionsFrom (h : Reaches d t u s) (ho : d.opening ≠ []) :
    hasExpressionsFrom d.opening 0 (endsInEscape u) s = true := by
  -- The quick check ends at the first such opener; a scan that comes to a later one has been there.
  induction h with
  | here hclear hend => simp [hasExpressionsFrom_found ho hclear, hend]
  | @escaped u w t hclear hend _ ih =>
    rw [hasExpressionsFrom_found ho hclear, if_pos hend, ← endsInEscape_passed u w ho]
    exact ih
  | closed hclear hend => simp [hasExpressionsFrom_found ho hclear, hend]

/-- The check says yes when an opener is reached that is not escaped. -/
theorem hasExpressions_iff_reaches (ho : d.opening ≠ []) (s : Text) :
    hasExpressions d s = true ↔ ∃ r, Reaches d r [] s := by
  rw [hasExpressions, if_neg ho]
  constructor
  · intro h
    exact reaches_of_hasExpressionsFrom (u := []) ho h
  · rintro ⟨r, h⟩
    exact h.hasExpressionsFrom ho

/-! The scan where the quick check finds nothing. -/

/-- Where nothing is found the scan succeeds, as no content is read. -/
theorem exists_tokens_of_not_hasExpressionsFrom (ho : d.opening ≠ [])
    (h : hasExpressionsFrom d.opening 0 (endsInEscape u) s = false) (offset : Nat) :
    ∃ tokens, scanFrom d offset 0 (endsInEscape u) [] s = .ok tokens := by
  induction u, s using scan_induction ho generalizing offset with
  | clear u s hclear => exact ⟨_, scanFrom_end ho hclear offset _⟩
  | escaped u w r hclear hend ih =>
    rw [hasExpressionsFrom_found ho hclear, if_pos hend, ← endsInEscape_passed u w ho] at h
    obtain ⟨tokens, hscan⟩ := ih h (offset + Text.byteLength (w ++ d.opening))
    rw [endsInEscape_passed u w ho] at hscan
    rw [scanFrom_found_escaped ho hclear hend, hscan]
    exact ⟨_, rfl⟩
  | opened u w r hclear hend => simp [hasExpressionsFrom_found ho hclear, hend] at h

theorem hasExpressions_eq_false_iff (ho : d.opening ≠ []) (hc : d.closing ≠ []) (s : Text) :
    hasExpressions d s = false ↔ ∃ tokens, scan d s = .ok tokens ∧ exprs tokens = [] := by
  constructor
  · intro h
    have hfrom := h
    rw [hasExpressions, if_neg ho] at hfrom
    obtain ⟨tokens, hscan⟩ := exists_tokens_of_not_hasExpressionsFrom (u := []) ho hfrom 0
    have hok : scan d s = .ok tokens := scan_eq_ok_iff.mpr ⟨ho, hc, hscan⟩
    rw [hasExpressions_eq hok] at h
    exact ⟨tokens, hok, by simpa using h⟩
  · rintro ⟨tokens, hscan, hquiet⟩
    rw [hasExpressions_eq hscan, hquiet]
    rfl

/-- A scan that succeeds has stayed in range. -/
theorem inRange_of_scan (h : scan d s = .ok tokens) : ¬ OutOfRange (Cursor.scan d s) := by
  rw [Cursor.scan_eq, h]
  rintro ⟨start, stop, ⟨⟩⟩

/-- A scan that takes slices of the text only can fail in one way. -/
theorem ofText_eq_error (ho : d.opening ≠ []) (hc : d.closing ≠ []) (hs : ¬ OutOfRange (Cursor.scan d s)) {h : Halt}
    (hfail : ofText d s = .error h) : ∃ offset snippet, h = .fault (d.unterminated offset snippet) := by
  rw [ofText, Except.mapError_eq_error_iff] at hfail
  obtain ⟨e, hscan, rfl⟩ := hfail
  rcases scan_error ho hc hscan with ⟨offset, snippet, rfl⟩ | ⟨position, rfl⟩
  · exact ⟨offset, snippet, rfl⟩
  · rw [Cursor.scan_eq, hscan] at hs
    exact absurd ⟨_, _, rfl⟩ hs

/--
In a text of which the scan takes slices only, the quick check finds an expression just where the scan fails with a
fault of the syntax or has an expression among its tokens, and finds none just where all tokens are text and
escaped openers. The fault is that of an opener without a closer. What is found is an opener that the scan
comes to and that no backslash escapes.
-/
theorem quickCheck_agrees (ho : d.opening ≠ []) (hc : d.closing ≠ []) (hs : ¬ OutOfRange (Cursor.scan d s)) :
    (hasExpressions d s = true ↔ (∃ f, ofText d s = .error (.fault f) ∧ f.code = .templateSyntax) ∨
      ∃ tokens, ofText d s = .ok tokens ∧ ∃ content offset, .expr content offset ∈ tokens) ∧
    (hasExpressions d s = false ↔
      ∃ tokens, ofText d s = .ok tokens ∧ ∀ t ∈ tokens, t = .escaped ∨ ∃ u, t = .text u) ∧
    (∀ h, ofText d s = .error h → ∃ offset snippet, h = .fault (d.unterminated offset snippet)) ∧
    (hasExpressions d s = true ↔ ∃ r, Reaches d r [] s) := by
  have hquiet : hasExpressions d s = false ↔ ∃ tokens, ofText d s = .ok tokens ∧ exprs tokens = [] := by
    simp only [ofText_eq_ok_iff, hasExpressions_eq_false_iff ho hc]
  refine ⟨?_, ?_, fun h => ofText_eq_error ho hc hs, hasExpressions_iff_reaches ho s⟩
  · rw [← Bool.not_eq_false, hquiet]
    cases hscan : ofText d s with
    | error h =>
      obtain ⟨offset, snippet, rfl⟩ := ofText_eq_error ho hc hs hscan
      exact iff_of_true (by simp) (.inl ⟨_, rfl, rfl⟩)
    | ok tokens => simp [← exprs_ne_nil_iff]
  · simp only [hquiet, exprs_eq_nil_iff]

/-! Delimiters that end in a backslash: an opener escapes the one that is directly behind it. -/

def slashed : Delimiters := ⟨"$\\".toList, "\x7d\\".toList⟩

/-- Two openers, of which a backslash escapes the first and the first escapes the second. -/
def escapedTwice : Text := "\\$\\$\\a".toList

/-- A third opener behind them, with an escaped closer in its content. -/
def openedOnce : Text := escapedTwice ++ "$\\b\\\x7d\\c\x7d\\".toList

theorem slashed_agrees :
    (¬ OutOfRange (Cursor.scan slashed escapedTwice) ∧ hasExpressions slashed escapedTwice = false) ∧
      ¬ OutOfRange (Cursor.scan slashed openedOnce) ∧ hasExpressions slashed openedOnce = true ∧
        ∃ r, Reaches slashed r [] openedOnce := by
  have ho : slashed.opening ≠ [] := by decide
  have hc : slashed.closing ≠ [] := by decide
  have hquiet : scan slashed escapedTwice = .ok [.escaped, .escaped, .text "a".toList] := by decide
  have hfound : scan slashed openedOnce =
      .ok [.escaped, .escaped, .text "a".toList, .expr "b\x7d\\c".toList 6] := by decide
  obtain ⟨-, hnone, -⟩ := quickCheck_agrees ho hc (inRange_of_scan hquiet)
  obtain ⟨hsome, -, -, hreaches⟩ := quickCheck_agrees ho hc (inRange_of_scan hfound)
  have hquick := hsome.mpr (.inr ⟨_, ofText_eq_ok_iff.mpr hfound, "b\x7d\\c".toList, 6, by simp⟩)
  exact ⟨⟨inRange_of_scan hquiet, hnone.mpr ⟨_, ofText_eq_ok_iff.mpr hquiet, by simp⟩⟩, inRange_of_scan hfound,
    hquick, hreaches.mp hquick⟩

end DynamicSql.Token
