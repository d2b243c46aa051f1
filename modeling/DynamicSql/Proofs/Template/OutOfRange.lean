import DynamicSql.Proofs.Template.Cursors
import DynamicSql.Proofs.Template.Overlaps

/-!
The slices that the cursors take. Main statement: the cursors end as the characters do. For the delimiters of a
valid configuration the quick check takes slices of the text only, and so does a scan, which then gives tokens or a
fault of the syntax, but for texts in which a closer that ends in a backslash directly follows an escaped one: there
the range ends before it starts, and the scan panics. Such texts there are for all closers that end in a backslash,
unless they are backslashes only.
-/
namespace DynamicSql.Cursor

open Token (escape endsInEscape endsInEscape_append endsInEscape_passed Clear Content flush Overlaps OutOfRange
  outOfRange_scan_iff)

variable {d : Delimiters} {s t u v w r kept : Text} {start : Nat} {tokens : List Token}

/-- What the cursors make of a content, by what the characters make of it. -/
def Reads (s t kept r : Text) (start : Nat) (x : Except ScanError (Text × Nat)) : Content → Prop
  | .closed content n => x = .ok (kept ++ content, s.byteLength - Text.byteLength (r.drop n))
  | .unclosed => x = .error (.unterminated start (t.take Token.snippetLength))
  | .overlapping n => x = .error (.range (s.byteLength - Text.byteLength (r.drop n))
      (s.byteLength - Text.byteLength (r.drop n) - 1))

/-- What was passed before a content is kept before it. -/
theorem Reads.cons {u' r' : Text} {passed : Nat} {x : Except ScanError (Text × Nat)} {found : Content}
    (h : Reads s t kept r start x found) (hkept : kept = u' ++ u) (hdrop : ∀ n, r'.drop (passed + n) = r.drop n) :
    Reads s t u' r' start x (found.cons u passed) := by
  subst hkept
  cases found with
  | unclosed => exact h
  | overlapping n => simpa only [Content.cons, Reads, hdrop] using h
  | closed content n => simpa only [Content.cons, Reads, hdrop, List.append_assoc] using h

/--
A closer behind `u ++ w` is not escaped: no backslash is last in `w`, and where `w` is empty and `u` is looked back
at, the closer would overlap the one that `u` ends in.
-/
theorem not_escaped_closer {low : Nat} (hend : endsInEscape w = false)
    (hbehind : low < u.byteLength → endsInEscape u = endsInEscape d.closing ∧
      ¬ (endsInEscape d.closing = true ∧ d.closing <+: w ++ (d.closing ++ r))) :
    (decide (low < Text.byteLength (u ++ w)) && endsInEscape (u ++ w)) = false := by
  by_cases hw : w = []
  · subst hw
    rw [List.append_nil, Bool.and_eq_false_imp, decide_eq_true_eq]
    intro hlt
    obtain ⟨hescape, hover⟩ := hbehind hlt
    rw [hescape, ← Bool.not_eq_true]
    exact fun hescape => hover ⟨hescape, List.prefix_append _ _⟩
  · rw [endsInEscape_append u hw, hend, Bool.and_false]

/--
From any cursor behind the opener the loop reads the content. Farther on the cursor stands behind an escaped closer,
and the rest does not overlap it.
-/
theorem readFrom_reads (hc : d.closing ≠ []) (hs : s = u ++ r) (ht : s = v ++ t)
    (hlow : v.byteLength + d.opening.byteLength ≤ u.byteLength)
    (hbehind : v.byteLength + d.opening.byteLength < u.byteLength →
      endsInEscape u = endsInEscape d.closing ∧ ¬ (endsInEscape d.closing = true ∧ d.closing <+: r)) :
    Reads s t kept r v.byteLength (readFrom d hc s v.byteLength ⟨u.byteLength, kept⟩)
      (Token.content d.closing 0 r) := by
  -- Behind the first turn the byte before the cursor is the last one of an escaped closer.
  induction r using Token.first_induction d.closing generalizing u kept with
  | clear r hclear =>
    rw [Token.content_unclosed hc hclear]
    exact loop_error (contentTurn_unclosed hc hs ht hclear)
  | escaped w r hclear ih =>
    rw [Token.content_escaped hclear, readFrom, loop_again (contentTurn_escaped hs hclear hlow), ← readFrom]
    have hpassed : u ++ (w ++ escape :: d.closing) = u ++ ((w ++ [escape]) ++ d.closing) := by simp
    have hs' : s = (u ++ (w ++ escape :: d.closing)) ++ r := by simp [hs]
    have hend : endsInEscape (u ++ (w ++ escape :: d.closing)) = endsInEscape d.closing := by
      rw [hpassed, endsInEscape_passed u _ hc]
    have hlow' : v.byteLength + d.opening.byteLength < Text.byteLength (u ++ (w ++ escape :: d.closing)) := by
      have hpos := Text.byteLength_pos hc
      simp only [Text.byteLength_append, Text.byteLength_cons]
      omega
    have hdrop : ∀ n, (w ++ escape :: (d.closing ++ r)).drop (w.length + (d.closing.length + 1) + n) =
        r.drop n := by
      intro n
      have hsplit : w ++ escape :: (d.closing ++ r) = (w ++ escape :: d.closing) ++ r := by simp
      have hlength : w.length + (d.closing.length + 1) = (w ++ escape :: d.closing).length := by simp
      rw [hsplit, hlength, List.drop_length_add_append]
    split
    · next hover =>
      obtain ⟨hescape, r, rfl⟩ := hover
      have hposition : s.byteLength - Text.byteLength ((w ++ escape :: (d.closing ++ (d.closing ++ r))).drop
          (w.length + (d.closing.length + 1))) = Text.byteLength (u ++ (w ++ escape :: d.closing)) := by
        have hbehind := hdrop 0
        rw [Nat.add_zero, List.drop_zero] at hbehind
        rw [hbehind, hs', Text.byteLength_append, Nat.add_sub_cancel]
      rw [Reads, hposition]
      exact loop_error (contentTurn_backwards hs' (by simp) (hend.trans hescape) hlow')
    · next hover =>
      exact (@ih _ (kept ++ w ++ d.closing) hs' hlow'.le fun _ => ⟨hend, hover⟩).cons
        (List.append_assoc _ _ _) hdrop
  | first w r hclear hend =>
    have hafter : s.byteLength - Text.byteLength ((w ++ (d.closing ++ r)).drop (w.length + d.closing.length)) =
        Text.byteLength (u ++ (w ++ d.closing)) := by
      rw [← List.append_assoc, ← List.length_append, List.drop_left, hs]
      simp only [Text.byteLength_append]
      omega
    rw [Token.content_closed hc hclear hend, Reads, hafter]
    exact loop_result (contentTurn_closed hs hclear (not_escaped_closer hend hbehind))

/-- Behind an opener the cursors read what the characters say. -/
theorem readContent_reads (hc : d.closing ≠ []) (hs : s = v ++ (d.opening ++ r)) :
    Reads s (d.opening ++ r) [] r v.byteLength (readContent d hc s v.byteLength) (Token.content d.closing 0 r) := by
  have hs' : s = (v ++ d.opening) ++ r := by rw [hs, List.append_assoc]
  have hlow : v.byteLength + d.opening.byteLength = Text.byteLength (v ++ d.opening) :=
    (Text.byteLength_append v d.opening).symm
  rw [readContent, hlow]
  exact readFrom_reads hc hs' hs hlow.le (fun hlt => absurd hlt (by omega))

/-- Behind a text that both have passed, the cursors end as the characters do. -/
theorem scanFrom_eq (ho : d.opening ≠ []) (hc : d.closing ≠ []) (hs : s = u ++ r) (tokens : List Token) :
    scanFrom d ho hc s ⟨u.byteLength, u.byteLength, tokens⟩ =
      (Token.scanFrom d u.byteLength 0 (endsInEscape u) [] r).map (tokens ++ ·) := by
  -- Both begin a turn behind the text `u`: its last character is the byte that the cursors look back at.
  induction u, r using Token.scan_induction ho generalizing tokens with
  | clear u r hclear =>
    rw [Token.scanFrom_end ho hclear, scanFrom, loop_result (scanTurn_end ho hc hs hclear tokens)]
    rfl
  | escaped u w r hclear hend ih =>
    have hs' : s = (u ++ (w ++ d.opening)) ++ r := by simp [hs]
    have hnext := ih hs' (tokens ++ flush w.dropLast.reverse [] ++ [.escaped])
    rw [endsInEscape_passed u w ho, Text.byteLength_append] at hnext
    rw [scanFrom, loop_again (scanTurn_escaped hc hs hclear hend tokens), ← scanFrom,
      Token.scanFrom_found_escaped ho hclear hend, Except.map_map, Text.byteLength_append]
    simpa [flush_append _ (.escaped :: _)] using hnext
  | opened u w r hclear hend ih =>
    have hturn := scanTurn_opening hc hs hclear hend tokens
    have hread := readContent_reads (r := r) hc (show s = (u ++ w) ++ (d.opening ++ r) by simp [hs])
    have hafter : ∀ n, s.byteLength - Text.byteLength (r.drop n) =
        Text.byteLength (u ++ (w ++ (d.opening ++ r.take n))) := by
      intro n
      have hs' : s = (u ++ (w ++ (d.opening ++ r.take n))) ++ r.drop n := by simp [hs]
      rw [hs', Text.byteLength_append, Nat.add_sub_cancel]
    rw [Token.scanFrom_found_opening ho hclear hend, ← Text.byteLength_append]
    cases hcontent : Token.content d.closing 0 r with
    | unclosed =>
      rw [hcontent, Reads] at hread
      rw [hread] at hturn
      rw [scanFrom, loop_error hturn]
      rfl
    | overlapping n =>
      rw [hcontent, Reads, hafter] at hread
      rw [hread] at hturn
      rw [scanFrom, loop_error hturn]
      simp only [Except.map, Text.byteLength_append]
    | closed content n =>
      have hs' : s = (u ++ (w ++ (d.opening ++ r.take n))) ++ r.drop n := by simp [hs]
      rw [hcontent, Reads, hafter] at hread
      rw [hread] at hturn
      have hnext := ih content n hcontent hs'
        (tokens ++ flush w.reverse [] ++ [.expr content (Text.byteLength (u ++ w))])
      rw [Token.endsInEscape_content hc hcontent u w d.opening, Text.byteLength_append u] at hnext
      rw [scanFrom, loop_again hturn, ← scanFrom, Except.map_map]
      simpa [flush_append _ (.expr _ _ :: _)] using hnext

/-- Byte ranges or characters, the tokens are the same, and so is what goes wrong. -/
theorem scan_eq (d : Delimiters) (s : Text) : scan d s = Token.scan d s := by
  by_cases h : d.opening ≠ [] ∧ d.closing ≠ []
  · have hfrom := scanFrom_eq (u := []) h.1 h.2 (List.nil_append s).symm []
    have hid : ∀ found : Except ScanError (List Token), found.map ([] ++ ·) = found := by
      intro found
      cases found <;> rfl
    rw [hid] at hfrom
    rw [scan, dif_pos h, Token.scan, if_neg (by simpa [not_or] using h)]
    exact hfrom
  · rw [scan, dif_neg h, Token.scan, if_pos (by simpa [or_iff_not_imp_left] using h)]

theorem quickFrom_eq (ho : d.opening ≠ []) (hs : s = u ++ r) : quickFrom d ho s u.byteLength =
    .ok (Token.hasExpressionsFrom d.opening 0 (endsInEscape u) r) := by
  induction u, r using Token.scan_induction ho with
  | clear u r hclear =>
    rw [quickFrom, loop_result (quickTurn_end ho hs hclear), Token.hasExpressionsFrom_end ho hclear]
  | escaped u w r hclear hend ih =>
    have hturn := quickTurn_opening hs hclear
    rw [if_pos hend] at hturn
    rw [Token.hasExpressionsFrom_found ho hclear, if_pos hend, ← endsInEscape_passed u w ho, quickFrom,
      loop_again hturn]
    exact ih (by simp [hs])
  | opened u w r hclear hend =>
    have hturn := quickTurn_opening hs hclear
    rw [hend] at hturn
    rw [Token.hasExpressionsFrom_found ho hclear, hend, quickFrom, loop_result hturn]
    rfl

/-- The check answers alike, and never fails. -/
theorem hasExpressions_eq (d : Delimiters) (s : Text) : hasExpressions d s = .ok (Token.hasExpressions d s) := by
  by_cases ho : d.opening = []
  · rw [hasExpressions, dif_neg (by simpa using ho), Token.hasExpressions, if_pos ho]
  · rw [hasExpressions, dif_pos ho, Token.hasExpressions, if_neg ho]
    exact quickFrom_eq ho (List.nil_append s).symm

/--
The quick check never asks for a range that is no slice. A scan does exactly where, behind an opener that it
comes to, closers overlap that end in a backslash: the range then ends a byte before it starts, and the scan panics.
Anywhere else it gives the tokens of the text or a fault of its syntax. Texts on which it does there are for every
closer that ends in a backslash and has another character in it, and for no other closer.
-/
theorem scan_ranges {c : Config} (hv : c.validate = .ok ()) (hd : d ∈ [c.inlined, c.placeholder]) :
    (∀ s, hasExpressions d s = .ok (Token.hasExpressions d s)) ∧
      (∀ s, scan d s = Token.scan d s) ∧
      (∀ s, OutOfRange (scan d s) ↔
        endsInEscape d.closing = true ∧ ∃ r, Token.Reaches d r [] s ∧ Overlaps d.closing r) ∧
      (∀ s start stop, scan d s = .error (.range start stop) → start = stop + 1) ∧
      (∀ s, OutOfRange (scan d s) ↔ Token.ofText d s = .error .panic) ∧
      (∀ s, ¬ OutOfRange (scan d s) →
        (∃ tokens, scan d s = .ok tokens ∧ Token.ofText d s = .ok tokens) ∨
          ∃ e f, scan d s = .error e ∧ Token.ofText d s = .error (.fault f) ∧ f.code = .templateSyntax) ∧
      ((∃ s, OutOfRange (scan d s)) ↔ endsInEscape d.closing = true ∧ ∃ x ∈ d.closing, x ≠ escape) := by
  have hne := Config.delimiters_ne_nil hv
  simp only [Config.delimiterTexts, List.forall_mem_cons] at hne
  obtain ⟨hpo, hpc, hio, hic, -⟩ := hne
  obtain ⟨ho, hc⟩ : d.opening ≠ [] ∧ d.closing ≠ [] := by
    rcases List.mem_pair.mp hd with rfl | rfl
    · exact ⟨hio, hic⟩
    · exact ⟨hpo, hpc⟩
  simp only [scan_eq]
  refine ⟨hasExpressions_eq d, fun _ => trivial, outOfRange_scan_iff ho hc, fun s start stop h => ?_,
    fun s => Token.ofText_eq_panic_iff.symm, fun s hs => ?_, ?_⟩
  · rcases Token.scan_error ho hc h with ⟨opener, snippet, ⟨⟩⟩ | ⟨position, ⟨⟩⟩
    rfl
  · cases hscan : Token.scan d s with
    | ok tokens => exact .inl ⟨tokens, rfl, Token.ofText_eq_ok_iff.mpr hscan⟩
    | error e =>
      rcases Token.scan_error ho hc hscan with ⟨opener, snippet, rfl⟩ | ⟨position, rfl⟩
      · exact .inr ⟨_, d.unterminated opener snippet, rfl, by rw [Token.ofText, hscan]; rfl, rfl⟩
      · exact absurd ⟨_, _, hscan⟩ hs
  · simp only [outOfRange_scan_iff ho hc]
    constructor
    · rintro ⟨s, hescape, r, -, hover⟩
      exact ⟨hescape, hover.exists_char⟩
    · rintro ⟨hescape, hchar⟩
      exact ⟨_, hescape, _, .here (u := []) (Token.clear_nil d.opening _) rfl, Token.overlaps_of_char hchar⟩

/-! A closer that ends in a backslash. -/

def braced : Config := Config.default.withInlined ⟨"$\x7b".toList, "\x7d\\".toList⟩

theorem braced_ranges : ∃ s, OutOfRange (scan braced.inlined s) :=
  (scan_ranges (c := braced) rfl List.mem_cons_self).2.2.2.2.2.2.mpr ⟨rfl, '\x7d', by decide, by decide⟩

/-- The second closer is behind the backslash that ends the first. -/
theorem braced_outOfRange : braced.validate = .ok () ∧
    OutOfRange (scan braced.inlined "$\x7ba\\\x7d\\\x7d\\".toList) ∧
    Token.ofText braced.inlined "$\x7ba\\\x7d\\\x7d\\".toList = .error .panic := by
  have hscan : Token.scan braced.inlined "$\x7ba\\\x7d\\\x7d\\".toList = .error (.range 6 5) := by decide
  refine ⟨rfl, ?_, by rw [Token.ofText, hscan]; rfl⟩
  rw [scan_eq, hscan]
  exact ⟨6, 5, rfl⟩

end DynamicSql.Cursor
