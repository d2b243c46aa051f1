import DynamicSql.Proofs.Template.ByteRanges

/-!
Closers that overlap: one that ends in a backslash, directly in front of another. Main statement: a scan asks for
bytes that are no slice of the text exactly where there are such closers, the first of them escaped, behind an
opener that it comes to.
-/
namespace DynamicSql.Token

variable {d : Delimiters} {closing content u w r s t : Text} {n offset : Nat} {tokens : List Token}

/-- In the content that the text begins with, an escaped closer is directly in front of another closer. -/
inductive Overlaps (closing : Text) : Text → Prop where
  | here {w r : Text} : Clear closing (w ++ [escape]) (closing ++ (closing ++ r)) →
      Overlaps closing (w ++ escape :: (closing ++ (closing ++ r)))
  | later {w r : Text} : Clear closing (w ++ [escape]) (closing ++ r) → Overlaps closing r →
      Overlaps closing (w ++ escape :: (closing ++ r))

theorem Content.cons_eq_overlapping {kept : Text} {passed : Nat} {found : Content} :
    found.cons kept passed = .overlapping n ↔ ∃ n', found = .overlapping n' ∧ n = passed + n' := by
  cases found <;> simp [Content.cons, eq_comm]

/-- Reading a content comes to closers that overlap where there are some and they end in a backslash. -/
theorem content_overlapping_iff (hc : closing ≠ []) :
    (∃ n, Token.content closing 0 s = .overlapping n) ↔ endsInEscape closing = true ∧ Overlaps closing s := by
  constructor
  · rintro ⟨n, h⟩
    induction s using first_induction closing generalizing n with
    | clear s hclear =>
      rw [content_unclosed hc hclear] at h
      cases h
    | escaped w r hclear ih =>
      rw [content_escaped hclear] at h
      split at h
      · next hover =>
        obtain ⟨hescape, r, rfl⟩ := hover
        exact ⟨hescape, .here hclear⟩
      · obtain ⟨n', hread, -⟩ := Content.cons_eq_overlapping.mp h
        obtain ⟨hescape, hover⟩ := ih n' hread
        exact ⟨hescape, .later hclear hover⟩
    | first w r hclear hend =>
      rw [content_closed hc hclear hend] at h
      cases h
  · rintro ⟨hescape, hover⟩
    induction hover with
    | here hclear =>
      rw [content_escaped hclear, if_pos ⟨hescape, List.prefix_append _ _⟩]
      exact ⟨_, rfl⟩
    | later hclear _ ih =>
      obtain ⟨n, hread⟩ := ih
      rw [content_escaped hclear, hread]
      split <;> exact ⟨_, rfl⟩

/-- A text begins with itself behind a character only where it is nothing but that character. -/
theorem prefix_cons_append_iff {x : Char} : w <+: x :: (w ++ t) ↔ ∀ y ∈ w, y = x := by
  induction w with
  | nil => simp
  | cons a w ih =>
    rw [List.cons_prefix_cons, List.forall_mem_cons]
    refine and_congr_right fun ha => ?_
    rw [ha, List.cons_append, ih]

/-- A closer that overlaps itself so is not made of backslashes alone. -/
theorem Overlaps.exists_char (h : Overlaps closing s) : ∃ x ∈ closing, x ≠ escape := by
  have hother : ∀ {w t : Text}, Clear closing (w ++ [escape]) (closing ++ t) → ∃ x ∈ closing, x ≠ escape := by
    intro w t hclear
    have hnot := mt prefix_cons_append_iff.mpr (clear_concat.mp hclear).2
    push Not at hnot
    exact hnot
  cases h with
  | here hclear => exact hother hclear
  | later hclear _ => exact hother hclear

/-- The shortest content in which closers overlap. -/
theorem overlaps_of_char (h : ∃ x ∈ closing, x ≠ escape) : Overlaps closing (escape :: (closing ++ closing)) := by
  obtain ⟨x, hx, hne⟩ := h
  have hclear : Clear closing ([] ++ [escape]) (closing ++ (closing ++ [])) :=
    clear_concat.mpr ⟨clear_nil _ _, fun hp => hne (prefix_cons_append_iff.mp hp x hx)⟩
  have hover := Overlaps.here hclear
  rwa [List.append_nil] at hover

/-- What is read of a content ends in its closer. -/
theorem exists_of_content (hc : closing ≠ []) (h : Token.content closing 0 s = .closed content n) :
    ∃ raw rest, s = raw ++ (closing ++ rest) ∧ n = raw.length + closing.length := by
  induction s using first_induction closing generalizing content n with
  | clear s hclear =>
    rw [content_unclosed hc hclear] at h
    cases h
  | escaped w r hclear ih =>
    rw [content_escaped hclear] at h
    split at h
    · cases h
    · obtain ⟨content', n', hread, rfl, rfl⟩ := Content.cons_eq_closed.mp h
      obtain ⟨raw, rest, rfl, rfl⟩ := ih hread
      refine ⟨w ++ escape :: (closing ++ raw), rest, by simp, ?_⟩
      simp only [List.length_append, List.length_cons]
      omega
  | first w r hclear hend =>
    rw [content_closed hc hclear hend, Content.closed.injEq] at h
    exact ⟨w, r, rfl, h.2.symm⟩

/-- Behind a closed content the escape flag is that of the closer. -/
theorem endsInEscape_content (hc : closing ≠ []) (h : Token.content closing 0 s = .closed content n)
    (u w opening : Text) : endsInEscape (u ++ (w ++ (opening ++ s.take n))) = endsInEscape closing := by
  obtain ⟨raw, rest, rfl, rfl⟩ := exists_of_content hc h
  have hsplit : u ++ (w ++ (opening ++ (raw ++ closing))) = (u ++ (w ++ (opening ++ raw))) ++ closing := by simp
  rw [← List.append_assoc raw, ← List.length_append, List.take_left, hsplit, endsInEscape_append _ hc]

/-! The scan behind a text that it has passed, by the first opener it finds. -/

/--
Induction along a scan: behind the text `u` no opener is left, or the first one is escaped, or it is not and what
is left behind its content, where that is closed, is scanned next.
-/
theorem scan_induction {motive : Text → Text → Prop} (ho : d.opening ≠ [])
    (clear : ∀ u s, Clear d.opening s [] → motive u s)
    (escaped : ∀ u w r, Clear d.opening w (d.opening ++ r) → endsInEscape (u ++ w) = true →
      motive (u ++ (w ++ d.opening)) r → motive u (w ++ (d.opening ++ r)))
    (opened : ∀ u w r, Clear d.opening w (d.opening ++ r) → endsInEscape (u ++ w) = false →
      (∀ content n, Token.content d.closing 0 r = .closed content n →
        motive (u ++ (w ++ (d.opening ++ r.take n))) (r.drop n)) → motive u (w ++ (d.opening ++ r)))
    (u s : Text) : motive u s := by
  -- Contents and openers are passed over as a whole, so the induction is on what is left of the text.
  induction hn : s.length using Nat.strongRecOn generalizing u s with
  | _ n ih =>
    subst hn
    have hpos : 0 < d.opening.length := List.length_pos_iff.mpr ho
    rcases clear_or_first d.opening s with hclear | ⟨w, r, rfl, hclear⟩
    · exact clear u s hclear
    simp only [List.length_append] at ih
    cases hend : endsInEscape (u ++ w) with
    | true => exact escaped u w r hclear hend (ih r.length (by omega) _ r rfl)
    | false =>
      refine opened u w r hclear hend fun content n _ => ih (r.drop n).length ?_ _ _ rfl
      rw [List.length_drop]
      omega

theorem scanFrom_end (ho : d.opening ≠ []) (hclear : Clear d.opening r []) (offset : Nat) (afterEscape : Bool) :
    scanFrom d offset 0 afterEscape [] r = .ok (flush r.reverse []) := by
  have hend : ¬ (endsInEscape r = true ∧ d.opening <+: []) := fun hp => ho (List.prefix_nil.mp hp.2)
  have hscan := scanFrom_clear hclear hend offset afterEscape []
  rwa [List.append_nil, List.append_nil, scanFrom] at hscan

theorem scanFrom_found_escaped (ho : d.opening ≠ []) (hclear : Clear d.opening w (d.opening ++ r))
    (hend : endsInEscape (u ++ w) = true) (offset : Nat) :
    scanFrom d offset 0 (endsInEscape u) [] (w ++ (d.opening ++ r)) =
      (scanFrom d (offset + Text.byteLength (w ++ d.opening)) 0 (endsInEscape d.opening) [] r).map
        fun tokens => flush w.dropLast.reverse (.escaped :: tokens) := by
  by_cases hw : w = []
  · subst hw
    rw [List.append_nil] at hend
    rw [List.nil_append, hend, scanFrom_again ho]
    rfl
  · rw [endsInEscape_append u hw] at hend
    obtain ⟨v, rfl⟩ := endsInEscape_iff.mp hend
    have hsplit : (v ++ [escape]) ++ (d.opening ++ r) = v ++ escape :: (d.opening ++ r) := by simp
    rw [hsplit, scanFrom_escaped hclear, List.dropLast_concat, List.append_assoc, List.singleton_append,
      List.append_nil]

/-- At the first opener that is not escaped, the content is read and the scan goes on behind it. -/
theorem scanFrom_found_opening (ho : d.opening ≠ []) (hclear : Clear d.opening w (d.opening ++ r))
    (hend : endsInEscape (u ++ w) = false) (offset : Nat) :
    scanFrom d offset 0 (endsInEscape u) [] (w ++ (d.opening ++ r)) =
      match Token.content d.closing 0 r with
      | .closed content n =>
        (scanFrom d (offset + Text.byteLength (w ++ (d.opening ++ r.take n))) 0 (endsInEscape d.closing) []
          (r.drop n)).map fun tokens => flush w.reverse (.expr content (offset + Text.byteLength w) :: tokens)
      | .unclosed => .error (.unterminated (offset + Text.byteLength w) ((d.opening ++ r).take snippetLength))
      | .overlapping n =>
        .error (.range (offset + Text.byteLength (w ++ (d.opening ++ r.take n)))
          (offset + Text.byteLength (w ++ (d.opening ++ r.take n)) - 1)) := by
  have hfresh : (endsInEscape u && w.isEmpty) = false := by
    cases w with
    | nil =>
      rw [List.append_nil] at hend
      rw [hend, Bool.false_and]
    | cons c w => exact Bool.and_false _
  have hlast : endsInEscape w = false := by
    by_cases hw : w = []
    · subst hw
      rfl
    · rwa [endsInEscape_append u hw] at hend
  rw [scanFrom_clear hclear (by simp [hlast]), hfresh, scanFrom_content ho (by simp), List.append_nil]
  cases Token.content d.closing 0 r <;> simp only [Text.byteLength_append, Nat.add_assoc]

/-! The quick check, likewise. -/

theorem hasExpressionsFrom_drop (opening : Text) (k : Nat) (afterEscape : Bool) (s : Text) :
    hasExpressionsFrom opening k afterEscape s = hasExpressionsFrom opening 0 afterEscape (s.drop k) := by
  induction s generalizing k with
  | nil => cases k <;> rfl
  | cons c s ih =>
    cases k with
    | zero => rfl
    | succ k => exact ih k

theorem hasExpressionsFrom_opening (ho : d.opening ≠ []) (afterEscape : Bool) (r : Text) :
    hasExpressionsFrom d.opening 0 afterEscape (d.opening ++ r) =
      if afterEscape then hasExpressionsFrom d.opening 0 (endsInEscape d.opening) r else true := by
  obtain ⟨c, o, hco⟩ := List.exists_cons_of_ne_nil ho
  have hcons : d.opening ++ r = c :: (o ++ r) := by rw [hco, List.cons_append]
  have hopen : d.opening.isPrefixOf (c :: (o ++ r)) = true := by simp [hco]
  have hlength : d.opening.length - 1 = o.length := by simp [hco]
  rw [hcons, hasExpressionsFrom, if_pos hopen, hlength, hasExpressionsFrom_drop, List.drop_left]

/-- Up to the first opener nothing is found. -/
theorem hasExpressionsFrom_clear (h : Clear d.opening u r) (hend : ¬ (endsInEscape u = true ∧ d.opening <+: r))
    (afterEscape : Bool) : hasExpressionsFrom d.opening 0 afterEscape (u ++ r) =
      hasExpressionsFrom d.opening 0 (afterEscape && u.isEmpty) r := by
  induction u generalizing afterEscape with
  | nil => simp
  | cons c u ih =>
    have hopen := (clear_cons.mp h).1
    have hescape := not_escape_of_clear h hend
    rw [← List.isPrefixOf_iff_prefix] at hopen hescape
    rw [List.cons_append, hasExpressionsFrom, if_neg hopen, if_neg hescape,
      ih (clear_cons.mp h).2 (not_escapes_tail hend)]
    simp

theorem hasExpressionsFrom_end (ho : d.opening ≠ []) (hclear : Clear d.opening r []) (afterEscape : Bool) :
    hasExpressionsFrom d.opening 0 afterEscape r = false := by
  have hend : ¬ (endsInEscape r = true ∧ d.opening <+: []) := fun hp => ho (List.prefix_nil.mp hp.2)
  have hscan := hasExpressionsFrom_clear hclear hend afterEscape
  rwa [List.append_nil, hasExpressionsFrom] at hscan

/-- The first opener counts, unless it is escaped. -/
theorem hasExpressionsFrom_found (ho : d.opening ≠ []) (hclear : Clear d.opening w (d.opening ++ r)) (u : Text) :
    hasExpressionsFrom d.opening 0 (endsInEscape u) (w ++ (d.opening ++ r)) =
      if endsInEscape (u ++ w) then hasExpressionsFrom d.opening 0 (endsInEscape d.opening) r else true := by
  by_cases hw : w = []
  · subst hw
    rw [List.nil_append, List.append_nil, hasExpressionsFrom_opening ho]
  · rw [endsInEscape_append u hw]
    cases hend : endsInEscape w with
    | false =>
      have hempty : w.isEmpty = false := by simpa using hw
      rw [hasExpressionsFrom_clear hclear (by simp [hend]), hempty, Bool.and_false, hasExpressionsFrom_opening ho]
    | true =>
      obtain ⟨v, rfl⟩ := endsInEscape_iff.mp hend
      obtain ⟨hv, hopen⟩ := clear_concat.mp hclear
      have hpass := hasExpressionsFrom_clear hv (fun hp => hopen hp.2) (endsInEscape u)
      have hescape : escape = escape ∧ d.opening.isPrefixOf (d.opening ++ r) = true :=
        ⟨rfl, List.isPrefixOf_iff_prefix.mpr (List.prefix_append _ _)⟩
      rw [← List.isPrefixOf_iff_prefix] at hopen
      rw [List.append_assoc, List.singleton_append, hpass, hasExpressionsFrom, if_neg hopen, if_pos hescape,
        hasExpressionsFrom_drop, List.drop_left]
      rfl

/-- Behind a text that it has passed, the scan comes to an opener that no backslash escapes and that `r` follows. -/
inductive Reaches (d : Delimiters) (r : Text) : Text → Text → Prop where
  | here {u w : Text} : Clear d.opening w (d.opening ++ r) → endsInEscape (u ++ w) = false →
      Reaches d r u (w ++ (d.opening ++ r))
  | escaped {u w t : Text} : Clear d.opening w (d.opening ++ t) → endsInEscape (u ++ w) = true →
      Reaches d r (u ++ (w ++ d.opening)) t → Reaches d r u (w ++ (d.opening ++ t))
  | closed {u w t content : Text} {n : Nat} : Clear d.opening w (d.opening ++ t) → endsInEscape (u ++ w) = false →
      Token.content d.closing 0 t = .closed content n →
      Reaches d r (u ++ (w ++ (d.opening ++ t.take n))) (t.drop n) → Reaches d r u (w ++ (d.opening ++ t))

/-- A range of bytes is asked for that is no slice of the text. -/
def OutOfRange {α : Type} (x : Except ScanError α) : Prop := ∃ start stop, x = .error (.range start stop)

@[simp] theorem outOfRange_map {α β : Type} {x : Except ScanError α} {f : α → β} :
    OutOfRange (x.map f) ↔ OutOfRange x := by
  simp only [OutOfRange, Except.map_eq_error_iff]

/-- A scan panics where it asks for such a range. -/
theorem ofText_eq_panic_iff : ofText d s = .error .panic ↔ OutOfRange (scan d s) := by
  rw [ofText, Except.mapError_eq_error_iff]
  constructor
  · rintro ⟨e, hscan, hhalt⟩
    cases e with
    | emptyDelimiter | unterminated offset snippet => cases hhalt
    | range start stop => exact ⟨start, stop, hscan⟩
  · rintro ⟨start, stop, hscan⟩
    exact ⟨_, hscan, rfl⟩

/-- Closers overlap behind an opener that the scan comes to. -/
theorem outOfRange_scanFrom_iff (ho : d.opening ≠ []) (hc : d.closing ≠ []) (u s : Text) (offset : Nat) :
    OutOfRange (scanFrom d offset 0 (endsInEscape u) [] s) ↔
      endsInEscape d.closing = true ∧ ∃ r, Reaches d r u s ∧ Overlaps d.closing r := by
  constructor
  · intro h
    induction u, s using scan_induction ho generalizing offset with
    | clear u s hclear =>
      rw [scanFrom_end ho hclear] at h
      obtain ⟨start, stop, ⟨⟩⟩ := h
    | escaped u w r hclear hend ih =>
      rw [scanFrom_found_escaped ho hclear hend, outOfRange_map, ← endsInEscape_passed u w ho] at h
      obtain ⟨hescape, t, hreach, hover⟩ := ih _ h
      exact ⟨hescape, t, .escaped hclear hend hreach, hover⟩
    | opened u w r hclear hend ih =>
      rw [scanFrom_found_opening ho hclear hend] at h
      cases hcontent : Token.content d.closing 0 r with
      | unclosed =>
        rw [hcontent] at h
        obtain ⟨start, stop, ⟨⟩⟩ := h
      | overlapping n =>
        obtain ⟨hescape, hover⟩ := (content_overlapping_iff hc).mp ⟨n, hcontent⟩
        exact ⟨hescape, r, .here hclear hend, hover⟩
      | closed content n =>
        simp only [hcontent, outOfRange_map] at h
        rw [← endsInEscape_content hc hcontent u w d.opening] at h
        obtain ⟨hescape, t, hreach, hover⟩ := ih content n hcontent _ h
        exact ⟨hescape, t, .closed hclear hend hcontent hreach, hover⟩
  · rintro ⟨hescape, r, hreach, hover⟩
    induction hreach generalizing offset with
    | here hclear hend =>
      obtain ⟨n, hcontent⟩ := (content_overlapping_iff hc).mpr ⟨hescape, hover⟩
      rw [scanFrom_found_opening ho hclear hend, hcontent]
      exact ⟨_, _, rfl⟩
    | @escaped u w t hclear hend _ ih =>
      rw [scanFrom_found_escaped ho hclear hend, outOfRange_map, ← endsInEscape_passed u w ho]
      exact ih _
    | @closed u w t content n hclear hend hcontent _ ih =>
      rw [scanFrom_found_opening ho hclear hend, hcontent]
      dsimp only
      rw [outOfRange_map, ← endsInEscape_content hc hcontent u w d.opening]
      exact ih _

/-- A scan fails where an opener has no closer, or where a range ends a byte before it starts. -/
theorem scanFrom_error (ho : d.opening ≠ []) (hc : d.closing ≠ []) {e : ScanError}
    (h : scanFrom d offset 0 (endsInEscape u) [] s = .error e) :
    (∃ opener snippet, e = .unterminated opener snippet) ∨ ∃ position, e = .range (position + 1) position := by
  induction u, s using scan_induction ho generalizing offset with
  | clear u s hclear =>
    rw [scanFrom_end ho hclear] at h
    cases h
  | escaped u w r hclear hend ih =>
    rw [scanFrom_found_escaped ho hclear hend, Except.map_eq_error_iff, ← endsInEscape_passed u w ho] at h
    exact ih h
  | opened u w r hclear hend ih =>
    rw [scanFrom_found_opening ho hclear hend] at h
    cases hcontent : Token.content d.closing 0 r with
    | unclosed =>
      rw [hcontent] at h
      cases h
      exact .inl ⟨_, _, rfl⟩
    | overlapping n =>
      have hpos := Text.byteLength_pos ho
      rw [hcontent] at h
      cases h
      refine .inr ⟨offset + Text.byteLength (w ++ (d.opening ++ r.take n)) - 1, ?_⟩
      rw [Nat.sub_add_cancel]
      simp only [Text.byteLength_append]
      omega
    | closed content n =>
      simp only [hcontent, Except.map_eq_error_iff] at h
      rw [← endsInEscape_content hc hcontent u w d.opening] at h
      exact ih content n hcontent h

/-- A scan fails at an opener without a closer, or at a range that runs backwards by one byte. -/
theorem scan_error (ho : d.opening ≠ []) (hc : d.closing ≠ []) {e : ScanError} (h : scan d s = .error e) :
    (∃ opener snippet, e = .unterminated opener snippet) ∨ ∃ position, e = .range (position + 1) position := by
  rw [scan, if_neg (by simp [ho, hc])] at h
  exact scanFrom_error (u := []) ho hc h

/--
A scan goes out of range exactly when the closer ends in a backslash and some opener is reached behind
which two closers overlap.
-/
theorem outOfRange_scan_iff (ho : d.opening ≠ []) (hc : d.closing ≠ []) (s : Text) :
    OutOfRange (scan d s) ↔ endsInEscape d.closing = true ∧ ∃ r, Reaches d r [] s ∧ Overlaps d.closing r := by
  rw [scan, if_neg (by simp [ho, hc])]
  exact outOfRange_scanFrom_iff ho hc [] s 0

end DynamicSql.Token
