import DynamicSql.Proofs.Template.Verbatim

/-!
The scanner, place by place: an equation for each thing that may stand where it looks, and the scans that
succeed as a relation with one constructor for each.
-/
namespace DynamicSql.Token

variable {d : Delimiters} {s r content : Text} {c : Char} {n offset : Nat} {afterEscape : Bool} {pending : Text}
  {tokens : List Token}

theorem scanFrom_drop (d : Delimiters) (offset k : Nat) (afterEscape : Bool) (pending s : Text) :
    scanFrom d offset k afterEscape pending s =
      scanFrom d (offset + Text.byteLength (s.take k)) 0 afterEscape pending (s.drop k) := by
  induction s generalizing offset k with
  | nil => cases k <;> rfl
  | cons c s ih =>
    cases k with
    | zero => rfl
    | succ k =>
      rw [scanFrom, ih, List.take_succ_cons, List.drop_succ_cons, Text.byteLength_cons, Nat.add_assoc]

/-- An opener directly behind an escape that ends a delimiter. -/
theorem scanFrom_again (ho : d.opening ≠ []) (offset : Nat) (r : Text) :
    scanFrom d offset 0 true [] (d.opening ++ r) =
      (scanFrom d (offset + Text.byteLength d.opening) 0 (endsInEscape d.opening) [] r).map (.escaped :: ·) := by
  obtain ⟨c, o, hco⟩ := List.exists_cons_of_ne_nil ho
  have hopen : d.opening.isPrefixOf (c :: (o ++ r)) = true := by simp [hco]
  have hlength : d.opening.length - 1 = o.length := by simp [hco]
  have hbytes : offset + c.utf8Size + Text.byteLength o = offset + Text.byteLength d.opening := by
    rw [hco, Text.byteLength_cons, Nat.add_assoc]
  conv => lhs; rw [hco]
  rw [List.cons_append, scanFrom, if_pos hopen, if_pos ⟨rfl, rfl⟩, hlength, scanFrom_drop, List.take_left,
    List.drop_left, hbytes]

theorem scanFrom_escape (hopen : ¬ d.opening <+: escape :: (d.opening ++ r)) (offset : Nat) (afterEscape : Bool)
    (pending : Text) :
    scanFrom d offset 0 afterEscape pending (escape :: (d.opening ++ r)) =
      (scanFrom d (offset + Text.byteLength (escape :: d.opening)) 0 (endsInEscape d.opening) [] r).map
        fun tokens => flush pending (.escaped :: tokens) := by
  rw [← List.isPrefixOf_iff_prefix] at hopen
  have hescape : escape = escape ∧ d.opening.isPrefixOf (d.opening ++ r) = true :=
    ⟨rfl, List.isPrefixOf_iff_prefix.mpr (List.prefix_append _ _)⟩
  rw [scanFrom, if_neg hopen, if_pos hescape, scanFrom_drop, List.take_left, List.drop_left, Text.byteLength_cons,
    Nat.add_assoc]

/-- An opener that is none of those: its content decides. -/
theorem scanFrom_content (ho : d.opening ≠ []) (hp : ¬ (afterEscape = true ∧ pending = [])) (offset : Nat)
    (r : Text) :
    scanFrom d offset 0 afterEscape pending (d.opening ++ r) =
      match Token.content d.closing 0 r with
      | .closed content n =>
        (scanFrom d (offset + Text.byteLength (d.opening ++ r.take n)) 0 (endsInEscape d.closing) [] (r.drop n)).map
          fun tokens => flush pending (.expr content offset :: tokens)
      | .unclosed => .error (.unterminated offset ((d.opening ++ r).take snippetLength))
      | .overlapping n =>
        .error (.range (offset + Text.byteLength (d.opening ++ r.take n))
          (offset + Text.byteLength (d.opening ++ r.take n) - 1)) := by
  obtain ⟨c, o, hco⟩ := List.exists_cons_of_ne_nil ho
  have hcons : d.opening ++ r = c :: (o ++ r) := by rw [hco, List.cons_append]
  have hopen : d.opening.isPrefixOf (c :: (o ++ r)) = true := by simp [hco]
  have hdrop : (c :: (o ++ r)).drop d.opening.length = r := by rw [← hcons, List.drop_left]
  rw [hcons, scanFrom, if_pos hopen, if_neg hp, hdrop]
  cases Token.content d.closing 0 r with
  | unclosed => rfl
  | overlapping n =>
    dsimp only
    rw [← hcons, List.take_length_add_append]
  | closed content n =>
    have hlength : d.opening.length + n - 1 = o.length + n := by
      rw [hco, List.length_cons]
      omega
    have hbytes : offset + c.utf8Size + Text.byteLength (o ++ r.take n) =
        offset + Text.byteLength (d.opening ++ r.take n) := by
      rw [hco, List.cons_append, Text.byteLength_cons, Nat.add_assoc]
    dsimp only
    rw [hlength, scanFrom_drop, List.take_length_add_append, List.drop_length_add_append, hbytes]

theorem scanFrom_opening (ho : d.opening ≠ []) (hp : ¬ (afterEscape = true ∧ pending = []))
    (hc : Token.content d.closing 0 r = .closed content n) (offset : Nat) :
    scanFrom d offset 0 afterEscape pending (d.opening ++ r) =
      (scanFrom d (offset + Text.byteLength (d.opening ++ r.take n)) 0 (endsInEscape d.closing) [] (r.drop n)).map
        fun tokens => flush pending (.expr content offset :: tokens) := by
  rw [scanFrom_content ho hp, hc]

/-- A scan that succeeds from an opener has closed the content behind it. -/
theorem content_closed_of_scanFrom (ho : d.opening ≠ []) (hp : ¬ (afterEscape = true ∧ pending = []))
    (h : scanFrom d offset 0 afterEscape pending (d.opening ++ r) = .ok tokens) :
    ∃ content n, Token.content d.closing 0 r = .closed content n := by
  rw [scanFrom_content ho hp] at h
  cases hc : Token.content d.closing 0 r with
  | closed content n => exact ⟨content, n, rfl⟩
  | unclosed | overlapping n => simp [hc] at h

/-- Any other character waits for the text that it is part of. -/
theorem scanFrom_char (hopen : ¬ d.opening <+: c :: r) (hescape : ¬ (c = escape ∧ d.opening <+: r)) (offset : Nat)
    (afterEscape : Bool) (pending : Text) :
    scanFrom d offset 0 afterEscape pending (c :: r) = scanFrom d (offset + c.utf8Size) 0 false (c :: pending) r := by
  rw [← List.isPrefixOf_iff_prefix] at hopen hescape
  rw [scanFrom, if_neg hopen, if_neg hescape]

/-- One place of a scan after the other, without the offsets. -/
inductive Scans (d : Delimiters) : Bool → Text → Text → List Token → Prop where
  | nil {afterEscape : Bool} {pending : Text} : Scans d afterEscape pending [] (flush pending [])
  | again {r : Text} {tokens : List Token} : Scans d (endsInEscape d.opening) [] r tokens →
      Scans d true [] (d.opening ++ r) (.escaped :: tokens)
  | escape {afterEscape : Bool} {pending r : Text} {tokens : List Token} :
      ¬ d.opening <+: Token.escape :: (d.opening ++ r) → Scans d (endsInEscape d.opening) [] r tokens →
      Scans d afterEscape pending (Token.escape :: (d.opening ++ r)) (flush pending (.escaped :: tokens))
  | opening {afterEscape : Bool} {pending r content : Text} {n offset : Nat} {tokens : List Token} :
      ¬ (afterEscape = true ∧ pending = []) → Token.content d.closing 0 r = .closed content n →
      Scans d (endsInEscape d.closing) [] (r.drop n) tokens →
      Scans d afterEscape pending (d.opening ++ r) (flush pending (.expr content offset :: tokens))
  | char {afterEscape : Bool} {c : Char} {pending r : Text} {tokens : List Token} : ¬ d.opening <+: c :: r →
      ¬ (c = Token.escape ∧ d.opening <+: r) → Scans d false (c :: pending) r tokens →
      Scans d afterEscape pending (c :: r) tokens

/-- A scan that succeeds goes by the relation. -/
theorem scans_of_scanFrom (ho : d.opening ≠ []) (h : scanFrom d offset 0 afterEscape pending s = .ok tokens) :
    Scans d afterEscape pending s tokens := by
  -- A delimiter is passed over as a whole, so the induction is on the length.
  induction hn : s.length using Nat.strongRecOn generalizing s offset afterEscape pending tokens with
  | _ n ih =>
    subst hn
    have hpos : 0 < d.opening.length := List.length_pos_iff.mpr ho
    cases s with
    | nil =>
      obtain rfl := Except.ok.inj h
      exact .nil
    | cons c r =>
      by_cases hopen : d.opening <+: c :: r
      · obtain ⟨rest, hrest⟩ := hopen
        rw [← hrest] at h ih ⊢
        rw [List.length_append] at ih
        by_cases hp : afterEscape = true ∧ pending = []
        · obtain ⟨rfl, rfl⟩ := hp
          rw [scanFrom_again ho, Except.map_eq_ok_iff] at h
          obtain ⟨tokens, h, rfl⟩ := h
          exact .again (ih rest.length (by omega) h rfl)
        · obtain ⟨content, n, hc⟩ := content_closed_of_scanFrom ho hp h
          rw [scanFrom_opening ho hp hc, Except.map_eq_ok_iff] at h
          obtain ⟨tokens, h, rfl⟩ := h
          exact .opening hp hc (ih _ (by rw [List.length_drop]; omega) h rfl)
      · by_cases hescape : c = Token.escape ∧ d.opening <+: r
        · obtain ⟨rfl, rest, rfl⟩ := hescape
          rw [scanFrom_escape hopen, Except.map_eq_ok_iff] at h
          obtain ⟨tokens, h, rfl⟩ := h
          exact .escape hopen (ih _ (by simp only [List.length_cons, List.length_append]; omega) h rfl)
        · rw [scanFrom_char hopen hescape] at h
          exact .char hopen hescape (ih _ (Nat.lt_succ_self _) h rfl)

end DynamicSql.Token
