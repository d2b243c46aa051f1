import DynamicSql.Proofs.Template.Occurrences

/-!
Texts by the offsets of their bytes. A range is a slice of a text when it is in order, ends inside the text and
has no end inside a character; the byte before an offset tells whether a backslash is there.
-/
namespace DynamicSql.Text

open Token (Clear)

variable {s u v w r : Text} {c : Char} {start stop n : Nat}

theorem byteLength_eq_zero : byteLength s = 0 ↔ s = [] := by
  cases s with
  | nil => simp
  | cons c r =>
    have hc := c.utf8Size_pos
    simp only [byteLength_cons, reduceCtorEq, iff_false]
    omega

theorem byteLength_pos (h : s ≠ []) : 0 < byteLength s := Nat.pos_of_ne_zero (mt byteLength_eq_zero.mp h)

theorem byteLength_concat_escape (s : Text) : byteLength (s ++ [Token.escape]) = byteLength s + 1 := by
  rw [byteLength_append]
  rfl

/-- The text before a byte offset and the text from there on, where a character begins or the text ends. -/
def splitAt? : Nat → Text → Option (Text × Text)
  | 0, s => some ([], s)
  | _ + 1, [] => none
  | n + 1, c :: r =>
    if c.utf8Size ≤ n + 1 then (splitAt? (n + 1 - c.utf8Size) r).map fun (u, v) => (c :: u, v) else none

/-- A text is split at a byte where a character begins. -/
theorem splitAt?_eq_some_iff : splitAt? n s = some (u, v) ↔ s = u ++ v ∧ byteLength u = n := by
  induction s generalizing n u with
  | nil =>
    cases u with
    | nil => cases n <;> simp [splitAt?]
    | cons x u => cases n <;> simp [splitAt?]
  | cons c r ih =>
    cases u with
    | nil => cases n <;> simp [splitAt?]
    | cons x u =>
      have hx := x.utf8Size_pos
      cases n with
      | zero =>
        simp only [splitAt?, byteLength_cons, Option.some.injEq, Prod.mk.injEq, reduceCtorEq, false_and, false_iff]
        omega
      | succ n =>
        simp only [splitAt?, List.cons_append, List.cons.injEq, byteLength_cons]
        constructor
        · intro h
          split at h
          · next hle =>
            obtain ⟨⟨u', v'⟩, hsplit, heq⟩ := Option.map_eq_some_iff.mp h
            simp only [Prod.mk.injEq, List.cons.injEq] at heq
            obtain ⟨⟨rfl, rfl⟩, rfl⟩ := heq
            obtain ⟨hr, hn⟩ := ih.mp hsplit
            exact ⟨⟨rfl, hr⟩, by omega⟩
          · cases h
        · rintro ⟨⟨rfl, hr⟩, hn⟩
          rw [if_pos (by omega), ih.mpr ⟨hr, by omega⟩]
          rfl

/-- The bytes from `start` up to `stop` as a text, where they are one. -/
def slice? (s : Text) (start stop : Nat) : Option Text :=
  (splitAt? stop s).bind fun (before, _) => (splitAt? start before).map Prod.snd

/-- A slice lies between two bytes where characters begin. -/
theorem slice?_eq_some_iff : slice? s start stop = some w ↔
    ∃ u v, s = u ++ (w ++ v) ∧ byteLength u = start ∧ byteLength (u ++ w) = stop := by
  simp only [slice?, Option.bind_eq_some_iff, Option.map_eq_some_iff, Prod.exists, splitAt?_eq_some_iff]
  constructor
  · rintro ⟨before, v, ⟨rfl, hstop⟩, u, w', ⟨rfl, hstart⟩, rfl⟩
    exact ⟨u, v, by simp, hstart, hstop⟩
  · rintro ⟨u, v, rfl, hstart, hstop⟩
    exact ⟨u ++ w, v, ⟨by simp, hstop⟩, u, w, ⟨rfl, hstart⟩, rfl⟩

theorem slice?_inside (u w v : Text) : slice? (u ++ (w ++ v)) (byteLength u) (byteLength (u ++ w)) = some w :=
  slice?_eq_some_iff.mpr ⟨u, v, rfl, rfl, rfl⟩

theorem slice?_rest (u v : Text) : slice? (u ++ v) (byteLength u) (byteLength (u ++ v)) = some v := by
  have h := slice?_inside u v []
  rwa [List.append_nil] at h

theorem le_of_slice? (h : slice? s start stop = some w) : start ≤ stop ∧ stop ≤ byteLength s := by
  obtain ⟨u, v, rfl, rfl, rfl⟩ := slice?_eq_some_iff.mp h
  simp only [byteLength_append]
  omega

/-- A slice does not end before it begins. -/
theorem slice?_backwards (h : stop < start) : slice? s start stop = none := by
  rw [Option.eq_none_iff_forall_ne_some]
  intro w hw
  have hle := (le_of_slice? hw).1
  omega

/-! Bytes. -/

def bytes (s : Text) : List UInt8 := s.flatMap String.utf8EncodeChar

theorem bytes_append (s t : Text) : bytes (s ++ t) = bytes s ++ bytes t := List.flatMap_append

theorem length_bytes (s : Text) : (bytes s).length = byteLength s := by
  induction s with
  | nil => rfl
  | cons c r ih =>
    have hcons : bytes (c :: r) = String.utf8EncodeChar c ++ bytes r := rfl
    rw [hcons, List.length_append, String.length_utf8EncodeChar, ih, byteLength_cons]

def escapeByte : UInt8 := 0x5c

/-- Only a backslash ends in its byte. -/
theorem getLast?_encode (c : Char) : (String.utf8EncodeChar c).getLast? = some escapeByte ↔ c = Token.escape := by
  have hval : c = Token.escape ↔ c.val.toNat = 92 := by
    rw [Char.ext_iff, ← UInt32.toNat_inj]
    rfl
  have hbyte : ∀ n, n < 256 → (UInt8.ofNat n = escapeByte ↔ n = 92) := by
    intro n hn
    rw [← UInt8.toNat_inj, UInt8.toNat_ofNat', Nat.mod_eq_of_lt hn]
    rfl
  have hlast := hbyte (c.val.toNat % 64 + 128) (by omega)
  rw [hval]
  simp only [String.utf8EncodeChar]
  split
  · rw [List.getLast?_singleton, Option.some.injEq, hbyte _ (by omega)]
  · split
    · simp only [List.getLast?_cons_cons, List.getLast?_singleton, Option.some.injEq]
      rw [hlast]
      omega
    · split
      · simp only [List.getLast?_cons_cons, List.getLast?_singleton, Option.some.injEq]
        rw [hlast]
        omega
      · simp only [List.getLast?_cons_cons, List.getLast?_singleton, Option.some.injEq]
        rw [hlast]
        omega

/-- The last byte tells whether a text ends in a backslash, as no other character has that byte. -/
theorem getLast?_bytes (s : Text) : (bytes s).getLast? = some escapeByte ↔ Token.endsInEscape s = true := by
  rcases List.eq_nil_or_concat s with rfl | ⟨u, c, rfl⟩
  · simp [bytes, Token.endsInEscape]
  · have hne : String.utf8EncodeChar c ≠ [] := by
      rw [Ne, ← List.length_eq_zero_iff, String.length_utf8EncodeChar]
      exact Nat.pos_iff_ne_zero.mp c.utf8Size_pos
    have hlast : bytes [c] = String.utf8EncodeChar c := List.flatMap_singleton _ _
    rw [List.concat_eq_append, bytes_append, hlast, List.getLast?_append_of_ne_nil _ hne, getLast?_encode]
    simp [Token.endsInEscape]

/-- The byte before an offset is the last one of the text before it. -/
theorem getElem?_bytes (hu : u ≠ []) (v : Text) : (bytes (u ++ v))[byteLength u - 1]? = (bytes u).getLast? := by
  have hpos := byteLength_pos hu
  rw [bytes_append, List.getLast?_eq_getElem?, length_bytes,
    List.getElem?_append_left (by rw [length_bytes]; omega)]

/-! The first occurrence. -/

/-- The byte offset of the first place where `w` begins. -/
def find? (w : Text) : Text → Option Nat
  | [] => if w = [] then some 0 else none
  | c :: r => if w.isPrefixOf (c :: r) then some 0 else (find? w r).map (c.utf8Size + ·)

theorem find?_clear (hw : w ≠ []) (h : Clear w s []) : find? w s = none := by
  induction s with
  | nil => exact if_neg hw
  | cons c r ih =>
    obtain ⟨hhead, htail⟩ := Token.clear_cons.mp h
    rw [List.append_nil, ← List.isPrefixOf_iff_prefix] at hhead
    rw [find?, if_neg hhead, ih htail]
    rfl

/-- The search finds the first occurrence, as an offset in bytes. -/
theorem find?_first (h : Clear w u (w ++ r)) : find? w (u ++ (w ++ r)) = some (byteLength u) := by
  induction u with
  | nil =>
    have hprefix : w.isPrefixOf (w ++ r) = true := List.isPrefixOf_iff_prefix.mpr (List.prefix_append w r)
    rw [List.nil_append]
    cases hs : w ++ r with
    | nil => simp [find?, (List.append_eq_nil_iff.mp hs).1]
    | cons c t =>
      rw [hs] at hprefix
      rw [find?, if_pos hprefix]
      rfl
  | cons c u ih =>
    obtain ⟨hhead, htail⟩ := Token.clear_cons.mp h
    rw [← List.isPrefixOf_iff_prefix] at hhead
    rw [List.cons_append, find?, if_neg hhead, ih htail]
    rfl

end DynamicSql.Text
