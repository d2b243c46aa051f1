import DynamicSql.Proofs.Template.Closers

/-!
Where delimiters begin. Up to the first place where one does, reading a content and scanning a text only keep
what they pass; there the character before it decides, and reading goes on behind it.
-/
namespace DynamicSql.Token

variable {d : Delimiters} {closing w u v r s t rest : Text} {c : Char} {offset : Nat} {afterEscape : Bool}
  {pending : Text}

/-- No `w` begins in the text where `rest` follows it. -/
def Clear (w u rest : Text) : Prop := ∀ v, v ≠ [] → v <:+ u → ¬ w <+: v ++ rest

theorem clear_nil (w rest : Text) : Clear w [] rest :=
  fun _ hne hv => absurd (List.suffix_nil.mp hv) hne

theorem clear_cons : Clear w (c :: u) rest ↔ ¬ w <+: c :: (u ++ rest) ∧ Clear w u rest := by
  constructor
  · intro h
    exact ⟨h (c :: u) (List.cons_ne_nil c u) List.suffix_rfl,
      fun v hne hv => h v hne (hv.trans (List.suffix_cons c u))⟩
  · rintro ⟨hhead, htail⟩ v hne hv
    cases List.suffix_cons_iff.mp hv with
    | inl hwhole => exact hwhole ▸ hhead
    | inr hv => exact htail v hne hv

theorem clear_append : Clear w (u ++ v) rest ↔ Clear w u (v ++ rest) ∧ Clear w v rest := by
  induction u with
  | nil => simp [clear_nil]
  | cons c u ih => rw [List.cons_append, clear_cons, ih, clear_cons, List.append_assoc, and_assoc]

theorem clear_concat : Clear w (u ++ [c]) rest ↔ Clear w u (c :: rest) ∧ ¬ w <+: c :: rest := by
  rw [clear_append, clear_cons]
  simp [clear_nil]

/-- What does not begin where more follows does not begin where less does. -/
theorem Clear.shorten (h : Clear w u rest) (hp : s <+: rest) : Clear w u s :=
  fun v hne hv hw => h v hne hv (hw.trans ((List.prefix_append_right_inj v).mpr hp))

/-- Either nothing begins in a text, or something begins first. -/
theorem clear_or_first (w s : Text) : Clear w s [] ∨ ∃ u r, s = u ++ (w ++ r) ∧ Clear w u (w ++ r) := by
  induction s with
  | nil => exact .inl (clear_nil w [])
  | cons c s ih =>
    by_cases h : w <+: c :: s
    · obtain ⟨r, hr⟩ := h
      exact .inr ⟨[], r, hr.symm, clear_nil w _⟩
    · cases ih with
      | inl hclear => exact .inl (clear_cons.mpr ⟨by rwa [List.append_nil], hclear⟩)
      | inr hfirst =>
        obtain ⟨u, r, rfl, hclear⟩ := hfirst
        exact .inr ⟨c :: u, r, rfl, clear_cons.mpr ⟨h, hclear⟩⟩

theorem endsInEscape_iff : endsInEscape u = true ↔ ∃ v, u = v ++ [escape] := by
  rw [endsInEscape, beq_iff_eq, List.getLast?_eq_some_iff]

/-- Nothing begins in a text, or what begins first is behind a backslash, or it is not. -/
theorem first_cases (w s : Text) : Clear w s [] ∨
    (∃ u r, s = u ++ escape :: (w ++ r) ∧ Clear w (u ++ [escape]) (w ++ r)) ∨
    ∃ u r, s = u ++ (w ++ r) ∧ Clear w u (w ++ r) ∧ endsInEscape u = false := by
  rcases clear_or_first w s with hclear | ⟨u, r, rfl, hclear⟩
  · exact .inl hclear
  · cases hend : endsInEscape u with
    | false => exact .inr (.inr ⟨u, r, rfl, hclear, hend⟩)
    | true =>
      obtain ⟨v, rfl⟩ := endsInEscape_iff.mp hend
      exact .inr (.inl ⟨v, r, by simp, hclear⟩)

/-- Induction along the places where `w` begins behind a backslash. -/
theorem first_induction {motive : Text → Prop} (w : Text) (clear : ∀ s, Clear w s [] → motive s)
    (escaped : ∀ u r, Clear w (u ++ [escape]) (w ++ r) → motive r → motive (u ++ escape :: (w ++ r)))
    (first : ∀ u r, Clear w u (w ++ r) → endsInEscape u = false → motive (u ++ (w ++ r))) (s : Text) : motive s := by
  -- What is passed over is a whole stretch, so the induction is on the length.
  induction hn : s.length using Nat.strongRecOn generalizing s with
  | _ n ih =>
    subst hn
    rcases first_cases w s with hclear | ⟨u, r, rfl, hclear⟩ | ⟨u, r, rfl, hclear, hend⟩
    · exact clear s hclear
    · have hshort : r.length < (u ++ escape :: (w ++ r)).length := by
        simp only [List.length_append, List.length_cons]
        omega
      exact escaped u r hclear (ih r.length hshort r rfl)
    · exact first u r hclear hend

/-- Only the last part tells how a text ends. -/
theorem endsInEscape_append (u : Text) (hv : v ≠ []) : endsInEscape (u ++ v) = endsInEscape v := by
  rw [endsInEscape, endsInEscape, List.getLast?_append_of_ne_nil u hv]

/-- What has been passed ends as its last delimiter does. -/
theorem endsInEscape_passed (u w : Text) (hv : v ≠ []) : endsInEscape (u ++ (w ++ v)) = endsInEscape v := by
  rw [← List.append_assoc, endsInEscape_append _ hv]

theorem endsInEscape_of_not_mem (h : escape ∉ u) : endsInEscape u = false := by
  rw [endsInEscape, beq_eq_false_iff_ne]
  exact fun hl => h (List.mem_of_getLast? hl)

/-- A text that ends in a backslash, or that the escaped thing does not follow, with a character before it. -/
theorem not_escapes_tail (hend : ¬ (endsInEscape (c :: u) = true ∧ w <+: rest)) :
    ¬ (endsInEscape u = true ∧ w <+: rest) := by
  rintro ⟨hu, hw⟩
  have hne : u ≠ [] := by
    rintro rfl
    cases hu
  exact hend ⟨(endsInEscape_append [c] hne).trans hu, hw⟩

/-- In a clear stretch only its last character can escape. -/
theorem not_escape_of_clear (h : Clear w (c :: u) rest) (hend : ¬ (endsInEscape (c :: u) = true ∧ w <+: rest)) :
    ¬ (c = escape ∧ w <+: u ++ rest) := by
  rintro ⟨rfl, hw⟩
  cases u with
  | nil => exact hend ⟨rfl, hw⟩
  | cons x u => exact (clear_cons.mp (clear_cons.mp h).2).1 hw

@[simp] theorem Content.cons_nil (found : Content) : found.cons [] 0 = found := by
  cases found <;> simp [Content.cons]

@[simp] theorem Content.cons_cons (found : Content) (s t : Text) (k n : Nat) :
    (found.cons t n).cons s k = found.cons (s ++ t) (k + n) := by
  cases found <;> simp [Content.cons, Nat.add_assoc]

/-- A stretch in which no closer begins is part of the content. -/
theorem content_clear (h : Clear closing u rest) (hend : ¬ (endsInEscape u = true ∧ closing <+: rest)) :
    Token.content closing 0 (u ++ rest) = (Token.content closing 0 rest).cons u u.length := by
  induction u with
  | nil => simp
  | cons c u ih =>
    rw [List.cons_append, content_char (clear_cons.mp h).1 (not_escape_of_clear h hend),
      ih (clear_cons.mp h).2 (not_escapes_tail hend), Content.cons_cons, List.length_cons, Nat.add_comm 1]
    rfl

/-- Without a closer no content is closed. -/
theorem content_unclosed (hc : closing ≠ []) (h : Clear closing s []) : Token.content closing 0 s = .unclosed := by
  have hend : ¬ (endsInEscape s = true ∧ closing <+: []) := fun hp => hc (List.prefix_nil.mp hp.2)
  have hread := content_clear h hend
  rwa [List.append_nil] at hread

/-- The content ends at the first closer that no backslash escapes. -/
theorem content_closed (hc : closing ≠ []) (h : Clear closing u (closing ++ r)) (hend : endsInEscape u = false) :
    Token.content closing 0 (u ++ (closing ++ r)) = .closed u (u.length + closing.length) := by
  rw [content_clear h (by simp [hend]), content_closing hc (List.prefix_append _ _), Content.cons, List.append_nil]

/-- A closer that a backslash escapes is part of the content, unless it ends in one and another follows. -/
theorem content_escaped (h : Clear closing (u ++ [escape]) (closing ++ r)) :
    Token.content closing 0 (u ++ escape :: (closing ++ r)) =
      if endsInEscape closing = true ∧ closing <+: r then .overlapping (u.length + (closing.length + 1))
      else (Token.content closing 0 r).cons (u ++ closing) (u.length + (closing.length + 1)) := by
  obtain ⟨hu, hclose⟩ := clear_concat.mp h
  rw [content_clear hu (fun hp => hclose hp.2), content_escape hclose]
  split
  · rfl
  · rw [Content.cons_cons]

theorem flush_nil (tokens : List Token) : flush [] tokens = tokens := rfl

theorem flush_reverse (h : u ≠ []) (tokens : List Token) : flush u.reverse tokens = .text u :: tokens := by
  rw [flush, if_neg (by simpa using h), List.reverse_reverse]

/-- A stretch in which no opener begins is pending text. -/
theorem scanFrom_clear (h : Clear d.opening u rest) (hend : ¬ (endsInEscape u = true ∧ d.opening <+: rest))
    (offset : Nat) (afterEscape : Bool) (pending : Text) :
    scanFrom d offset 0 afterEscape pending (u ++ rest) =
      scanFrom d (offset + Text.byteLength u) 0 (afterEscape && u.isEmpty) (u.reverse ++ pending) rest := by
  induction u generalizing offset afterEscape pending with
  | nil => simp
  | cons c u ih =>
    rw [List.cons_append, scanFrom_char (clear_cons.mp h).1 (not_escape_of_clear h hend),
      ih (clear_cons.mp h).2 (not_escapes_tail hend)]
    simp [Nat.add_assoc]

/-- An opener that a backslash escapes is text. -/
theorem scanFrom_escaped (h : Clear d.opening (u ++ [escape]) (d.opening ++ r)) (offset : Nat) (afterEscape : Bool)
    (pending : Text) :
    scanFrom d offset 0 afterEscape pending (u ++ escape :: (d.opening ++ r)) =
      (scanFrom d (offset + Text.byteLength (u ++ escape :: d.opening)) 0 (endsInEscape d.opening) [] r).map
        fun tokens => flush (u.reverse ++ pending) (.escaped :: tokens) := by
  obtain ⟨hu, hopen⟩ := clear_concat.mp h
  rw [scanFrom_clear hu (fun hp => hopen hp.2), scanFrom_escape hopen, Text.byteLength_append, Nat.add_assoc]

end DynamicSql.Token
