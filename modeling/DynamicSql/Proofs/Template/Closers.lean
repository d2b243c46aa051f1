import DynamicSql.Proofs.Template.Escaping
import DynamicSql.Proofs.Template.Scanning

/-!
Contents with a backslash before every closer. Main statements: the reader gets from one either the content, up
to the closer behind it, or something else whatever follows; and where no backslash is in the closer, it gets
the content exactly when no closer begins in it that is not escaped. At the default closer that is so for a content
that does not end in a backslash or a brace.
-/
namespace DynamicSql.Token

variable {d : Delimiters} {closing s r e t w content : Text} {c : Char} {k n : Nat}

theorem take_cons_congr (c : Char) (h : s.take k = t.take k) : (c :: s).take k = (c :: t).take k := by
  cases k with
  | zero => rfl
  | succ k =>
    have hshort := congrArg (List.take k) h
    rw [List.take_take, List.take_take, Nat.min_eq_left (Nat.le_succ k)] at hshort
    rw [List.take_succ_cons, List.take_succ_cons, hshort]

/-- A prefix depends on as many characters as it has. -/
theorem prefix_congr (h : s.take k = t.take k) (hw : w.length ≤ k) : w <+: s ↔ w <+: t := by
  have htake : ∀ u : Text, w <+: u ↔ w <+: u.take k := fun u =>
    ⟨fun hp => List.prefix_take_iff.mpr ⟨hp, hw⟩, fun hp => (List.prefix_take_iff.mp hp).1⟩
  rw [htake s, htake t, h]

theorem content_drop (closing : Text) (k : Nat) (s : Text) :
    Token.content closing k s = Token.content closing 0 (s.drop k) := by
  induction s generalizing k with
  | nil => cases k <;> rfl
  | cons c s ih =>
    cases k with
    | zero => rfl
    | succ k => exact ih k

/-- At a closer the content ends. -/
theorem content_closing (hc : closing ≠ []) (h : closing <+: s) :
    Token.content closing 0 s = .closed [] closing.length := by
  cases s with
  | nil => exact absurd (List.prefix_nil.mp h) hc
  | cons c s => rw [Token.content, if_pos (List.isPrefixOf_iff_prefix.mpr h)]

/--
A backslash before a closer keeps the content open; when the closer ends in a backslash itself, it may
overlap the next one.
-/
theorem content_escape (hclose : ¬ closing <+: Token.escape :: (closing ++ r)) :
    Token.content closing 0 (Token.escape :: (closing ++ r)) =
      if endsInEscape closing = true ∧ closing <+: r then .overlapping (closing.length + 1)
      else (Token.content closing 0 r).cons closing (closing.length + 1) := by
  rw [← List.isPrefixOf_iff_prefix] at hclose
  have hescape : escape = escape ∧ closing.isPrefixOf (closing ++ r) = true :=
    ⟨rfl, List.isPrefixOf_iff_prefix.mpr (List.prefix_append _ _)⟩
  rw [Token.content, if_neg hclose, if_pos hescape, List.drop_left, content_drop, List.drop_left]
  simp only [List.isPrefixOf_iff_prefix]

theorem content_char (hclose : ¬ closing <+: c :: r)
    (hescape : ¬ (c = Token.escape ∧ closing <+: r)) :
    Token.content closing 0 (c :: r) = (Token.content closing 0 r).cons [c] 1 := by
  rw [← List.isPrefixOf_iff_prefix] at hclose hescape
  rw [Token.content, if_neg hclose, if_neg hescape]

/-- What is put before a content is part of it once it is closed. -/
theorem Content.cons_eq_closed {kept : Text} {passed : Nat} {found : Content} :
    found.cons kept passed = .closed content n ↔
      ∃ content' n', found = .closed content' n' ∧ content = kept ++ content' ∧ n = passed + n' := by
  cases found with
  | closed content' n' => simp [Content.cons, eq_comm]
  | unclosed | overlapping n => simp [Content.cons]

theorem not_closer_of_content (hc : closing ≠ []) (hs : content ≠ [])
    (h : Token.content closing 0 s = .closed content n) : ¬ closing <+: s := by
  intro hp
  rw [content_closing hc hp, Content.closed.injEq] at h
  exact hs h.1.symm

/-- A backslash that escapes the closer behind it is lost. -/
theorem content_escape_ne (hr : ¬ closing <+: Token.escape :: r)
    (hclose : ¬ closing <+: Token.escape :: t) (hp : closing <+: t) (n : Nat) :
    Token.content closing 0 (Token.escape :: t) ≠ .closed (Token.escape :: r) n := by
  intro hn
  obtain ⟨u, rfl⟩ := hp
  rw [content_escape hclose] at hn
  split at hn
  · cases hn
  · obtain ⟨content', n', -, hcontent, -⟩ := Content.cons_eq_closed.mp hn
    exact hr ⟨content', hcontent.symm⟩

/-- Whether a closer begins in a text or directly behind it does not hang on what follows. -/
theorem closer_congr (closing u t t' : Text) :
    closing <+: u ++ (closing ++ t) ↔ closing <+: u ++ (closing ++ t') := by
  have hfirst : ∀ v, (u ++ (closing ++ v)).take closing.length = (u ++ closing).take closing.length := by
    intro v
    rw [← List.append_assoc, List.take_append_of_le_length (by simp)]
  exact prefix_congr ((hfirst t).trans (hfirst t').symm) (Nat.le_refl _)

/-- What a reader behind an escaped content gets is the content, up to its own closer, or something else. -/
theorem Escapes.content_eq_closed (h : Escapes d.closing s e) (hc : d.closing ≠ []) {rest : Text}
    (hread : Token.content d.closing 0 (e ++ (d.closing ++ rest)) = .closed s n) :
    n = e.length + d.closing.length ∧
      ∀ rest', Token.content d.closing 0 (e ++ (d.closing ++ rest')) = .closed s n := by
  have hsame := fun u rest' => (closer_congr d.closing u rest' rest).mp
  induction h generalizing n with
  | nil =>
    have hall := fun rest' => content_closing hc (List.prefix_append d.closing rest')
    rw [List.nil_append, hall, Content.closed.injEq] at hread
    obtain ⟨-, rfl⟩ := hread
    exact ⟨by simp, hall⟩
  | @delimiter r r' h ih =>
    have hclose := not_closer_of_content hc (by simp [hc]) hread
    have hclose' := fun rest' => mt (hsame (escape :: (d.closing ++ r')) rest') hclose
    simp only [List.cons_append, List.append_assoc] at hread hclose hclose' ⊢
    rw [content_escape hclose] at hread
    split at hread
    · cases hread
    · next hover =>
      obtain ⟨content', n', hread', hcontent, rfl⟩ := Content.cons_eq_closed.mp hread
      obtain rfl := List.append_cancel_left hcontent
      obtain ⟨rfl, hall⟩ := ih hread'
      refine ⟨by simp; omega, fun rest' => ?_⟩
      have hover' := mt (And.imp_right (hsame r' rest')) hover
      rw [content_escape (hclose' rest'), if_neg hover', hall rest']
      rfl
  | @char c r r' hopen h ih =>
    have hclose := not_closer_of_content hc (List.cons_ne_nil c r) hread
    have hclose' := fun rest' => mt (hsame (c :: r') rest') hclose
    simp only [List.cons_append] at hread hclose hclose' ⊢
    by_cases hescape : c = escape ∧ d.closing <+: r' ++ (d.closing ++ rest)
    · obtain ⟨rfl, hp⟩ := hescape
      exact absurd hread (content_escape_ne hopen hclose hp n)
    · rw [content_char hclose hescape] at hread
      obtain ⟨content', n', hread', hcontent, rfl⟩ := Content.cons_eq_closed.mp hread
      obtain rfl := (List.cons.inj hcontent).2
      obtain ⟨rfl, hall⟩ := ih hread'
      refine ⟨by simp; omega, fun rest' => ?_⟩
      have hescape' := mt (And.imp_right (hsame r' rest')) hescape
      rw [content_char (hclose' rest') hescape', hall rest']
      rfl

/-- A placeholder with that content, written alone, is read as that content. -/
def ReadsBack (d : Delimiters) (content : Text) : Prop :=
  scan d (Placeholder.write d content) = .ok [.expr content 0]

instance (d : Delimiters) (content : Text) : Decidable (ReadsBack d content) :=
  inferInstanceAs (Decidable (_ = _))

theorem write_append (d : Delimiters) (content rest : Text) : Placeholder.write d content ++ rest =
    d.opening ++ (escapeDelimiter d.closing content ++ (d.closing ++ rest)) := by
  simp [Placeholder.write, escapeDelimiter]

theorem write_eq (d : Delimiters) (content : Text) :
    Placeholder.write d content = d.opening ++ (escapeDelimiter d.closing content ++ (d.closing ++ [])) := by
  rw [← write_append, List.append_nil]

/-- A content that is read back before one rest is read back before any. -/
theorem readsBack_of_closed (ho : d.opening ≠ []) (hc : d.closing ≠ []) {rest : Text}
    (h : Token.content d.closing 0 (escapeDelimiter d.closing content ++ (d.closing ++ rest)) = .closed content n) :
    ReadsBack d content := by
  obtain ⟨rfl, hall⟩ := (escapes_escapeDelimiter hc content).content_eq_closed hc h
  have hfresh : ¬ (false = true ∧ ([] : Text) = []) := by simp
  refine scan_eq_ok_iff.mpr ⟨ho, hc, ?_⟩
  rw [write_eq, scanFrom_opening ho hfresh (hall []), List.append_nil, List.drop_eq_nil_of_le (by simp)]
  rfl

/-- Reading back does not depend on what follows. -/
theorem ReadsBack.closed (h : ReadsBack d content) (rest : Text) :
    Token.content d.closing 0 (escapeDelimiter d.closing content ++ (d.closing ++ rest)) =
      .closed content ((escapeDelimiter d.closing content).length + d.closing.length) := by
  obtain ⟨ho, hc, hscan⟩ := scan_eq_ok_iff.mp h
  rw [write_eq] at hscan
  have hfresh : ¬ (false = true ∧ ([] : Text) = []) := by simp
  obtain ⟨content', n, hclosed⟩ := content_closed_of_scanFrom ho hfresh hscan
  rw [scanFrom_opening ho hfresh hclosed, Except.map_eq_ok_iff] at hscan
  obtain ⟨tokens, -, htokens⟩ := hscan
  obtain ⟨⟨rfl, -⟩, -⟩ : (content' = content ∧ True) ∧ tokens = [] := by simpa [flush] using htokens
  obtain ⟨rfl, hall⟩ := (escapes_escapeDelimiter hc content').content_eq_closed hc hclosed
  exact hall rest

/-- No closer begins in the content or runs on into the one behind it, but for the closers that are passed over
as a whole, and no backslash stands last. -/
inductive Sealable (closing : Text) : Text → Prop where
  | nil : Sealable closing []
  | closer {r : Text} : Sealable closing r → Sealable closing (closing ++ r)
  | char {c : Char} {r : Text} : ¬ closing <+: c :: (r ++ closing) → (c = escape → r ≠ []) → Sealable closing r →
      Sealable closing (c :: r)

theorem Sealable.of_closer (hc : closing ≠ []) {r : Text} (h : Sealable closing (closing ++ r)) :
    Sealable closing r := by
  generalize hs : closing ++ r = s at h
  cases h with
  | nil => exact absurd (List.append_eq_nil_iff.mp hs).1 hc
  | closer h => exact List.append_cancel_left hs ▸ h
  | char hn _ _ =>
    refine absurd ?_ hn
    rw [← List.cons_append, ← hs, List.append_assoc]
    exact List.prefix_append _ _

/-- At a place where no closer stands. -/
theorem Sealable.of_char {c : Char} {r : Text} (h : Sealable closing (c :: r)) (hopen : ¬ closing <+: c :: r) :
    ¬ closing <+: c :: (r ++ closing) ∧ (c = escape → r ≠ []) ∧ Sealable closing r := by
  generalize hs : c :: r = s at h
  cases h with
  | nil => cases hs
  | closer h => exact absurd ⟨_, hs.symm⟩ hopen
  | char hn hlast h =>
    obtain ⟨rfl, rfl⟩ := List.cons.inj hs
    exact ⟨hn, hlast, h⟩

/-- What is shorter than the delimiter has nothing to escape. -/
theorem Escapes.eq_of_length_lt (h : Escapes closing s e) (hlt : s.length < closing.length) : e = s := by
  induction h with
  | nil => rfl
  | delimiter _ _ =>
    rw [List.length_append] at hlt
    omega
  | char _ _ ih =>
    rw [List.length_cons] at hlt
    rw [ih (by omega)]

/-- Escaping makes no closer and loses none at the end of a content. -/
theorem Escapes.closer_iff (h : Escapes closing s e) (he : escape ∉ closing) (hs : ¬ closing <+: s) :
    closing <+: e ++ closing ↔ closing <+: s ++ closing := by
  refine ⟨h.begins_append he, fun hp => ?_⟩
  rcases Nat.lt_or_ge s.length closing.length with hlt | hge
  · rwa [h.eq_of_length_lt hlt]
  · exact absurd (List.prefix_of_prefix_length_le hp (List.prefix_append s closing) hge) hs

/-- The backslash before a closer takes it away from where it stood. -/
theorem Escapes.not_closer (h : Escapes closing s e) (hc : closing ≠ []) (he : escape ∉ closing)
    (hs : closing <+: s) (t : Text) : ¬ closing <+: e ++ t := by
  obtain ⟨c, k, rfl⟩ := List.exists_cons_of_ne_nil hc
  cases h with
  | nil => exact absurd (List.prefix_nil.mp hs) hc
  | delimiter _ =>
    rw [List.cons_append, List.cons_prefix_cons]
    exact fun hp => he (by simp [hp.1])
  | char hn _ => exact absurd hs hn

/-- An escaped content is read back when it can be sealed. -/
theorem Escapes.content_iff (h : Escapes closing s e) (hc : closing ≠ []) (he : escape ∉ closing) :
    (∃ n, Token.content closing 0 (e ++ closing) = .closed s n) ↔ Sealable closing s := by
  induction h with
  | nil => exact ⟨fun _ => .nil, fun _ => ⟨_, content_closing hc (List.prefix_refl _)⟩⟩
  | @delimiter r r' h ih =>
    have hclose := (Escapes.delimiter h).not_closer hc he (List.prefix_append closing r) closing
    simp only [List.cons_append, List.append_assoc] at hclose
    have hend : ¬ (endsInEscape closing = true ∧ closing <+: r' ++ closing) := by
      rintro ⟨hend, -⟩
      rw [endsInEscape, beq_iff_eq] at hend
      exact he (List.mem_of_getLast? hend)
    have hsealable : Sealable closing (closing ++ r) ↔ Sealable closing r := ⟨.of_closer hc, .closer⟩
    rw [hsealable, ← ih]
    simp only [List.cons_append, List.append_assoc]
    rw [content_escape hclose, if_neg hend]
    simp [Content.cons_eq_closed]
  | @char c r r' hopen h ih =>
    have hcloser := (Escapes.char hopen h).closer_iff he hopen
    simp only [List.cons_append] at hcloser ⊢
    by_cases hclose : closing <+: c :: (r' ++ closing)
    · rw [content_closing hc hclose]
      simp only [Content.closed.injEq, reduceCtorEq, false_and, exists_false, false_iff]
      exact fun hseal => (hseal.of_char hopen).1 (hcloser.mp hclose)
    have hopen' := mt hcloser.mpr hclose
    by_cases hescape : c = escape ∧ closing <+: r' ++ closing
    · obtain ⟨rfl, hp⟩ := hescape
      refine iff_of_false (not_exists.mpr fun n => content_escape_ne hopen hclose hp n) ?_
      intro hseal
      obtain ⟨-, hlast, hseal⟩ := hseal.of_char hopen
      have hr : ¬ closing <+: r := fun hr => h.not_closer hc he hr closing hp
      obtain ⟨x, r, rfl⟩ := List.exists_cons_of_ne_nil (hlast rfl)
      exact (hseal.of_char hr).1 (h.begins_append he hp)
    · have hlast : c = escape → r ≠ [] := by
        rintro rfl rfl
        rw [h.eq_of_length_lt (List.length_pos_iff.mpr hc)] at hescape
        exact hescape ⟨rfl, List.prefix_refl _⟩
      have hsealable : Sealable closing (c :: r) ↔ Sealable closing r :=
        ⟨fun hseal => (hseal.of_char hopen).2.2, .char hopen' hlast⟩
      rw [hsealable, ← ih, content_char hclose hescape]
      simp [Content.cons_eq_closed]

/-- A written content is read back exactly when it is sealable. -/
theorem readsBack_iff (ho : d.opening ≠ []) (hc : d.closing ≠ []) (he : escape ∉ d.closing) :
    ReadsBack d content ↔ Sealable d.closing content := by
  rw [← (escapes_escapeDelimiter hc content).content_iff hc he]
  constructor
  · intro h
    have hclosed := h.closed []
    rw [List.append_nil] at hclosed
    exact ⟨_, hclosed⟩
  · rintro ⟨n, h⟩
    have hclosed : Token.content d.closing 0 (escapeDelimiter d.closing content ++ (d.closing ++ [])) =
        .closed content n := by rwa [List.append_nil]
    exact readsBack_of_closed ho hc hclosed

/-! The default closer. -/

/-- A content that does not end in the middle of an escape or of a closer. -/
def Whole (content : Text) : Prop := ∀ c ∈ content.getLast?, c ≠ escape ∧ c ≠ '\x7d'

theorem Whole.tail (h : Whole (c :: s)) : Whole s := by
  cases s with
  | nil => simp [Whole]
  | cons d s => simpa [Whole] using h

/-- A closer of the default configuration is two braces. -/
theorem prefix_closing_iff : Config.default.placeholder.closing <+: c :: r ↔ c = '\x7d' ∧ '\x7d' ∈ r.head? := by
  have hclosing : Config.default.placeholder.closing = ['\x7d', '\x7d'] := rfl
  rw [hclosing, List.cons_prefix_cons, eq_comm]
  cases r <;> simp [List.cons_prefix_cons, eq_comm]

theorem Whole.sealable (h : Whole s) : Sealable Config.default.placeholder.closing s := by
  -- A closer takes two characters of the content at once, so the induction is on the length.
  induction hn : s.length using Nat.strongRecOn generalizing s with
  | _ n ih =>
    subst hn
    cases s with
    | nil => exact .nil
    | cons c r =>
      by_cases hc : Config.default.placeholder.closing <+: c :: r
      · obtain ⟨rfl, hd⟩ := prefix_closing_iff.mp hc
        obtain ⟨r, rfl⟩ := List.head?_eq_some_iff.mp hd
        exact .closer (ih r.length (by simp only [List.length_cons]; omega) h.tail.tail rfl)
      · refine .char ?_ ?_ (ih r.length (Nat.lt_succ_self _) h.tail rfl)
        · rw [prefix_closing_iff] at hc ⊢
          rintro ⟨rfl, hd⟩
          cases r with
          | nil => exact (h '\x7d' rfl).2 rfl
          | cons d r => exact hc ⟨rfl, hd⟩
        · rintro rfl rfl
          exact (h escape rfl).1 rfl

theorem Whole.readsBack (h : Whole s) : ReadsBack Config.default.placeholder s :=
  (readsBack_iff (by decide) (by decide) (by decide)).mpr h.sealable

end DynamicSql.Token
