import DynamicSql.Proofs.Text

/-!
Words: what is between blanks. Everything about them follows from one equation, for the words on both sides of a
blank.
-/
namespace DynamicSql.Text

variable {s t v w r before after : Text} {c : Char}

def words (s : Text) : List Text := (pieces isBlank s).filter fun w => !w.isEmpty

@[simp] theorem words_nil : words [] = [] := rfl

/-- No word goes over a blank. -/
theorem words_append_blank (hc : isBlank c = true) (s t : Text) : words (s ++ c :: t) = words s ++ words t := by
  rw [words, pieces_append_mark hc, List.filter_append]
  rfl

theorem words_cons_blank (hc : isBlank c = true) (s : Text) : words (c :: s) = words s := words_append_blank hc [] s

/-- A text without blanks is one word. -/
theorem words_of_unbroken (hw : ∀ c ∈ w, isBlank c = false) (hne : w ≠ []) : words w = [w] := by
  simp [words, pieces_of_not_mark hw, hne]

theorem words_blanks_append (hb : ∀ c ∈ before, isBlank c = true) (s : Text) : words (before ++ s) = words s := by
  induction before with
  | nil => rfl
  | cons c before ih =>
    rw [List.forall_mem_cons] at hb
    rw [List.cons_append, words_cons_blank hb.1, ih hb.2]

theorem words_of_blanks (hb : ∀ c ∈ before, isBlank c = true) : words before = [] := by
  have h := words_blanks_append hb []
  rwa [List.append_nil] at h

theorem words_append_blanks (ha : ∀ c ∈ after, isBlank c = true) (s : Text) : words (s ++ after) = words s := by
  cases after with
  | nil => rw [List.append_nil]
  | cons c after =>
    rw [List.forall_mem_cons] at ha
    rw [words_append_blank ha.1, words_of_blanks ha.2, List.append_nil]

/-- What no blanks interrupt, up to a blank or the end, can be cut off one way only. -/
theorem append_inj_of_unbroken (hv : ∀ c ∈ v, isBlank c = false) (ht : ∀ c ∈ t.head?, isBlank c = true)
    (hw : ∀ c ∈ w, isBlank c = false) (hr : ∀ c ∈ r.head?, isBlank c = true) (h : v ++ t = w ++ r) :
    v = w ∧ t = r := by
  have hfirst := congrArg (List.takeWhile fun c => !isBlank c) h
  rw [takeWhile_append_eq (by simpa using hv) (by simpa using ht),
    takeWhile_append_eq (by simpa using hw) (by simpa using hr)] at hfirst
  subst hfirst
  exact ⟨rfl, List.append_cancel_left h⟩

/-- What blanks end, and what no blanks interrupt, is the first word. -/
theorem words_unbroken_append (hw : ∀ c ∈ w, isBlank c = false) (hne : w ≠ [])
    (hr : ∀ c ∈ r.head?, isBlank c = true) : words (w ++ r) = w :: words r := by
  cases r with
  | nil => rw [List.append_nil, words_of_unbroken hw hne, words_nil]
  | cons c r =>
    have hc : isBlank c = true := hr c rfl
    rw [words_append_blank hc, words_of_unbroken hw hne, words_cons_blank hc]
    rfl

theorem words_trim (s : Text) : words (trim s) = words s := by
  obtain ⟨before, after, hs, hb, ha⟩ := exists_trim s
  conv_rhs => rw [hs, words_blanks_append hb, words_append_blanks ha]

/-- A text is blank, or its first word stands at its start once it is trimmed. -/
theorem trim_cases (s : Text) : trim s = [] ∧ words s = [] ∨ ∃ w r, trim s = w ++ r ∧ w ≠ [] ∧
    (∀ c ∈ w, isBlank c = false) ∧ (∀ c ∈ r.head?, isBlank c = true) ∧ words s = w :: words r := by
  cases ht : trim s with
  | nil => exact .inl ⟨rfl, by rw [← words_trim, ht, words_nil]⟩
  | cons c t =>
    have hc : isBlank c = false := (trimmed_trim s).head c (by rw [ht]; rfl)
    have hparts : (c :: t).takeWhile (fun c => !isBlank c) ++ (c :: t).dropWhile (fun c => !isBlank c) = c :: t :=
      List.takeWhile_append_dropWhile
    have hword : ∀ d ∈ (c :: t).takeWhile (fun c => !isBlank c), isBlank d = false := by
      intro d hd
      simpa using List.mem_takeWhile_imp hd
    have hne : (c :: t).takeWhile (fun c => !isBlank c) ≠ [] := by simp [hc]
    have hrest : ∀ d ∈ ((c :: t).dropWhile (fun c => !isBlank c)).head?, isBlank d = true := by
      intro d hd
      have hnot := List.head?_dropWhile_not (fun c => !isBlank c) (c :: t)
      rw [Option.mem_def.mp hd] at hnot
      simpa using hnot
    refine .inr ⟨_, _, hparts.symm, hne, hword, hrest, ?_⟩
    rw [← words_trim, ht, ← words_unbroken_append hword hne hrest, hparts]

/-- A text has no words when there is nothing in it but blanks. -/
theorem words_eq_nil_iff : words s = [] ↔ trim s = [] := by
  rcases trim_cases s with ⟨ht, hs⟩ | ⟨w, r, ht, hne, -, -, hs⟩
  · exact iff_of_true hs ht
  · rw [hs, ht]
    simp [hne]

theorem length_trim_le (s : Text) : (trim s).length ≤ s.length := by
  obtain ⟨before, after, hs, -, -⟩ := exists_trim s
  have hlength := congrArg List.length hs
  simp only [List.length_append] at hlength
  omega

/-- What is cut from a trimmed text has blanks at its beginning only. -/
theorem Trimmed.trim_suffix (hs : Trimmed s) (hr : r <:+ s) : trim r = trimStart r := by
  have hcore : Trimmed (trimStart r) := hs.suffix ((List.dropWhile_suffix _).trans hr) (head?_trimStart r)
  rw [← trim_trimStart, hcore.trim_eq]

theorem Trimmed.trim_suffix_ne_nil (hs : Trimmed s) (hr : r <:+ s) (hne : r ≠ []) : trim r ≠ [] := by
  intro htrim
  obtain ⟨before, after, hparts, hb, ha⟩ := exists_trim r
  rw [htrim, List.nil_append] at hparts
  have hblank : isBlank (r.getLast hne) = true := by
    have hmem : r.getLast hne ∈ before ++ after := hparts ▸ List.getLast_mem hne
    exact (List.mem_append.mp hmem).elim (hb _) (ha _)
  have hlast : isBlank (r.getLast hne) = false := by
    obtain ⟨a, rfl⟩ := hr
    exact hs.last _ (by rw [List.getLast?_append_of_ne_nil _ hne, List.getLast?_eq_some_getLast hne]; rfl)
  rw [hblank] at hlast
  exact Bool.noConfusion hlast

/-- The rest of a trimmed text behind its first word, in the text as it was. -/
theorem trim_drop_word (h : trim s = w ++ r) : trim ((trimStart s).drop w.length) = trim r := by
  have hlast : trimEnd (trimStart s) ++ (trimStart s).rtakeWhile isBlank = trimStart s :=
    List.rdropWhile_append_rtakeWhile
  have hblank : ∀ c ∈ (trimStart s).rtakeWhile isBlank, isBlank c = true := fun c => List.mem_rtakeWhile_imp
  rw [← trim, h] at hlast
  rw [← hlast, List.append_assoc, List.drop_left, trim_append_blanks hblank]

end DynamicSql.Text
