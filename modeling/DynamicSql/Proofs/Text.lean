import DynamicSql.Text.Blank
import Mathlib.Data.List.DropRight

/-!
What trimming leaves, and what it takes away: blanks at either end. What the pieces of a text hold.
-/
namespace DynamicSql.Text

variable {s before after : Text} {c : Char}

structure Trimmed (s : Text) : Prop where
  head : ∀ c ∈ s.head?, isBlank c = false
  last : ∀ c ∈ s.getLast?, isBlank c = false

theorem takeWhile_append_eq {f : Char → Bool} (hb : ∀ c ∈ before, f c = true)
    (hs : ∀ c ∈ s.head?, f c = false) :
    (before ++ s).takeWhile f = before := by
  rw [List.takeWhile_append_of_pos hb]
  cases s with
  | nil => simp
  | cons c r => simp [hs c rfl]

theorem dropWhile_append_eq {f : Char → Bool} (hb : ∀ c ∈ before, f c = true)
    (hs : ∀ c ∈ s.head?, f c = false) :
    (before ++ s).dropWhile f = s := by
  rw [List.dropWhile_append_of_pos hb]
  cases s with
  | nil => rfl
  | cons c r => simp [hs c rfl]

/-- Blanks around a trimmed text are what trimming takes. -/
theorem trim_append (hb : ∀ c ∈ before, isBlank c = true) (ha : ∀ c ∈ after, isBlank c = true)
    (hs : Trimmed s) (hne : s ≠ []) : trim (before ++ (s ++ after)) = s := by
  have hhead : ∀ c ∈ (s ++ after).head?, isBlank c = false := by
    obtain ⟨c, r, rfl⟩ := List.exists_cons_of_ne_nil hne
    exact fun d hd => hs.head d hd
  have hlast : ∀ c ∈ s.reverse.head?, isBlank c = false := fun c hc => hs.last c (by simpa using hc)
  rw [trim, trimStart, dropWhile_append_eq hb hhead, trimEnd, List.reverse_append,
    dropWhile_append_eq (by simpa using ha) hlast, List.reverse_reverse]

theorem Trimmed.trim_eq (hs : Trimmed s) : trim s = s := by
  by_cases hne : s = []
  · rw [hne]
    rfl
  · have h := trim_append (List.forall_mem_nil _) (List.forall_mem_nil _) hs hne
    rwa [List.nil_append, List.append_nil] at h

/-- A text is its trimmed part with blanks before and behind. -/
theorem exists_trim (s : Text) : ∃ before after, s = before ++ (trim s ++ after) ∧
    (∀ c ∈ before, isBlank c = true) ∧ ∀ c ∈ after, isBlank c = true := by
  refine ⟨s.takeWhile isBlank, (trimStart s).rtakeWhile isBlank, ?_, fun c => List.mem_takeWhile_imp, ?_⟩
  · have hend : trim s ++ (trimStart s).rtakeWhile isBlank = trimStart s := List.rdropWhile_append_rtakeWhile
    rw [hend, trimStart, List.takeWhile_append_dropWhile]
  · exact fun c => List.mem_rtakeWhile_imp

theorem trimmed_trim (s : Text) : Trimmed (trim s) where
  head c hc := by
    have hp : trim s <+: trimStart s := List.rdropWhile_prefix isBlank _
    obtain ⟨r, hr⟩ := hp
    have hhead : (trimStart s).head? = some c := by
      rw [← hr, List.head?_append, Option.mem_def.mp hc]
      rfl
    have hnot := List.head?_dropWhile_not isBlank s
    rw [← trimStart, hhead] at hnot
    exact hnot
  last c hc := by
    obtain ⟨h, rfl⟩ := List.mem_getLast?_eq_getLast hc
    exact Bool.not_eq_true _ ▸ List.rdropWhile_last_not isBlank (trimStart s) h

/-- A suffix of a trimmed text that begins with no blank is trimmed. -/
theorem Trimmed.suffix {u : Text} (hs : Trimmed s) (hu : u <:+ s) (hhead : ∀ c ∈ u.head?, isBlank c = false) :
    Trimmed u where
  head := hhead
  last c hc := by
    obtain ⟨r, rfl⟩ := hu
    have hne : u ≠ [] := by
      rintro rfl
      cases hc
    exact hs.last c (by rwa [List.getLast?_append_of_ne_nil _ hne])

theorem head?_trimStart (s : Text) : ∀ c ∈ (trimStart s).head?, isBlank c = false := by
  intro c hc
  have hnot := List.head?_dropWhile_not isBlank s
  rw [← trimStart, Option.mem_def.mp hc] at hnot
  exact hnot

/-- A trimmed text without the end of it, and without the blanks before that end, is trimmed. -/
theorem Trimmed.trimEnd_prefix {u : Text} (hs : Trimmed s) (hu : u <+: s) : Trimmed (trimEnd u) where
  head c hc := by
    have hp : trimEnd u <+: s := (List.rdropWhile_prefix isBlank u).trans hu
    obtain ⟨r, rfl⟩ := hp
    exact hs.head c (by rw [List.head?_append, Option.mem_def.mp hc]; rfl)
  last c hc := by
    obtain ⟨h, rfl⟩ := List.mem_getLast?_eq_getLast hc
    exact Bool.not_eq_true _ ▸ List.rdropWhile_last_not isBlank u h

/-! A character that is no blank keeps what is before it from the end, and what is behind it from the start. -/

theorem trimStart_append_cons (hc : isBlank c = false) (s r : Text) :
    trimStart (s ++ c :: r) = trimStart s ++ c :: r := by
  simp only [trimStart, List.dropWhile_append]
  split
  · next h => simp [List.isEmpty_iff.mp h, hc]
  · rfl

theorem trimEnd_append_cons (hc : isBlank c = false) (s r : Text) :
    trimEnd (s ++ c :: r) = s ++ c :: trimEnd r := by
  simp only [trimEnd, List.reverse_append, List.reverse_cons, List.append_assoc, List.singleton_append,
    List.dropWhile_append]
  split
  · next h => simp [List.isEmpty_iff.mp h, hc]
  · simp

/-- Around a visible character each side is trimmed at its own end. -/
theorem trim_append_cons (hc : isBlank c = false) (s r : Text) :
    trim (s ++ c :: r) = trimStart s ++ c :: trimEnd r := by
  rw [trim, trimStart_append_cons hc, trimEnd_append_cons hc]

theorem trim_trimStart (s : Text) : trim (trimStart s) = trim s := by
  rw [trim, trim, trimStart, trimStart, List.dropWhile_idempotent]

theorem trim_trimEnd (s : Text) : trim (trimEnd s) = trim s := by
  have hall : s.takeWhile isBlank ++ trimStart s = s := List.takeWhile_append_dropWhile
  have hblank : ∀ c ∈ s.takeWhile isBlank, isBlank c = true := fun c => List.mem_takeWhile_imp
  cases hs : trimStart s with
  | nil =>
    rw [hs, List.append_nil] at hall
    have hend : trimEnd s = [] := by
      rw [← hall, trimEnd, List.dropWhile_eq_nil_iff.mpr (by simpa using hblank), List.reverse_nil]
    have htrim : trim s = [] := by
      rw [trim, hs]
      rfl
    rw [hend, htrim]
    rfl
  | cons c r =>
    have hc : isBlank c = false := by
      have hnot := List.head?_dropWhile_not isBlank s
      rwa [← trimStart, hs] at hnot
    have hend : trimEnd (trimEnd r) = trimEnd r := List.rdropWhile_idempotent _ _
    rw [hs] at hall
    generalize s.takeWhile isBlank = before at hall
    rw [← hall, trimEnd_append_cons hc, trim_append_cons hc, trim_append_cons hc, hend]

theorem trim_append_blanks (ha : ∀ c ∈ after, isBlank c = true) (s : Text) : trim (s ++ after) = trim s := by
  have hend : trimEnd (s ++ after) = trimEnd s := by
    rw [trimEnd, List.reverse_append, List.dropWhile_append_of_pos (by simpa using ha), trimEnd]
  rw [← trim_trimEnd, hend, trim_trimEnd]

/-! Pieces between marks. -/

theorem pieces_of_not_mark {mark : Char → Bool} {s : Text} (h : ∀ c ∈ s, mark c = false) : pieces mark s = [s] := by
  induction s with
  | nil => rfl
  | cons c r ih =>
    rw [pieces, h c List.mem_cons_self, ih fun d hd => h d (List.mem_cons_of_mem _ hd)]
    simp

/-- No piece holds a mark. -/
theorem not_mark_of_mem_pieces {mark : Char → Bool} {s w : Text}
    (h : w ∈ pieces mark s) : ∀ c ∈ w, mark c = false := by
  induction s generalizing w with
  | nil =>
    obtain rfl := List.mem_singleton.mp h
    exact List.forall_mem_nil _
  | cons d s ih =>
    obtain ⟨first, others, hpieces⟩ := List.exists_cons_of_ne_nil (pieces_ne_nil mark s)
    by_cases hd : mark d = true
    · rw [pieces, if_pos hd, List.mem_cons] at h
      rcases h with rfl | h
      · exact List.forall_mem_nil _
      · exact ih h
    · simp only [pieces, hd, hpieces, List.mem_cons, Bool.false_eq_true, if_false] at h ih
      rcases h with rfl | h
      · rw [List.forall_mem_cons]
        exact ⟨by simpa using hd, ih (.inl rfl)⟩
      · exact ih (.inr h)

end DynamicSql.Text
