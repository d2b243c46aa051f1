import DynamicSql.Proofs.Template.Run
import DynamicSql.Proofs.Text.Words

/-!
Fragments put one behind the other. Main statement: however many they are, the text has the words that it had and
then the words of each fragment, and it is what it was with the fragments that are not blank behind it, where one
space stands before each that would run into what is there.
-/
namespace DynamicSql

namespace Context

variable {buffer fragment : Text}

/-- No blank stands at the joint of a text and what is put behind it. -/
def Touching (buffer fragment : Text) : Prop :=
  buffer ≠ [] ∧ (∀ c ∈ buffer.getLast?, Text.isBlank c = false) ∧ ∀ c ∈ fragment.head?, Text.isBlank c = false

/-- A space is put where two visible characters would touch. -/
theorem needsSpace_iff (buffer fragment : Text) :
    needsSpace buffer fragment = true ↔ Touching buffer fragment := by
  rcases buffer.eq_nil_or_concat with rfl | ⟨r, c, rfl⟩ <;> cases fragment <;> simp [needsSpace, Touching]

instance (buffer fragment : Text) : Decidable (Touching buffer fragment) :=
  decidable_of_iff _ (needsSpace_iff buffer fragment)

def gap (buffer fragment : Text) : Text := if Touching buffer fragment then [' '] else []

/-- A blank fragment adds nothing. -/
theorem appendText_of_blank (h : Text.allBlank fragment = true) (buffer : Text) :
    appendText buffer fragment = buffer := by
  rw [appendText, if_pos h]

theorem appendText_of_not_blank (h : Text.allBlank fragment = false) (buffer : Text) :
    appendText buffer fragment = buffer ++ (gap buffer fragment ++ fragment) := by
  simp only [appendText, h, Bool.false_eq_true, if_false, gap, needsSpace_iff]
  split <;> rfl

/-- Whatever the fragment is, no word is lost and no two become one. -/
theorem words_appendText (buffer fragment : Text) :
    Text.words (appendText buffer fragment) = Text.words buffer ++ Text.words fragment := by
  by_cases hall : Text.allBlank fragment = true
  · have hnone : Text.words fragment = [] := Text.words_of_blanks (List.all_eq_true.mp hall)
    rw [appendText_of_blank hall, hnone, List.append_nil]
  rw [appendText_of_not_blank (Bool.not_eq_true _ ▸ hall), gap]
  split
  · exact Text.words_append_blank (by decide) buffer fragment
  · next hapart =>
    -- Where no space is put, one side of the joint is blank or there is nothing before it.
    simp only [Touching, not_and_or, not_not, not_forall, Bool.not_eq_false] at hapart
    rcases hapart with rfl | ⟨c, hc, hblank⟩ | ⟨c, hc, hblank⟩
    · rfl
    · obtain ⟨r, rfl⟩ := List.getLast?_eq_some_iff.mp hc
      rw [List.nil_append, List.append_assoc, List.singleton_append, Text.words_append_blank hblank,
        Text.words_append_blank hblank, Text.words_nil, List.append_nil]
    · obtain ⟨r, rfl⟩ := List.head?_eq_some_iff.mp hc
      rw [List.nil_append, Text.words_append_blank hblank, Text.words_cons_blank hblank]

def appendAll (fragments : List Text) (ctx : Context) : Context :=
  fragments.foldl (fun ctx fragment => ctx.append fragment) ctx

/-- Fragments with what stands before each, one behind the other. -/
def laid (parts : List (Text × Text)) : Text := parts.flatMap fun part => part.1 ++ part.2

/-- Before each fragment stands what the text behind which it was put asks for. -/
def Spaced (buffer : Text) (parts : List (Text × Text)) : Prop :=
  ∀ earlier before fragment later, parts = earlier ++ (before, fragment) :: later →
    before = gap (buffer ++ laid earlier) fragment

theorem Spaced.cons {parts : List (Text × Text)} (h : Spaced (buffer ++ (gap buffer fragment ++ fragment)) parts) :
    Spaced buffer ((gap buffer fragment, fragment) :: parts) := by
  intro earlier before last later hparts
  cases earlier with
  | nil =>
    obtain ⟨hfirst, -⟩ := List.cons.inj hparts
    cases hfirst
    rw [laid, List.flatMap_nil, List.append_nil]
  | cons first earlier =>
    obtain ⟨rfl, hrest⟩ := List.cons.inj hparts
    have hbefore := h earlier before last later hrest
    rwa [List.append_assoc] at hbefore

/-- What was appended is all there, fragment by fragment, with the gaps between. -/
theorem exists_laid (fragments : List Text) (buffer : Text) :
    ∃ parts, fragments.foldl appendText buffer = buffer ++ laid parts ∧
      parts.map Prod.snd = fragments.filter (fun fragment => !Text.allBlank fragment) ∧ Spaced buffer parts := by
  induction fragments generalizing buffer with
  | nil => exact ⟨[], by simp [laid], rfl, by simp [Spaced]⟩
  | cons fragment fragments ih =>
    by_cases hblank : Text.allBlank fragment = true
    · obtain ⟨parts, htext, hparts, hspaced⟩ := ih buffer
      refine ⟨parts, ?_, ?_, hspaced⟩
      · rw [List.foldl_cons, appendText_of_blank hblank, htext]
      · rw [List.filter_cons_of_neg (by simp [hblank]), hparts]
    · have hshown : Text.allBlank fragment = false := Bool.not_eq_true _ ▸ hblank
      obtain ⟨parts, htext, hparts, hspaced⟩ := ih (buffer ++ (gap buffer fragment ++ fragment))
      refine ⟨(gap buffer fragment, fragment) :: parts, ?_, ?_, hspaced.cons⟩
      · rw [List.foldl_cons, appendText_of_not_blank hshown, htext, List.append_assoc]
        rfl
      · rw [List.filter_cons_of_pos (by simp [hshown]), List.map_cons, hparts]

/-- The words of the fragments come one after the other, and none run together. -/
theorem words_foldl_appendText (fragments : List Text) (buffer : Text) :
    Text.words (fragments.foldl appendText buffer) = Text.words buffer ++ fragments.flatMap Text.words := by
  induction fragments generalizing buffer with
  | nil => simp
  | cons fragment fragments ih =>
    rw [List.foldl_cons, ih, words_appendText, List.flatMap_cons, List.append_assoc]

theorem appendAll_eq (fragments : List Text) (ctx : Context) :
    appendAll fragments ctx = { ctx with buffer := fragments.foldl appendText ctx.buffer } := by
  induction fragments generalizing ctx with
  | nil => rfl
  | cons fragment fragments ih =>
    rw [appendAll, List.foldl_cons, ← appendAll, ih]
    rfl

/--
Fragments put behind a text add their words to its words, in order, and change nothing else. The text is what it
was and then the fragments that are not blank, as they are, with one space before each of them that has no blank
at the joint and something before it.
-/
theorem appendAll_fragments (fragments : List Text) (ctx : Context) :
    ∃ text, appendAll fragments ctx = { ctx with buffer := text } ∧
      Text.words text = Text.words ctx.buffer ++ fragments.flatMap Text.words ∧
      ∃ parts, text = ctx.buffer ++ laid parts ∧
        parts.map Prod.snd = fragments.filter (fun fragment => !Text.allBlank fragment) ∧
        ∀ earlier before fragment later, parts = earlier ++ (before, fragment) :: later →
          before = if Touching (ctx.buffer ++ laid earlier) fragment then [' '] else [] :=
  ⟨_, appendAll_eq fragments ctx, words_foldl_appendText fragments ctx.buffer, exists_laid fragments ctx.buffer⟩

example : (appendAll ["SELECT *".toList, "FROM t".toList, "   ".toList, "\nWHERE 1 = 1".toList] {}).buffer =
    "SELECT * FROM t\nWHERE 1 = 1".toList := by decide

end Context

/-- Texts that stand side by side in a template are put behind one another so. -/
theorem Node.renderAll_texts (s : Setting) (fragments : List Text) (ctx : Context) :
    renderAll s (fragments.map .text) ctx = .ok () (ctx.appendAll fragments) := by
  induction fragments generalizing ctx with
  | nil => rfl
  | cons fragment fragments ih =>
    rw [List.map_cons, renderAll, Rendering.bind_apply, render]
    exact ih _

end DynamicSql
